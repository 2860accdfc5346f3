import Mathlib.Data.List.TakeWhile
import OphidiaWorkflow.Lib.Cut

/-!
JSON values as the library Jansson hands them over, and the calls of it that the parser of the requests uses.

Numbers, booleans and `null` are one value: the parser never tells them apart.
-/
namespace OphidiaWorkflow

/-- The bytes a UTF-8 sequence still owes after its first byte, as ranges. -/
def utf8First (b : Nat) : Option (List (Nat × Nat)) :=
  let tail := (0x80, 0xBF)
  if b ≤ 0x7F then some []
  else if 0xC2 ≤ b ∧ b ≤ 0xDF then some [tail]
  else if b = 0xE0 then some [(0xA0, 0xBF), tail]
  else if b = 0xED then some [(0x80, 0x9F), tail]
  else if 0xE1 ≤ b ∧ b ≤ 0xEF then some [tail, tail]
  else if b = 0xF0 then some [(0x90, 0xBF), tail, tail]
  else if 0xF1 ≤ b ∧ b ≤ 0xF3 then some [tail, tail, tail]
  else if b = 0xF4 then some [(0x80, 0x8F), tail, tail]
  else none

def utf8Step (owed : List (Nat × Nat)) (c : Char) : Option (List (Nat × Nat)) :=
  match owed with
  | [] => utf8First c.toNat
  | (lo, hi) :: owed => if lo ≤ c.toNat ∧ c.toNat ≤ hi then some owed else none

/-- The bytes are UTF-8: what `json_string` asks of its argument. -/
def validUtf8 (s : List Char) : Bool := s.foldlM utf8Step [] == some []

theorem utf8Step_ascii {c : Char} (h : c.toNat ≤ 0x7F) : utf8Step [] c = some [] := by
  show utf8First c.toNat = some []
  rw [utf8First, if_pos h]

theorem foldlM_utf8Step_ascii {s : List Char} (h : ∀ c ∈ s, c.toNat ≤ 0x7F) : s.foldlM utf8Step [] = some [] := by
  induction s with
  | nil => rfl
  | cons c s ih =>
    rw [List.foldlM_cons, utf8Step_ascii (h c List.mem_cons_self)]
    exact ih fun d hd => h d (List.mem_cons_of_mem _ hd)

theorem validUtf8_of_ascii {s : List Char} (h : ∀ c ∈ s, c.toNat ≤ 0x7F) : validUtf8 s = true := by
  rw [validUtf8, foldlM_utf8Step_ascii h]
  rfl

theorem validUtf8_append_of_ascii {s t : List Char} (h : ∀ c ∈ s, c.toNat ≤ 0x7F) :
    validUtf8 (s ++ t) = validUtf8 t := by
  rw [validUtf8, List.foldlM_append, foldlM_utf8Step_ascii h]
  rfl

/-- Only bytes from `0x80` on can be owed. -/
theorem le_of_utf8Step {owed owed' : List (Nat × Nat)} {c : Char} (hle : ∀ p ∈ owed, 0x80 ≤ p.1)
    (h : utf8Step owed c = some owed') : ∀ p ∈ owed', 0x80 ≤ p.1 := by
  cases owed with
  | nil =>
    change utf8First c.toNat = some owed' at h
    unfold utf8First at h
    dsimp only at h
    repeat (split at h; · cases h; decide)
    cases h
  | cons q owed =>
    unfold utf8Step at h
    dsimp only at h
    split at h
    · cases h
      exact fun p hp => hle p (List.mem_cons_of_mem _ hp)
    · cases h

theorem validUtf8_of_append_cons {s t : List Char} {c : Char} (hc : c.toNat ≤ 0x7F)
    (h : validUtf8 (s ++ c :: t) = true) : validUtf8 t = true := by
  have hfold : (s ++ c :: t).foldlM utf8Step [] = some [] := beq_iff_eq.mp h
  rw [List.foldlM_append] at hfold
  obtain ⟨owed, hs, hfold⟩ := Option.bind_eq_some_iff.mp hfold
  rw [List.foldlM_cons] at hfold
  obtain ⟨owed', hstep, hfold⟩ := Option.bind_eq_some_iff.mp hfold
  have hle : ∀ p ∈ owed, 0x80 ≤ p.1 := by
    have hall (s : List Char) (owed₀ : List (Nat × Nat)) (hle : ∀ p ∈ owed₀, 0x80 ≤ p.1)
        (h : s.foldlM utf8Step owed₀ = some owed) : ∀ p ∈ owed, 0x80 ≤ p.1 := by
      induction s generalizing owed₀ with
      | nil =>
        cases h
        exact hle
      | cons d s ih =>
        rw [List.foldlM_cons] at h
        obtain ⟨owed₁, hd, h⟩ := Option.bind_eq_some_iff.mp h
        exact ih owed₁ (le_of_utf8Step hle hd) h
    exact hall s [] (fun p hp => absurd hp List.not_mem_nil) hs
  -- a byte that is owed cannot be the character
  cases owed with
  | nil =>
    rw [utf8Step_ascii hc] at hstep
    cases hstep
    exact beq_iff_eq.mpr hfold
  | cons q owed =>
    have hq := hle q List.mem_cons_self
    unfold utf8Step at hstep
    dsimp only at hstep
    split at hstep
    · omega
    · cases hstep

inductive Json
  | string (s : List Char)
  | array (items : List Json)
  | object (members : List (String × Json))
  | other
  deriving Inhabited

namespace Json

/-- `json_string`, a null pointer if the text is not UTF-8. -/
def ofText (s : List Char) : Option Json := if validUtf8 s then some (.string s) else none

/-- `json_object_get`; of members with the same name the last one counts. -/
def get? (k : String) : Json → Option Json
  | object ms => ms.reverse.lookup k
  | _ => none

/-- `json_array_get` at every index: `json_array_size` is zero for what is not an array. -/
def items : Json → List Json
  | array l => l
  | _ => []

def text? : Json → Option (List Char)
  | string s => some s
  | _ => none

/-- The text of member `k`. -/
def getText? (o : Json) (k : String) : Option (List Char) := (o.get? k).bind text?

/-- Member `k` is missing or a text. -/
def acceptsText (o : Json) (k : String) : Bool := (o.get? k).all fun j => j.text?.isSome

/-- `json_unpack` with format `{s?s,s?s,...}`: it stops at the first member that is not a text. -/
def unpack (o : Json) (keys : List String) (k : String) : Option (List Char) :=
  if k ∈ keys.takeWhile o.acceptsText then o.getText? k else none

/-- `json_object_set_new` -/
def setMember (ms : List (String × Json)) (k : String) (j : Json) : List (String × Json) :=
  if ms.any fun m => m.1 = k then ms.map fun m => if m.1 = k then (k, j) else m else ms ++ [(k, j)]

/-- `_oph_workflow_add_to_json`: a null pointer adds nothing. -/
def addToJson (ms : List (String × Json)) (kv : String × Option (List Char)) : Option (List (String × Json)) :=
  match kv.2 with
  | none => some ms
  | some s => (ofText s).map (setMember ms kv.1)

def addAllToJson (ms : List (String × Json)) (kvs : List (String × Option (List Char))) :
    Option (List (String × Json)) := kvs.foldlM addToJson ms

variable {ms ms' : List (String × Json)} {k k' : String} {j : Json} {kvs : List (String × Option (List Char))}
  {s : List Char}

theorem ofText_eq_some_iff : ofText s = some j ↔ validUtf8 s = true ∧ j = .string s := by
  unfold ofText
  split
  · next h => simp [h, eq_comm]
  · next h => simp [h]

theorem lookup_reverse_append_singleton (k : String) (m : String × Json) :
    (ms ++ [m]).reverse.lookup k = if k = m.1 then some m.2 else ms.reverse.lookup k := by
  rw [List.reverse_append, List.reverse_singleton, List.singleton_append]
  by_cases h : k = m.1
  · rw [if_pos h, h]
    exact List.lookup_cons_self
  · rw [if_neg h, List.lookup_cons, beq_false_of_ne h]

theorem lookup_map_set (h : k' ≠ k) (l : List (String × Json)) :
    (l.map fun m => if m.1 = k then (k, j) else m).lookup k' = l.lookup k' := by
  induction l with
  | nil => rfl
  | cons m l ih =>
    rw [List.map_cons]
    by_cases hm : m.1 = k
    · rw [if_pos hm, List.lookup_cons, List.lookup_cons, beq_false_of_ne h, beq_false_of_ne (hm ▸ h), ih]
    · rw [if_neg hm, List.lookup_cons, List.lookup_cons, ih]

theorem lookup_map_set_self (l : List (String × Json)) (h : ∃ m ∈ l, m.1 = k) :
    (l.map fun m => if m.1 = k then (k, j) else m).lookup k = some j := by
  induction l with
  | nil =>
    obtain ⟨m, hm, -⟩ := h
    cases hm
  | cons m l ih =>
    rw [List.map_cons]
    by_cases hm : m.1 = k
    · rw [if_pos hm, List.lookup_cons_self]
    · rw [if_neg hm, List.lookup_cons, beq_false_of_ne (Ne.symm hm)]
      obtain ⟨m', hm', hk⟩ := h
      rcases List.mem_cons.mp hm' with rfl | hm'
      · exact absurd hk hm
      · exact ih ⟨m', hm', hk⟩

theorem forall_mem_setMember {P : String × Json → Prop} (h : ∀ m ∈ ms, P m) (hj : P (k, j)) :
    ∀ m ∈ setMember ms k j, P m := by
  intro m hm
  unfold setMember at hm
  split at hm
  · obtain ⟨m', hm', rfl⟩ := List.mem_map.mp hm
    split
    · exact hj
    · exact h m' hm'
  · rcases List.mem_append.mp hm with hm | hm
    · exact h m hm
    · cases List.mem_singleton.mp hm
      exact hj

theorem lookup_setMember (ms : List (String × Json)) (k k' : String) (j : Json) :
    (setMember ms k j).reverse.lookup k' = if k' = k then some j else ms.reverse.lookup k' := by
  unfold setMember
  split
  · next h =>
    rw [← List.map_reverse]
    split
    · next hk =>
      rw [hk]
      apply lookup_map_set_self
      obtain ⟨m, hm, hmk⟩ := List.any_eq_true.mp h
      exact ⟨m, List.mem_reverse.mpr hm, of_decide_eq_true hmk⟩
    · next hk => exact lookup_map_set hk _
  · exact lookup_reverse_append_singleton k' (k, j)

@[simp] theorem get?_object_setMember (ms : List (String × Json)) (k k' : String) (j : Json) :
    (object (setMember ms k j)).get? k' = if k' = k then some j else (object ms).get? k' :=
  lookup_setMember ms k k' j

@[simp] theorem get?_object_nil (k : String) : (object []).get? k = none := rfl

/-- The text that the last of the additions gives to member `k`, or what it was before them. -/
def lastText (k : String) (kvs : List (String × Option (List Char))) (before : Option Json) : Option Json :=
  kvs.foldl (fun j kv => if k = kv.1 then (kv.2.map Json.string).or j else j) before

theorem addToJson_eq_some_iff {kv : String × Option (List Char)} :
    addToJson ms kv = some ms' ↔
      (∀ s ∈ kv.2, validUtf8 s = true) ∧ ms' = kv.2.elim ms fun s => setMember ms kv.1 (.string s) := by
  unfold addToJson
  split
  · next h =>
    rw [h, Option.elim_none]
    exact ⟨fun hm => ⟨fun s hs => absurd hs (Option.not_mem_none s), (Option.some.inj hm).symm⟩,
      fun hm => congrArg some hm.2.symm⟩
  · next s h =>
    rw [Option.map_eq_some_iff]
    constructor
    · rintro ⟨j, hj, rfl⟩
      obtain ⟨hs, rfl⟩ := ofText_eq_some_iff.mp hj
      refine ⟨?_, by rw [h, Option.elim_some]⟩
      rw [h]
      rintro _ ⟨⟩
      exact hs
    · rintro ⟨hs, rfl⟩
      exact ⟨.string s, ofText_eq_some_iff.mpr ⟨hs s h, rfl⟩, by rw [h, Option.elim_some]⟩

theorem addAllToJson_isSome_iff :
    (addAllToJson ms kvs).isSome ↔ ∀ kv ∈ kvs, ∀ s ∈ kv.2, validUtf8 s = true := by
  induction kvs generalizing ms with
  | nil => exact iff_of_true rfl fun kv hkv => absurd hkv List.not_mem_nil
  | cons kv kvs ih =>
    rw [List.forall_mem_cons]
    unfold addAllToJson at ih ⊢
    rw [List.foldlM_cons]
    cases h : addToJson ms kv with
    | none =>
      refine iff_of_false Bool.false_ne_true fun hv => ?_
      rw [addToJson_eq_some_iff.mpr ⟨hv.1, rfl⟩] at h
      cases h
    | some ms' =>
      show (List.foldlM addToJson ms' kvs).isSome = true ↔ _
      rw [ih]
      exact ⟨fun hv => ⟨(addToJson_eq_some_iff.mp h).1, hv⟩, And.right⟩

theorem get?_addAllToJson (h : addAllToJson ms kvs = some ms') (k : String) :
    (object ms').get? k = lastText k kvs ((object ms).get? k) := by
  induction kvs generalizing ms with
  | nil =>
    cases h
    rfl
  | cons kv kvs ih =>
    unfold addAllToJson at h ih
    rw [List.foldlM_cons] at h
    obtain ⟨ms₁, h₁, h⟩ := Option.bind_eq_some_iff.mp h
    rw [ih h, lastText, lastText, List.foldl_cons]
    congr 1
    rw [(addToJson_eq_some_iff.mp h₁).2]
    cases kv.2 with
    | none => simp only [Option.elim_none, Option.map_none, Option.none_or, ite_self]
    | some s => simp only [Option.elim_some, get?_object_setMember, Option.map_some, Option.some_or]

/-- The last text that is given for `k`. -/
def lastGiven (k : String) (kvs : List (String × Option (List Char))) : Option (List Char) :=
  kvs.foldl (fun s kv => if k = kv.1 then kv.2.or s else s) none

theorem lastText_none (k : String) (kvs : List (String × Option (List Char))) :
    lastText k kvs none = (lastGiven k kvs).map string := by
  have h (s : Option (List Char)) : lastText k kvs (s.map string) =
      (kvs.foldl (fun s kv => if k = kv.1 then kv.2.or s else s) s).map string := by
    induction kvs generalizing s with
    | nil => rfl
    | cons kv kvs ih =>
      rw [lastText, List.foldl_cons, List.foldl_cons, ← ih]
      congr 1
      split
      · cases kv.2 <;> rfl
      · rfl
  exact h none

theorem get?_of_addAllToJson (h : addAllToJson [] kvs = some ms) (k : String) :
    (object ms).get? k = (lastGiven k kvs).map string := by
  rw [get?_addAllToJson h, get?_object_nil, lastText_none]

theorem addAllToJson_append (h : addAllToJson ms kvs = some ms') (kvs' : List (String × Option (List Char))) :
    addAllToJson ms (kvs ++ kvs') = addAllToJson ms' kvs' := by
  unfold addAllToJson at h ⊢
  rw [List.foldlM_append, h]
  rfl

/-- What setting each of the members keeps is kept by all of them. -/
theorem addAllToJson_induction {P : List (String × Json) → Prop}
    (hset : ∀ ms, ∀ kv ∈ kvs, ∀ s ∈ kv.2, validUtf8 s = true → P ms → P (setMember ms kv.1 (string s)))
    (h : P ms) (hadd : addAllToJson ms kvs = some ms') : P ms' := by
  induction kvs generalizing ms with
  | nil =>
    cases hadd
    exact h
  | cons kv kvs ih =>
    unfold addAllToJson at hadd ih
    rw [List.foldlM_cons] at hadd
    obtain ⟨ms₁, h₁, hadd⟩ := Option.bind_eq_some_iff.mp hadd
    obtain ⟨hv, rfl⟩ := addToJson_eq_some_iff.mp h₁
    refine ih (fun ms kv' hkv => hset ms kv' (List.mem_cons_of_mem _ hkv)) ?_ hadd
    cases hkv : kv.2 with
    | none => exact h
    | some s => exact hset ms kv List.mem_cons_self s hkv (hv s hkv) h

theorem unpack_of_texts {o : Json} {keys : List String}
    (h : ∀ k ∈ keys, ∃ s : Option (List Char), o.get? k = s.map string) (hk : k ∈ keys) :
    o.unpack keys k = o.getText? k := by
  have haccepts (k : String) (hk : k ∈ keys) : o.acceptsText k = true := by
    obtain ⟨s, hs⟩ := h k hk
    rw [acceptsText, hs]
    cases s <;> rfl
  rw [unpack, List.takeWhile_eq_self_iff.mpr haccepts, if_pos hk]

theorem getText?_of_get? {o : Json} {s : Option (List Char)} (h : o.get? k = s.map string) : o.getText? k = s := by
  rw [getText?, h]
  cases s <;> rfl

end Json
end OphidiaWorkflow
