import OphidiaWorkflow.Text.Query

/-!
The task string of `oph_task_parser_library.c`: `oph_tp_validate_task_string` and `oph_tp_find_param_in_task_string`.

The skip separator of this version is the end of the string, so that no C string has a value between two of them.
-/
namespace OphidiaWorkflow.TaskString

open Lib

/-- `OPH_TP_SKIP_SEPARATOR` -/
def skipSeparator : Char := Char.ofNat 0

/-- The variables of `oph_tp_validate_task_string`. -/
structure Validator where
  lastChar : Char := ';'
  previousChar : Char := Char.ofNat 0
  firstFlag : Bool := true
  skipFlag : Bool := false
  skipCheck : Bool := false
  deriving DecidableEq, Repr

/-- The characters after which no separator may stand. -/
def Validator.barred (st : Validator) : Bool :=
  st.previousChar = '=' || st.previousChar = '|' || st.previousChar = ';'

/-- One round of the loop, none on an error. -/
def Validator.step (st : Validator) (c : Char) : Option Validator :=
  if st.skipFlag then some (if c = skipSeparator then { st with skipFlag := false, skipCheck := true } else st)
  else if st.skipCheck ∧ c ≠ ';' then none
  else
    let next : Validator := { st with previousChar := c, skipCheck := false }
    if c = skipSeparator then if st.previousChar ≠ '=' then none else some { next with skipFlag := true }
    else if c = '=' then
      if (st.lastChar ≠ ';' ∧ st.lastChar ≠ '=') ∨ st.barred then none
      else some { next with lastChar := '=', firstFlag := false }
    else if c = ';' then
      if st.firstFlag ∨ st.lastChar = ';' ∨ st.barred then none else some { next with lastChar := ';' }
    else if c = '|' then
      if st.firstFlag ∨ st.lastChar = ';' ∨ st.barred then none else some { next with lastChar := '|' }
    else some next

/-- `oph_tp_validate_task_string` -/
def validate (s : List Char) : Bool := (s.foldlM Validator.step {}).any fun st => !(st.skipFlag || st.skipCheck)

/-- `OPH_TP_TASK_PARSER_ERROR`, `OPH_TP_TASK_SYSTEM_ERROR`, and a value of negative length. -/
inductive Failure
  | parserError | systemError | undefined
  deriving DecidableEq, Repr

/-- The `while` loop of `oph_tp_find_param_in_task_string`, at most `fuel` rounds of it. -/
def findPairs (param : List Char) : Nat → List Char → Except Failure (List Char)
  | 0, _ => .error .parserError
  | fuel + 1, s =>
    match cutAt ';' s with
    | none => .error .parserError
    | some (pair, rest) =>
      match cutAt '=' s with
      | none => .error .systemError
      | some (key, value) =>
        -- the name against the beginning of the parameter, the parameter against the rest of the string
        if key <+: param ∧ param <+: s then
          if pair.length ≤ key.length then .error .undefined
          else
            let v := pair.drop (key.length + 1)
            .ok (if value.head? = some skipSeparator then v.tail.dropLast else v)
        else findPairs param fuel rest

/-- `oph_tp_find_param_in_task_string`; every round takes a character. -/
def findParam (s param : List Char) : Except Failure (List Char) := findPairs param (s.length + 1) s

/-- A name and a plain value. -/
structure Plain (p : List Char × List Char) : Prop where
  key_equal : '=' ∉ p.1
  key_end : ';' ∉ p.1
  value_end : ';' ∉ p.2
  value_skip : skipSeparator ∉ p.2

/-- The value of the first pair of a name. -/
def valueOf (ps : List (List Char × List Char)) (param : List Char) : Except Failure (List Char) :=
  match ps.find? (·.1 = param) with
  | some p => .ok p.2
  | none => .error .parserError

/-- The parameter is a possible name, or the string goes on with it after no `;`, nor at its beginning. -/
def Apart (ps : List (List Char × List Char)) (param : List Char) : Prop :=
  '=' ∈ param → ∀ qs, qs <:+ ps → ¬param <+: renderPairs qs

variable {param s : List Char} {ps : List (List Char × List Char)} {p : List Char × List Char} {fuel : Nat}

theorem prefixes_iff (hp : Plain p) (rest : List Char) :
    (p.1 <+: param ∧ param <+: p.1 ++ '=' :: rest) ↔ p.1 = param ∨ ('=' ∈ param ∧ param <+: p.1 ++ '=' :: rest) := by
  constructor
  · rintro ⟨⟨t, rfl⟩, ht⟩
    cases t with
    | nil => exact Or.inl (List.append_nil _).symm
    | cons c t =>
      rw [List.prefix_append_right_inj, List.cons_prefix_cons] at ht
      refine Or.inr ⟨List.mem_append_right _ (ht.1 ▸ List.mem_cons_self), ?_⟩
      rw [List.prefix_append_right_inj, List.cons_prefix_cons]
      exact ht
  · rintro (rfl | ⟨hm, ht⟩)
    · exact ⟨List.prefix_refl _, List.prefix_append _ _⟩
    · refine ⟨?_, ht⟩
      rcases List.prefix_or_prefix_of_prefix ht (List.prefix_append p.1 ('=' :: rest)) with h | h
      · exact absurd (h.subset hm) hp.key_equal
      · exact h

theorem renderPair_append (p : List Char × List Char) (rest : List Char) :
    renderPair p ++ rest = p.1 ++ '=' :: (p.2 ++ ';' :: rest) := by
  simp [renderPair]

/-- The value of a pair does not begin with the skip separator, even if it is empty. -/
theorem head?_value_ne (hp : Plain p) (rest : List Char) : (p.2 ++ ';' :: rest).head? ≠ some skipSeparator := by
  cases h : p.2 with
  | nil => exact fun h => absurd (Option.some.inj h) (by decide)
  | cons c v =>
    intro hc
    obtain rfl : c = skipSeparator := Option.some.inj hc
    exact hp.value_skip (h ▸ List.mem_cons_self)

theorem findPairs_cons (hp : Plain p) (rest : List Char) :
    findPairs param (fuel + 1) (renderPair p ++ rest) =
      if p.1 = param ∨ ('=' ∈ param ∧ param <+: renderPair p ++ rest) then .ok p.2 else findPairs param fuel rest := by
  have hend : ';' ∉ p.1 ++ '=' :: p.2 := by
    rw [List.mem_append, List.mem_cons]
    rintro (h | h | h)
    · exact hp.key_end h
    · exact absurd h (by decide)
    · exact hp.value_end h
  have hpair : cutAt ';' (p.1 ++ '=' :: (p.2 ++ ';' :: rest)) = some (p.1 ++ '=' :: p.2, rest) := by
    have h := cutAt_append_cons rest hend
    rwa [List.append_assoc, List.cons_append] at h
  have hlen : ¬(p.1 ++ '=' :: p.2).length ≤ p.1.length := by
    rw [List.length_append, List.length_cons]
    omega
  have hdrop : (p.1 ++ '=' :: p.2).drop (p.1.length + 1) = p.2 := by
    rw [List.drop_append]
    simp
  rw [renderPair_append, findPairs, hpair]
  simp only [cutAt_append_cons _ hp.key_equal, prefixes_iff hp, hlen, if_false, hdrop, if_neg (head?_value_ne hp rest)]

theorem valueOf_cons_of_ne (h : p.1 ≠ param) : valueOf (p :: ps) param = valueOf ps param := by
  rw [valueOf, List.find?_cons_of_neg (by simpa using h), valueOf]

theorem valueOf_of_mem (h : ∀ p ∈ ps, Plain p) (hm : '=' ∈ param) : valueOf ps param = .error .parserError := by
  have hn : ps.find? (·.1 = param) = none := by
    rw [List.find?_eq_none]
    intro p hp he
    have he : p.1 = param := by simpa using he
    exact (h p hp).key_equal (he ▸ hm)
  rw [valueOf, hn]

theorem findPairs_render (h : ∀ p ∈ ps, Plain p) (hf : ps.length < fuel) :
    findPairs param fuel (renderPairs ps) = valueOf ps param ↔ Apart ps param := by
  induction ps generalizing fuel with
  | nil =>
    obtain ⟨f, rfl⟩ := Nat.exists_eq_add_of_lt hf
    refine iff_of_true rfl fun hm qs hqs hq => ?_
    rw [List.suffix_nil.mp hqs] at hq
    exact List.ne_nil_of_mem hm (List.prefix_nil.mp hq)
  | cons p ps ih =>
    obtain ⟨f, rfl⟩ : ∃ f, fuel = f + 1 := ⟨fuel - 1, by omega⟩
    have hp := h p List.mem_cons_self
    have hps : ∀ q ∈ ps, Plain q := fun q hq => h q (List.mem_cons_of_mem p hq)
    rw [renderPairs_cons, ← renderPair_append, findPairs_cons hp]
    by_cases he : p.1 = param
    · rw [if_pos (Or.inl he), valueOf, List.find?_cons_of_pos (by simpa using he)]
      exact iff_of_true rfl fun hm => absurd (he ▸ hm) hp.key_equal
    · by_cases hm : '=' ∈ param ∧ param <+: renderPair p ++ renderPairs ps
      · rw [if_pos (Or.inr hm), valueOf_of_mem h hm.1]
        refine iff_of_false (fun h => by cases h) fun ha => ?_
        apply ha hm.1 (p :: ps) (List.suffix_refl _)
        rw [renderPairs_cons, ← renderPair_append]
        exact hm.2
      · rw [if_neg (not_or.mpr ⟨he, hm⟩), valueOf_cons_of_ne he, ih hps (Nat.lt_of_succ_lt_succ hf)]
        constructor
        · intro ha hmem qs hqs
          rcases List.suffix_cons_iff.mp hqs with rfl | hqs
          · intro hq
            rw [renderPairs_cons, ← renderPair_append] at hq
            exact hm ⟨hmem, hq⟩
          · exact ha hmem qs hqs
        · exact fun ha hmem qs hqs => ha hmem qs (hqs.trans (List.suffix_cons p ps))

/-- A `;` is only let through after a `=`, and no `|` is before it. -/
theorem step_eq_some {st st' : Validator} {c : Char} (hf : st.skipFlag = false) (hz : c ≠ skipSeparator)
    (h : st.step c = some st') :
    st'.skipFlag = false ∧ (c = ';' → st.lastChar ≠ ';' ∧ st'.lastChar = ';') ∧
      (c ≠ ';' → c ≠ '=' → st.lastChar = ';' → st'.lastChar = ';') := by
  unfold Validator.step at h
  rw [hf, if_neg Bool.false_ne_true] at h
  split at h
  · cases h
  · simp only at h
    split at h
    · next hc =>
      split at h
      · cases h
      · obtain rfl := Option.some.inj h
        exact ⟨rfl, fun h => absurd (hc.symm.trans h) (by decide), fun _ h => absurd hc h⟩
    · split at h
      · next hc =>
        split at h
        · cases h
        · next hn =>
          obtain rfl := Option.some.inj h
          exact ⟨rfl, fun _ => ⟨fun hl => hn (Or.inr (Or.inl hl)), rfl⟩, fun h => absurd hc h⟩
      · next hc =>
        split at h
        · split at h
          · cases h
          · next hn =>
            obtain rfl := Option.some.inj h
            exact ⟨rfl, fun h => absurd h hc, fun _ _ hl => absurd (Or.inr (Or.inl hl)) hn⟩
        · obtain rfl := Option.some.inj h
          exact ⟨rfl, fun h => absurd h hc, fun _ _ hl => hl⟩

theorem foldlM_step_key {st st' : Validator} {k : List Char} (he : '=' ∉ k) (hs : ';' ∉ k) (hz : skipSeparator ∉ k)
    (hl : st.lastChar = ';') (hf : st.skipFlag = false) (h : k.foldlM Validator.step st = some st') :
    st'.lastChar = ';' ∧ st'.skipFlag = false := by
  induction k generalizing st with
  | nil =>
    cases h
    exact ⟨hl, hf⟩
  | cons c k ih =>
    rw [List.mem_cons, not_or] at he hs hz
    rw [List.foldlM_cons] at h
    obtain ⟨st1, h1, h⟩ := Option.bind_eq_some_iff.mp h
    obtain ⟨hf1, -, hl1⟩ := step_eq_some hf (Ne.symm hz.1) h1
    exact ih he.2 hs.2 hz.2 (hl1 (Ne.symm hs.1) (Ne.symm he.1) hl) hf1 h

theorem foldlM_step_skip {st st' : Validator} (hz : skipSeparator ∉ s) (hf : st.skipFlag = false)
    (h : s.foldlM Validator.step st = some st') : st'.skipFlag = false := by
  induction s generalizing st with
  | nil =>
    cases h
    exact hf
  | cons c s ih =>
    rw [List.mem_cons, not_or] at hz
    rw [List.foldlM_cons] at h
    obtain ⟨st1, h1, h⟩ := Option.bind_eq_some_iff.mp h
    exact ih hz.2 (step_eq_some hf (Ne.symm hz.1) h1).1 h

/-- A string that is accepted is a list of pairs, if it ends as one. -/
theorem exists_pairs {st : Validator} (hz : skipSeparator ∉ s) (he : s = [] ∨ s.getLast? = some ';')
    (hl : st.lastChar = ';') (hf : st.skipFlag = false) (h : (s.foldlM Validator.step st).isSome) :
    ∃ ps, s = renderPairs ps ∧ ∀ p ∈ ps, Plain p := by
  induction hn : s.length using Nat.strongRecOn generalizing s st with
  | ind n ih =>
    by_cases hm : ';' ∈ s
    · obtain ⟨pair, rest, rfl, hpair⟩ := List.eq_append_cons_of_mem hm
      rw [List.mem_append, List.mem_cons, not_or, not_or] at hz
      obtain ⟨st', h⟩ := Option.isSome_iff_exists.mp h
      rw [List.foldlM_append] at h
      obtain ⟨st1, h1, h⟩ := Option.bind_eq_some_iff.mp h
      rw [List.foldlM_cons] at h
      obtain ⟨st2, h2, hrest⟩ := Option.bind_eq_some_iff.mp h
      have hf1 := foldlM_step_skip hz.1 hf h1
      obtain ⟨hf2, hsep, -⟩ := step_eq_some hf1 (by decide) h2
      obtain ⟨hne, hl2⟩ := hsep rfl
      have heq : '=' ∈ pair := by
        by_contra hno
        exact hne (foldlM_step_key hno hpair hz.1 hl hf h1).1
      obtain ⟨k, v, rfl, hk⟩ := List.eq_append_cons_of_mem heq
      have hlast : rest = [] ∨ rest.getLast? = some ';' := by
        cases rest with
        | nil => exact Or.inl rfl
        | cons c rest =>
          rcases he with he | he
          · cases List.append_eq_nil_iff.mp he with
            | intro _ h => cases h
          · rw [List.getLast?_append, List.getLast?_cons_cons] at he
            exact Or.inr (by simpa using he)
      have hshort : rest.length < n := by
        rw [← hn, List.length_append, List.length_cons]
        omega
      obtain ⟨ps, rfl, hps⟩ := ih rest.length hshort hz.2.2 hlast hl2 hf2 (Option.isSome_iff_exists.mpr ⟨st', hrest⟩) rfl
      refine ⟨(k, v) :: ps, ?_, ?_⟩
      · rw [renderPairs_cons, List.append_assoc, List.cons_append]
      · intro p hp
        rcases List.mem_cons.mp hp with rfl | hp
        · simp only [List.mem_append, List.mem_cons, not_or] at hpair hz
          exact ⟨hk, hpair.1, hpair.2.2, hz.1.2.2⟩
        · exact hps p hp
    · refine ⟨[], ?_, fun p hp => by cases hp⟩
      rcases he with he | he
      · exact he
      · exact absurd (List.mem_of_getLast? he) hm

/-- The value found in an accepted task string is the one of the first pair of that name, unless the parameter has a `=`
and the string goes on with it. -/
theorem findParam_eq_iff (hz : skipSeparator ∉ s) (hv : validate s = true) (he : s = [] ∨ s.getLast? = some ';') :
    ∃ ps, s = renderPairs ps ∧ (∀ p ∈ ps, Plain p) ∧
      ∀ param, findParam s param = valueOf ps param ↔ Apart ps param := by
  have hsome : (s.foldlM Validator.step {}).isSome := by
    unfold validate at hv
    cases h : s.foldlM Validator.step {} with
    | none => simp [h] at hv
    | some st => rfl
  obtain ⟨ps, rfl, hps⟩ := exists_pairs hz he rfl rfl hsome
  exact ⟨ps, rfl, hps, fun param => findPairs_render hps (Nat.lt_succ_of_le length_le_length_renderPairs)⟩

theorem Apart.of_not_mem (h : '=' ∉ param) : Apart ps param := fun hm => absurd hm h

/-- The names that are looked for are constants of the callers and argument names of the operators: none has a `=`. -/
theorem findParam_eq (hz : skipSeparator ∉ s) (hv : validate s = true) (he : s = [] ∨ s.getLast? = some ';') :
    ∃ ps, s = renderPairs ps ∧ (∀ p ∈ ps, Plain p) ∧
      ∀ param, '=' ∉ param → findParam s param = valueOf ps param := by
  obtain ⟨ps, hs, hps, hfind⟩ := findParam_eq_iff hz hv he
  exact ⟨ps, hs, hps, fun param hp => (hfind param).mpr (.of_not_mem hp)⟩

theorem findParam_eq_two : ∃ ps, "a=1;b=x=2;".toList = renderPairs ps ∧ (∀ p ∈ ps, Plain p) ∧
    ∀ param, '=' ∉ param → findParam "a=1;b=x=2;".toList param = valueOf ps param :=
  findParam_eq (by decide) (by decide) (by decide)

example : findParam "a=1;b=x=2;".toList "b".toList = .ok "x=2".toList := by decide

end OphidiaWorkflow.TaskString
