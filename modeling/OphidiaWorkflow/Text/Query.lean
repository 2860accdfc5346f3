import OphidiaWorkflow.Lib.Cut

/-!
`oph_parse_query` of `oph_parser.c`: the text `key=value;key=value;...` is split into its pairs.

Texts are C strings: lists with one character for each byte.
-/
namespace OphidiaWorkflow

open Lib

/-- A group is opened by `[` or by a brace; this is the character that closes it. -/
def closing : Char → Option Char
  | '[' => some ']'
  | '{' => some '}'
  | _ => none

/--
The value at the start of the text and what follows its `;`. In a group opened by the first character, no `;` is looked
for before the first character that closes it. The outer `none` is the error of a group that is never closed.
-/
def cutValue (s : List Char) : Option (Option (List Char × List Char)) :=
  match s.head?.bind closing with
  | some c => (cutAt c s).map fun p => (cutAt ';' p.2).map fun q => (p.1 ++ c :: q.1, q.2)
  | none => some (cutAt ';' s)

/-- The `while` loop of `oph_parse_query`, at most `fuel` rounds of it. -/
def parsePairs : Nat → List Char → Option (List (List Char × List Char))
  | 0, _ => some []
  | fuel + 1, s =>
    match cutAt '=' s with
    | none => some []
    | some (key, s) =>
      match cutValue s with
      | none => none
      -- a last pair without `;` is dropped
      | some none => some []
      | some (some (value, s)) => (parsePairs fuel s).map ((key, value) :: ·)

/-- `oph_parse_query`; it fails if no pair is found. Every pair takes two characters, so the fuel is enough. -/
def parseQuery (s : List Char) : Option (List (List Char × List Char)) :=
  (parsePairs s.length s).filter fun ps => !ps.isEmpty

/-- The same loop with what it has found: the pairs and their `counter`. -/
def queryLoop : Nat → List (List Char × List Char) → Nat → List Char → Option (List (List Char × List Char) × Nat)
  | 0, args, counter, _ => some (args, counter)
  | fuel + 1, args, counter, s =>
    match cutAt '=' s with
    | none => some (args, counter)
    | some (key, s) =>
      match cutValue s with
      | none => none
      | some none => some (args, counter)
      | some (some (value, s)) => queryLoop fuel (args ++ [(key, value)]) (counter + 1) s

/-- `oph_parse_query` with both of its outputs. -/
def parseQueryArgs (s : List Char) : Option (List (List Char × List Char) × Nat) :=
  (queryLoop s.length [] 0 s).filter fun r => r.2 != 0

/-- `key=value;` -/
def renderPair (p : List Char × List Char) : List Char := p.1 ++ '=' :: (p.2 ++ [';'])

def renderPairs (ps : List (List Char × List Char)) : List Char := ps.flatMap renderPair

/-- The value has no `;` that the parser takes for its end: none at all or, in a group, none after its first end. -/
def closedValue (v : List Char) : Bool :=
  match v.head?.bind closing with
  | some c => (cutAt c v).any fun p => ';' ∉ p.2
  | none => ';' ∉ v

/-- A pair that `oph_parse_query` finds again in its text. -/
def closedPair (p : List Char × List Char) : Bool := '=' ∉ p.1 && closedValue p.2

variable {c : Char} {k v s rest rest' : List Char} {fuel : Nat} {p : List Char × List Char}
  {ps : List (List Char × List Char)}

theorem head_append_closing (v rest : List Char) :
    (v ++ ';' :: rest).head?.bind closing = v.head?.bind closing := by
  cases v with
  | nil => rfl
  | cons x v => rfl

theorem cutValue_append (rest : List Char) (h : closedValue v = true) :
    cutValue (v ++ ';' :: rest) = some (some (v, rest)) := by
  unfold cutValue
  unfold closedValue at h
  rw [head_append_closing]
  cases hc : v.head?.bind closing with
  | none =>
    rw [hc] at h
    have hv : ';' ∉ v := of_decide_eq_true h
    show some (cutAt ';' _) = _
    rw [cutAt_append_cons rest hv]
  | some c =>
    rw [hc] at h
    obtain ⟨⟨g, t⟩, hg, ht⟩ := (Option.any_eq_true _ _).mp h
    obtain ⟨rfl, hgc⟩ := eq_of_cutAt hg
    have ht : ';' ∉ t := of_decide_eq_true ht
    show (cutAt c _).map _ = _
    rw [List.append_assoc, List.cons_append, cutAt_append_cons _ hgc, Option.map_some, cutAt_append_cons rest ht,
      Option.map_some]

theorem closedValue_of_cutValue (h : cutValue (v ++ ';' :: rest) = some (some (v, rest'))) :
    closedValue v = true ∧ rest' = rest := by
  unfold cutValue at h
  unfold closedValue
  rw [head_append_closing] at h
  cases hc : v.head?.bind closing with
  | none =>
    rw [hc] at h
    obtain ⟨he, hv⟩ := eq_of_cutAt (Option.some.inj h)
    exact ⟨decide_eq_true hv, (List.cons.inj (List.append_cancel_left he)).2.symm⟩
  | some c =>
    rw [hc] at h
    obtain ⟨⟨g, t⟩, hg, h⟩ := Option.map_eq_some_iff.mp h
    obtain ⟨⟨u, r⟩, hu, h⟩ := Option.map_eq_some_iff.mp h
    cases h
    obtain ⟨-, hgc⟩ := eq_of_cutAt hg
    obtain ⟨rfl, huc⟩ := eq_of_cutAt hu
    obtain ⟨he, -⟩ := eq_of_cutAt hg
    -- both sides start with the group and its end
    rw [List.append_assoc, List.cons_append] at he
    have he := (List.cons.inj (List.append_cancel_left he)).2
    refine ⟨?_, (List.cons.inj (List.append_cancel_left he)).2.symm⟩
    show (cutAt c (g ++ c :: u)).any _ = true
    rw [cutAt_append_cons u hgc, Option.any_some]
    exact decide_eq_true huc

theorem parsePairs_eq_cons_iff :
    parsePairs (fuel + 1) s = some (p :: ps) ↔
      ∃ t u, cutAt '=' s = some (p.1, t) ∧ cutValue t = some (some (p.2, u)) ∧ parsePairs fuel u = some ps := by
  rw [parsePairs]
  constructor
  · intro h
    split at h
    · cases h
    · next k t hk =>
      split at h
      · cases h
      · cases h
      · next v u hv =>
        obtain ⟨qs, hqs, h⟩ := Option.map_eq_some_iff.mp h
        cases h
        exact ⟨t, u, hk, hv, hqs⟩
  · rintro ⟨t, u, ht, hu, hps⟩
    simp only [ht, hu, hps, Option.map_some]

theorem eq_of_cutValue (h : cutValue s = some (some (v, rest))) : s = v ++ ';' :: rest := by
  unfold cutValue at h
  cases hc : s.head?.bind closing with
  | none =>
    rw [hc] at h
    exact (eq_of_cutAt (Option.some.inj h)).1
  | some c =>
    rw [hc] at h
    obtain ⟨⟨g, t⟩, hg, h⟩ := Option.map_eq_some_iff.mp h
    obtain ⟨⟨u, r⟩, hu, h⟩ := Option.map_eq_some_iff.mp h
    cases h
    obtain ⟨rfl, -⟩ := eq_of_cutAt hg
    have ht : t = u ++ ';' :: r := (eq_of_cutAt hu).1
    rw [ht, List.append_assoc, List.cons_append]

@[simp] theorem renderPairs_nil : renderPairs [] = [] := rfl

theorem renderPairs_cons (p : List Char × List Char) (ps : List (List Char × List Char)) :
    renderPairs (p :: ps) = p.1 ++ '=' :: (p.2 ++ ';' :: renderPairs ps) := by
  simp only [renderPairs, List.flatMap_cons, renderPair, List.append_assoc, List.cons_append, List.nil_append]

theorem renderPairs_append (ps qs : List (List Char × List Char)) :
    renderPairs (ps ++ qs) = renderPairs ps ++ renderPairs qs := List.flatMap_append

theorem length_le_length_renderPairs : ps.length ≤ (renderPairs ps).length := by
  induction ps with
  | nil => exact Nat.zero_le _
  | cons p ps ih =>
    rw [renderPairs_cons, List.length_cons, List.length_append, List.length_cons, List.length_append, List.length_cons]
    omega

theorem parsePairs_nil (fuel : Nat) : parsePairs fuel [] = some [] := by
  cases fuel with
  | zero => rfl
  | succ fuel => rfl

theorem parsePairs_renderPairs_iff (h : ps.length ≤ fuel) :
    parsePairs fuel (renderPairs ps) = some ps ↔ ∀ p ∈ ps, closedPair p = true := by
  induction ps generalizing fuel with
  | nil => simp [parsePairs_nil]
  | cons p ps ih =>
    cases fuel with
    | zero => cases h
    | succ fuel =>
      have ih := ih (Nat.le_of_succ_le_succ h)
      rw [parsePairs_eq_cons_iff, renderPairs_cons, List.forall_mem_cons, ← ih]
      constructor
      · rintro ⟨t, u, ht, hu, hps⟩
        obtain ⟨he, hk⟩ := eq_of_cutAt ht
        obtain rfl : p.2 ++ ';' :: renderPairs ps = t := (List.cons.inj (List.append_cancel_left he)).2
        obtain ⟨hv, rfl⟩ := closedValue_of_cutValue hu
        exact ⟨by rw [closedPair, hv, Bool.and_true]; exact decide_eq_true hk, hps⟩
      · rintro ⟨hp, hps⟩
        obtain ⟨hk, hv⟩ := Bool.and_eq_true_iff.mp hp
        exact ⟨_, _, cutAt_append_cons _ (of_decide_eq_true hk), cutValue_append _ hv, hps⟩

/-- Whatever is read is closed, and stands at the start of the text. -/
theorem closed_of_parsePairs (h : parsePairs fuel s = some ps) :
    (∃ r, s = renderPairs ps ++ r) ∧ ∀ p ∈ ps, closedPair p = true := by
  induction ps generalizing fuel s with
  | nil => exact ⟨⟨s, rfl⟩, fun p hp => absurd hp List.not_mem_nil⟩
  | cons p ps ih =>
    cases fuel with
    | zero => cases h
    | succ fuel =>
      obtain ⟨t, u, ht, hu, hps⟩ := parsePairs_eq_cons_iff.mp h
      obtain ⟨⟨r, rfl⟩, hc⟩ := ih hps
      obtain ⟨rfl, hk⟩ := eq_of_cutAt ht
      obtain rfl := eq_of_cutValue hu
      have hv := (closedValue_of_cutValue hu).1
      refine ⟨⟨r, ?_⟩, List.forall_mem_cons.mpr ⟨?_, hc⟩⟩
      · rw [renderPairs_cons]
        simp only [List.append_assoc, List.cons_append]
      · rw [closedPair, hv, Bool.and_true]
        exact decide_eq_true hk

theorem closed_of_parseQuery (h : parseQuery s = some ps) :
    (∃ r, s = renderPairs ps ++ r) ∧ ∀ p ∈ ps, closedPair p = true :=
  closed_of_parsePairs (Option.filter_eq_some_iff.mp h).1

/-- The pairs are read back from their text exactly when each of them is closed. -/
theorem parseQuery_renderPairs_iff :
    parseQuery (renderPairs ps) = some ps ↔ ps ≠ [] ∧ ∀ p ∈ ps, closedPair p = true := by
  rw [parseQuery, Option.filter_eq_some_iff, parsePairs_renderPairs_iff length_le_length_renderPairs, and_comm]
  cases ps with
  | nil => simp
  | cons p ps => simp

theorem queryLoop_eq (fuel : Nat) (args : List (List Char × List Char)) (counter : Nat) (s : List Char) :
    queryLoop fuel args counter s = (parsePairs fuel s).map fun ps => (args ++ ps, counter + ps.length) := by
  induction fuel generalizing args counter s with
  | zero => exact congrArg (fun l => some (l, counter)) (List.append_nil args).symm
  | succ fuel ih =>
    rw [queryLoop, parsePairs]
    cases cutAt '=' s with
    | none => exact congrArg (fun l => some (l, counter)) (List.append_nil args).symm
    | some q =>
      dsimp only
      cases cutValue q.2 with
      | none => rfl
      | some r =>
        cases r with
        | none => exact congrArg (fun l => some (l, counter)) (List.append_nil args).symm
        | some r =>
          dsimp only
          rw [ih, Option.map_map]
          refine congrArg (Option.map · _) (funext fun ps => ?_)
          simp only [Function.comp_apply, List.append_assoc, List.singleton_append, List.length_cons]
          rw [Nat.add_right_comm, Nat.add_assoc]

theorem parseQueryArgs_eq (s : List Char) : parseQueryArgs s = (parseQuery s).map fun ps => (ps, ps.length) := by
  rw [parseQueryArgs, parseQuery, queryLoop_eq]
  cases parsePairs s.length s with
  | none => rfl
  | some ps =>
    cases ps with
    | nil => rfl
    | cons p ps =>
      rw [Option.map_some, List.nil_append, Nat.zero_add]
      rfl

/-- The text of closed pairs gives back the pairs and their number. -/
theorem parseQueryArgs_renderPairs (hne : ps ≠ []) (h : ∀ p ∈ ps, closedPair p = true) :
    parseQueryArgs (renderPairs ps) = some (ps, ps.length) := by
  rw [parseQueryArgs_eq, parseQuery_renderPairs_iff.mpr ⟨hne, h⟩, Option.map_some]

/-- Values with a `=`, with a group and a `;` in it, and an empty one. -/
def samplePairs : List (List Char × List Char) :=
  [("a".toList, "b=c".toList), ("k".toList, "[x;y=z]w".toList), ("l".toList, "\x7b;\x7d".toList), ("m".toList, [])]

theorem parseQueryArgs_samplePairs : parseQueryArgs (renderPairs samplePairs) = some (samplePairs, 4) :=
  parseQueryArgs_renderPairs (by decide) (by decide)

end OphidiaWorkflow
