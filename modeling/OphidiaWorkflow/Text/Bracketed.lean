import Mathlib.Data.List.Induction
import OphidiaWorkflow.Lib.Digraph
import OphidiaWorkflow.Setup.Blocks
import OphidiaWorkflow.Text.Lookup

/-!
What `oph_workflow_var_substitute` makes of a text whose references are all in brackets.

The references with `@` come first, from the left to the right; then the ones with `&`, whose numbers move what is left
of the former, while `skip_until` stays where it is.
-/
namespace OphidiaWorkflow.Bracketed

open Lib Relation

/-- A piece of the text: `@` and `&` stand only in front of a name in brackets. -/
inductive Piece
  | literal (s : List Char)
  | value (name : List Char)
  | index (name : List Char)

namespace Piece

def text : Piece → List Char
  | literal s => s
  | value name => '@' :: '{' :: (name ++ ['}'])
  | index name => '&' :: '{' :: (name ++ ['}'])

def Valid : Piece → Prop
  | literal s => '@' ∉ s ∧ '&' ∉ s
  | value name | index name => name ≠ [] ∧ ∀ c ∈ name, c ∉ separators

end Piece

def piecesText (ps : List Piece) : List Char := ps.flatMap Piece.text

/-- The names of the references with `&`. -/
def indexNames : List Piece → List (List Char)
  | [] => []
  | .index name :: ps => name :: indexNames ps
  | _ :: ps => indexNames ps

section Meaning

variable (sc : Scope) (skip : List Char)

/-- The argument is the one to be skipped, as far as its key goes into the buffer. -/
def skipped (a : Argument) : Bool := some skip = some (a.key.toList.take (maxString - 1))

/-- The first of the other arguments whose key is the name in upper case, and its index. -/
def namedArgument (name : List Char) : Nat → List Argument → Option (Argument × Nat)
  | _, [] => none
  | j, a :: as =>
    if !skipped skip a && name = a.key.toList.map Char.toUpper then some (a, j) else namedArgument name (j + 1) as

/-- The built-in parameters. -/
def builtin (name : List Char) : Option Int :=
  if name = "OPH_MARKER_ID".toList then some sc.markerid
  else if name = "NCORES".toList then some sc.ncores
  else if name = "NHOST".toList then some sc.nhosts
  else none

/-- The variable of the task, else the variable of the workflow if the task sees it. -/
def boundVar (name : List Char) : Option Var :=
  (sc.taskVars (String.ofList name)).or
    ((sc.vars (String.ofList name)).filter fun v => v.caller < 0 || sc.isChildOf v.caller)

/-- What a name stands for: a value, and an index unless it is a built-in parameter. -/
def meaning (name : List Char) : Option (List Char × Option Int) :=
  match boundVar sc name with
  | some v => some (v.svalue.toList, some v.ivalue)
  | none =>
    match builtin sc name with
    | some n => some (decimal n, none)
    | none => (namedArgument skip name 0 sc.arguments).map fun p => ((p.1.value.map String.toList).getD [], some (p.2 : Int))

def indexOf (name : List Char) : Option Int := (meaning sc skip name).bind Prod.snd

/-- The references with `@` replaced, where the name stands for something. -/
def resolve : Piece → Piece
  | .value name =>
    match meaning sc skip name with
    | some p => .literal p.1
    | none => .value name
  | p => p

/-- The first references with `&` replaced. -/
def number : Nat → List Piece → List Piece
  | n + 1, .index name :: ps =>
    (match indexOf sc skip name with
      | some j => .literal (decimal j)
      | none => .index name) :: number n ps
  | n, p :: ps => p :: number n ps
  | _, [] => []

/-- The text with the references with `@` replaced, and the first `n` of the others. -/
def stage (ps : List Piece) (n : Nat) : List Char := piecesText (number sc skip n (ps.map (resolve sc skip)))

/-- How many references with `&` come before the first one that has no index. -/
def reached (ps : List Piece) : Nat := ((indexNames ps).takeWhile fun name => (indexOf sc skip name).isSome).length

/-- What the substitution has to come to. -/
def expected (ps : List Piece) : Except SubstError (List Char) :=
  if ∀ name ∈ indexNames ps, (indexOf sc skip name).isSome = true then .ok (stage sc skip ps (indexNames ps).length)
  else .error .badVariable

/-- The values hold no reference. -/
structure Plain : Prop where
  taskVars : ∀ key v, sc.taskVars key = some v → '@' ∉ v.svalue.toList ∧ '&' ∉ v.svalue.toList
  vars : ∀ key v, sc.vars key = some v → '@' ∉ v.svalue.toList ∧ '&' ∉ v.svalue.toList
  arguments : ∀ a ∈ sc.arguments, ∀ v, a.value = some v → '@' ∉ v.toList ∧ '&' ∉ v.toList

/-- The search among the arguments comes upon no key that is too long for the buffer, and the one it finds has a
value. -/
def Searched (name : List Char) : List Argument → Prop
  | [] => True
  | a :: as =>
    if skipped skip a then Searched name as
    else a.key.length < maxString ∧ if name = a.key.toList.map Char.toUpper then a.value ≠ none else Searched name as

def Sound (name : List Char) : Prop :=
  boundVar sc name = none → builtin sc name = none → Searched skip name sc.arguments

/-- How far the text goes up to its last `@`. -/
def pastLast (s : List Char) : Nat := s.length - (s.reverse.takeWhile (· ≠ '@')).length

/-- The names are searched for safely, and what is left of the text after each replacement of a `&` goes on to where the
last `@` stood at any time before. -/
structure Fitting (ps : List Piece) : Prop where
  values : ∀ name, .value name ∈ ps → Sound sc skip name
  indexes : ∀ n ≤ reached sc skip ps, ∀ name, (indexNames ps)[n]? = some name → Sound sc skip name
  fits : ∀ n ≤ reached sc skip ps, ∀ m ≤ n, pastLast (stage sc skip ps m) ≤ (stage sc skip ps n).length

/-- The loop comes to this end. -/
def Yields (st : SubstState) (res : Except SubstError (List Char)) : Prop :=
  ∃ fuel, varSubstitute sc (some skip) fuel st = some res

end Meaning

section Yields

variable {sc : Scope} {skip : List Char} {st st' : SubstState} {res res' : Except SubstError (List Char)}

theorem varSubstitute_succ {fuel : Nat} (h : varSubstitute sc (some skip) fuel st = some res) :
    varSubstitute sc (some skip) (fuel + 1) st = some res := by
  induction fuel generalizing st with
  | zero =>
    rw [varSubstitute] at h ⊢
    split at h
    · next hw => rw [if_pos hw, h]
    · next hw =>
      rw [if_neg hw]
      split at h
      · exact h
      · cases h
  | succ fuel ih =>
    rw [varSubstitute] at h ⊢
    split at h
    · next hw => rw [if_pos hw, h]
    · next hw =>
      rw [if_neg hw]
      split at h
      · exact h
      · dsimp only at h ⊢
        split at h
        · exact h
        · exact ih h

theorem Yields.unique (h : Yields sc skip st res) (h' : Yields sc skip st res') : res = res' := by
  obtain ⟨fuel, h⟩ := h
  obtain ⟨fuel', h'⟩ := h'
  exact eq_of_fuel (fun n => varSubstitute sc (some skip) n st) (fun _ _ => varSubstitute_succ) h h'

theorem yields_of_outside (h : st.text.length < st.skipUntil) : Yields sc skip st (.error .undefined) :=
  ⟨0, by rw [varSubstitute, if_pos h]⟩

theorem yields_of_end (hw : st.skipUntil ≤ st.text.length) (h : findReference st.skipUntil st.text = none) :
    Yields sc skip st (.ok st.text) :=
  ⟨0, by rw [varSubstitute, if_neg (Nat.not_lt.mpr hw), h]⟩

theorem yields_of_error {r : Reference} {e : SubstError} (hw : st.skipUntil ≤ st.text.length)
    (h : findReference st.skipUntil st.text = some r) (he : substRound sc (some skip) st r = .error e) :
    Yields sc skip st (.error e) := by
  refine ⟨1, ?_⟩
  rw [varSubstitute, if_neg (Nat.not_lt.mpr hw), h]
  dsimp only
  rw [he]

theorem Yields.of_turn (h : Turn sc (some skip) st st') (hy : Yields sc skip st' res) : Yields sc skip st res := by
  obtain ⟨fuel, hy⟩ := hy
  exact ⟨fuel + 1, (varSubstitute_of_round h.2 h.1 fuel).trans hy⟩

theorem Yields.of_turns (h : ReflTransGen (Turn sc (some skip)) st st') (hy : Yields sc skip st' res) :
    Yields sc skip st res := by
  induction h with
  | refl => exact hy
  | tail _ ht ih => exact ih (hy.of_turn ht)

end Yields

section Rounds

variable {sc : Scope} {skip name before rest : List Char} {sign : Char} {index : Option Int} {st : SubstState}

/-- A reference in brackets. -/
def bracketed (before : List Char) (sign : Char) (name rest : List Char) :
    Reference := ⟨before, sign, true, name, '}' :: rest⟩

theorem lookupName_var {v : Var} (hn : name ≠ []) (hv : boundVar sc name = some v) :
    lookupName sc (some skip) (bracketed before sign name rest) index = .ok (.var v, index) := by
  unfold boundVar at hv
  unfold lookupName bracketed
  rw [if_neg (by simp), if_neg hn]
  dsimp only
  cases ht : sc.taskVars (String.ofList name) with
  | some w =>
    rw [ht] at hv
    cases hv
    rfl
  | none =>
    rw [ht, Option.none_or] at hv
    rw [hv]

theorem lookupName_check (hn : name ≠ []) (hv : boundVar sc name = none) :
    lookupName sc (some skip) (bracketed before sign name rest) index =
      match checkArgs sc name (some skip) with
      | .error e => .error e
      | .ok (some (value, j)) => .ok (.argument (some value), some j)
      | .ok none => .ok (.unknown, some (-1)) := by
  unfold boundVar at hv
  rw [Option.or_eq_none_iff] at hv
  unfold lookupName bracketed
  rw [if_neg (by simp), if_neg hn]
  dsimp only
  rw [hv.1, hv.2]
  rfl

theorem checkArgs_builtin {n : Int} (h : builtin sc name = some n) :
    checkArgs sc name (some skip) = .ok (some (decimal n, -1)) := by
  unfold builtin at h
  unfold checkArgs
  split_ifs at h ⊢ <;> cases h <;> rfl

theorem checkArgs_arguments (h : builtin sc name = none) :
    checkArgs sc name (some skip) = checkArguments name (some skip) 0 sc.arguments := by
  unfold builtin at h
  unfold checkArgs
  split_ifs at h ⊢
  rfl

theorem checkArguments_of_searched {as : List Argument} (h : Searched skip name as) (j : Nat) :
    checkArguments name (some skip) j as =
        .ok ((namedArgument skip name j as).map fun p => ((p.1.value.map String.toList).getD [], (p.2 : Int))) ∧
      ∀ p ∈ namedArgument skip name j as, p.1 ∈ as := by
  induction as generalizing j with
  | nil => exact ⟨rfl, fun p hp => by cases hp⟩
  | cons a as ih =>
    rw [Searched] at h
    rw [checkArguments, namedArgument]
    cases hs : skipped skip a with
    | true =>
      rw [hs, if_pos rfl] at h
      rw [if_pos (of_decide_eq_true hs)]
      obtain ⟨h1, h2⟩ := ih h (j + 1)
      exact ⟨by simpa using h1, fun p hp => List.mem_cons_of_mem _ (h2 p (by simpa using hp))⟩
    | false =>
      rw [hs, if_neg (by decide)] at h
      rw [if_neg (of_decide_eq_false hs), if_neg (Nat.not_le.mpr h.1)]
      by_cases hk : name = a.key.toList.map Char.toUpper
      · have hv := h.2
        rw [if_pos hk] at hv ⊢
        obtain ⟨v, hv⟩ := Option.ne_none_iff_exists'.mp hv
        rw [if_pos (by simp [hk]), hv]
        refine ⟨by simp [hv], ?_⟩
        rintro p hp
        cases hp
        exact List.mem_cons_self
      · have hv := h.2
        rw [if_neg hk] at hv ⊢
        rw [if_neg (by simp [hk])]
        obtain ⟨h1, h2⟩ := ih hv (j + 1)
        exact ⟨h1, fun p hp => List.mem_cons_of_mem _ (h2 p hp)⟩

theorem checkArguments_of_not_searched {as : List Argument} (h : ¬Searched skip name as) (j : Nat) :
    checkArguments name (some skip) j as = .error .undefined := by
  induction as generalizing j with
  | nil => exact absurd trivial h
  | cons a as ih =>
    rw [Searched] at h
    rw [checkArguments]
    cases hs : skipped skip a with
    | true =>
      rw [hs, if_pos rfl] at h
      rw [if_pos (of_decide_eq_true hs)]
      exact ih h (j + 1)
    | false =>
      rw [hs, if_neg (by decide)] at h
      rw [if_neg (of_decide_eq_false hs)]
      by_cases hlen : maxString ≤ a.key.length
      · rw [if_pos hlen]
      · rw [if_neg hlen]
        have hv := fun hh => h ⟨Nat.not_le.mp hlen, hh⟩
        by_cases hk : name = a.key.toList.map Char.toUpper
        · rw [if_pos hk] at hv ⊢
          rw [Classical.not_not.mp hv]
        · rw [if_neg hk] at hv ⊢
          exact ih hv (j + 1)

/-- A search that is not safe leaves a buffer, or reads a null pointer. -/
theorem substRound_of_not_sound (hn : name ≠ []) (h : ¬Sound sc skip name) :
    substRound sc (some skip) st (bracketed before sign name rest) = .error .undefined := by
  rw [Sound, Classical.not_imp, Classical.not_imp] at h
  obtain ⟨hv, hb, hs⟩ := h
  rw [substRound, lookupName_check hn hv, checkArgs_arguments hb, checkArguments_of_not_searched hs]

theorem lookupName_meaningless (hn : name ≠ []) (h : Sound sc skip name) (hm : meaning sc skip name = none) :
    lookupName sc (some skip) (bracketed before sign name rest) index = .ok (.unknown, some (-1)) := by
  unfold meaning at hm
  split at hm
  · cases hm
  · next hv =>
    split at hm
    · cases hm
    · next hb =>
      rw [lookupName_check hn hv, checkArgs_arguments hb, (checkArguments_of_searched (h hv hb) 0).1,
        Option.map_eq_none_iff.mp hm]
      rfl

theorem lookupName_known {value : List Char} {i : Option Int} (hn : name ≠ []) (h : Sound sc skip name)
    (hm : meaning sc skip name = some (value, i)) (before : List Char) (sign : Char) (rest : List Char) (index : Option Int) :
    ∃ d index', lookupName sc (some skip) (bracketed before sign name rest) index = .ok (d, index') ∧
      ((∃ v, d = .var v ∧ value = v.svalue.toList ∧ i = some v.ivalue) ∨
        (d = .argument (some value) ∧ (i = none ∧ index' = some (-1) ∨ ∃ j : Nat, i = some (j : Int) ∧ index' = i))) := by
  unfold meaning at hm
  split at hm
  · next v hv =>
    cases hm
    exact ⟨_, _, lookupName_var hn hv, .inl ⟨v, rfl, rfl, rfl⟩⟩
  · next hv =>
    rw [lookupName_check hn hv]
    split at hm
    · next n hb =>
      cases hm
      rw [checkArgs_builtin hb]
      exact ⟨_, _, rfl, .inr ⟨rfl, .inl ⟨rfl, rfl⟩⟩⟩
    · next hb =>
      obtain ⟨p, hp, hm⟩ := Option.map_eq_some_iff.mp hm
      cases hm
      rw [checkArgs_arguments hb, (checkArguments_of_searched (h hv hb) 0).1, hp]
      exact ⟨_, _, rfl, .inr ⟨rfl, .inr ⟨p.2, rfl, rfl⟩⟩⟩

theorem scanName_bracketed (h : ∀ c ∈ name, c ∉ separators) :
    scanName ('{' :: (name ++ '}' :: rest)) = (true, name, '}' :: rest) := by
  have hname : ∀ c ∈ name, nameChar true false c = true := fun c hc => by simp [nameChar, h c hc]
  have hclose : nameChar true false '}' = false := by decide
  rw [scanName, List.takeWhile_append_of_pos hname, List.dropWhile_append_of_pos hname,
    List.takeWhile_cons_of_neg (by simp [hclose]), List.dropWhile_cons_of_neg (by simp [hclose]), List.append_nil]

theorem embedded_bracketed (h : ∀ c ∈ name, c ∉ separators) (fuel : Nat) :
    embedded fuel before sign ('{' :: (name ++ '}' :: rest)) = bracketed before sign name rest := by
  cases fuel with
  | zero =>
    rw [embedded, scanName_bracketed h]
    rfl
  | succ fuel =>
    rw [embedded, scanName_bracketed h]
    dsimp only
    rw [if_neg (by decide)]
    rfl

theorem findReference_value {k : Nat} (h : ∀ c ∈ name, c ∉ separators) (hk : k ≤ before.length)
    (hd : '@' ∉ before.drop k) :
    findReference k (before ++ '@' :: '{' :: (name ++ '}' :: rest)) = some (bracketed before '@' name rest) := by
  rw [findReference, List.drop_append_of_le_length hk, cutAt_append_cons _ hd, List.take_append_of_le_length hk]
  dsimp only
  rw [List.take_append_drop, embedded_bracketed h]

theorem findReference_index {k : Nat} (h : ∀ c ∈ name, c ∉ separators)
    (hd : '@' ∉ (before ++ '&' :: '{' :: (name ++ '}' :: rest)).drop k) (hb : '&' ∉ before) :
    findReference k (before ++ '&' :: '{' :: (name ++ '}' :: rest)) = some (bracketed before '&' name rest) := by
  rw [findReference, cutAt_eq_none hd, cutAt_append_cons _ hb]
  exact congrArg some (embedded_bracketed h _)

variable {k : Nat}

theorem turn_value (rest : List Char) (index : Option Int) {value : List Char} {i : Option Int}
    (hv : (Piece.value name).Valid) (hs : Sound sc skip name)
    (hm : meaning sc skip name = some (value, i)) (hk : k ≤ before.length) (hd : '@' ∉ before.drop k) :
    ∃ index', Turn sc (some skip) ⟨before ++ '@' :: '{' :: (name ++ '}' :: rest), k, index⟩
      ⟨before ++ value ++ rest, k, index'⟩ := by
  obtain ⟨d, index', hl, hd'⟩ := lookupName_known hv.1 hs hm before '@' rest index
  refine ⟨index', ?_, _, findReference_value hv.2 hk hd, ?_⟩
  · exact hk.trans (by simp)
  · rw [substRound, hl]
    rcases hd' with ⟨v, rfl, rfl, -⟩ | ⟨rfl, -⟩
    · rfl
    · rfl

theorem turn_unknown (rest : List Char) (index : Option Int) (hv : (Piece.value name).Valid) (hs : Sound sc skip name)
    (hm : meaning sc skip name = none)
    (hk : k ≤ before.length) (hd : '@' ∉ before.drop k) :
    Turn sc (some skip) ⟨before ++ '@' :: '{' :: (name ++ '}' :: rest), k, index⟩
      ⟨before ++ '@' :: '{' :: (name ++ '}' :: rest), before.length + 1, some (-1)⟩ := by
  refine ⟨hk.trans (by simp), _, findReference_value hv.2 hk hd, ?_⟩
  rw [substRound, lookupName_meaningless hv.1 hs hm]
  dsimp only
  rw [if_pos (by rfl : (bracketed before '@' name rest).sign = '@')]
  have hmax : max k (before.length + 1) = before.length + 1 := Nat.max_eq_right (Nat.le_succ_of_le hk)
  exact congrArg (fun n => Except.ok (SubstState.mk _ n _)) hmax

theorem turn_index (rest : List Char) (index : Option Int) {j : Int} (hv : (Piece.index name).Valid)
    (hs : Sound sc skip name)
    (hj : indexOf sc skip name = some j) (hk : k ≤ (before ++ '&' :: '{' :: (name ++ '}' :: rest)).length)
    (hd : '@' ∉ (before ++ '&' :: '{' :: (name ++ '}' :: rest)).drop k) (hb : '&' ∉ before) :
    ∃ index', Turn sc (some skip) ⟨before ++ '&' :: '{' :: (name ++ '}' :: rest), k, index⟩
      ⟨before ++ decimal j ++ rest, k, index'⟩ := by
  obtain ⟨⟨value, i⟩, hm, hi⟩ := Option.bind_eq_some_iff.mp hj
  cases hi
  obtain ⟨d, index', hl, hd'⟩ := lookupName_known hv.1 hs hm before '&' rest index
  refine ⟨index', hk, _, findReference_index hv.2 hd hb, ?_⟩
  rw [substRound, hl]
  rcases hd' with ⟨v, rfl, rfl, hi⟩ | ⟨rfl, ⟨hi, -⟩ | ⟨n, hi, rfl⟩⟩
  · cases hi
    rfl
  · cases hi
  · cases hi
    dsimp only
    rw [if_pos (by rfl : (bracketed before '&' name rest).sign = '&'), if_neg (Int.not_lt.mpr (Int.natCast_nonneg n))]
    rfl

theorem yields_of_value {e : SubstError} (rest : List Char) (index : Option Int) (hv : (Piece.value name).Valid)
    (hk : k ≤ before.length) (hd : '@' ∉ before.drop k)
    (he : ∀ st, substRound sc (some skip) st (bracketed before '@' name rest) = .error e) :
    Yields sc skip ⟨before ++ '@' :: '{' :: (name ++ '}' :: rest), k, index⟩ (.error e) :=
  yields_of_error (hk.trans (by simp)) (findReference_value hv.2 hk hd) (he _)

theorem yields_of_index {e : SubstError} (index : Option Int) (hv : (Piece.index name).Valid)
    (hk : k ≤ (before ++ '&' :: '{' :: (name ++ '}' :: rest)).length)
    (hd : '@' ∉ (before ++ '&' :: '{' :: (name ++ '}' :: rest)).drop k) (hb : '&' ∉ before)
    (he : ∀ st, substRound sc (some skip) st (bracketed before '&' name rest) = .error e) :
    Yields sc skip ⟨before ++ '&' :: '{' :: (name ++ '}' :: rest), k, index⟩ (.error e) :=
  yields_of_error hk (findReference_index hv.2 hd hb) (he _)

theorem substRound_no_index (hv : (Piece.index name).Valid) (hs : Sound sc skip name)
    (hj : indexOf sc skip name = none) :
    substRound sc (some skip) st (bracketed before '&' name rest) = .error .badVariable := by
  unfold indexOf at hj
  cases hm : meaning sc skip name with
  | none =>
    rw [substRound, lookupName_meaningless hv.1 hs hm]
    rfl
  | some p =>
    obtain ⟨d, index', hl, hd⟩ := lookupName_known hv.1 hs hm before '&' rest st.index
    rw [hm] at hj
    change p.2 = none at hj
    rw [substRound, hl]
    rcases hd with ⟨v, -, -, hi⟩ | ⟨rfl, ⟨-, rfl⟩ | ⟨n, hi, -⟩⟩
    · rw [hj] at hi
      cases hi
    · rfl
    · rw [hj] at hi
      cases hi

end Rounds

section Texts

variable {s t : List Char}

theorem pastLast_le (s : List Char) : pastLast s ≤ s.length := Nat.sub_le _ _

theorem pastLast_append (h : '@' ∉ t) : pastLast (s ++ t) = pastLast s := by
  have ht : ∀ c ∈ t.reverse, decide (c ≠ '@') = true := by
    intro c hc
    rw [decide_eq_true_iff]
    rintro rfl
    exact h (List.mem_reverse.mp hc)
  rw [pastLast, List.reverse_append, List.takeWhile_append_of_pos ht, List.length_append, List.length_append,
    List.length_reverse, Nat.add_comm t.length, Nat.add_sub_add_right]
  rfl

theorem pastLast_append_cons (h : '@' ∉ t) : pastLast (s ++ '@' :: t) = s.length + 1 := by
  have hs : s ++ '@' :: t = (s ++ ['@']) ++ t := by simp
  rw [hs, pastLast_append h, pastLast, List.reverse_append]
  simp

theorem not_mem_drop {n : Nat} (h : pastLast s ≤ n) : '@' ∉ s.drop n := by
  induction s using List.reverseRecOn with
  | nil => simp
  | append_singleton s c ih =>
    by_cases hc : c = '@'
    · subst hc
      rw [pastLast_append_cons List.not_mem_nil] at h
      rw [List.drop_eq_nil_of_le (by simpa using h)]
      exact List.not_mem_nil
    · have hmem : '@' ∉ [c] := fun hm => hc (List.mem_singleton.mp hm).symm
      rw [pastLast_append hmem] at h
      rw [List.drop_append, List.mem_append, not_or]
      exact ⟨ih h, fun hm => hmem (List.mem_of_mem_drop hm)⟩

theorem piecesText_cons (p : Piece) (ps : List Piece) :
    piecesText (p :: ps) = p.text ++ piecesText ps := List.flatMap_cons

theorem not_mem_name {name : List Char} (h : ∀ c ∈ name, c ∉ separators) : '@' ∉ name ∧ '&' ∉ name :=
  ⟨fun hm => h _ hm (by decide), fun hm => h _ hm (by decide)⟩

theorem not_mem_after_sign {name : List Char} (h : ∀ c ∈ name, c ∉ separators) :
    '@' ∉ '{' :: (name ++ ['}']) ∧ '&' ∉ '{' :: (name ++ ['}']) := by
  have hn := not_mem_name h
  simp [hn.1, hn.2]

end Texts

section Values

variable {sc : Scope} {skip name : List Char} {ps : List Piece}

theorem mem_of_namedArgument {as : List Argument} {j : Nat} {p : Argument × Nat}
    (h : namedArgument skip name j as = some p) :
    p.1 ∈ as := by
  induction as generalizing j with
  | nil => cases h
  | cons a as ih =>
    rw [namedArgument] at h
    split at h
    · cases h
      exact List.mem_cons_self
    · exact List.mem_cons_of_mem _ (ih h)

theorem plain_of_meaning (hp : Plain sc) {value : List Char} {i : Option Int}
    (h : meaning sc skip name = some (value, i)) :
    '@' ∉ value ∧ '&' ∉ value := by
  unfold meaning at h
  split at h
  · next v hv =>
    cases h
    rcases Option.or_eq_some_iff.mp hv with hv | ⟨-, hv⟩
    · exact hp.taskVars _ v hv
    · exact hp.vars _ v (Option.filter_eq_some_iff.mp hv).1
  · split at h
    · cases h
      exact ⟨not_mem_decimal _ (by decide) (by decide), not_mem_decimal _ (by decide) (by decide)⟩
    · obtain ⟨p, ha, h⟩ := Option.map_eq_some_iff.mp h
      cases h
      cases hv : p.1.value with
      | none => exact ⟨List.not_mem_nil, List.not_mem_nil⟩
      | some v => exact hp.arguments p.1 (mem_of_namedArgument ha) v hv

theorem valid_resolve (hp : Plain sc) {p : Piece} (h : p.Valid) : (resolve sc skip p).Valid := by
  unfold resolve
  split
  · split
    · next m hm => exact plain_of_meaning hp hm
    · exact h
  · exact h

/-- The references with `@`, from the left to the right: `k` is where the search starts. What is before it has no
meaning. -/
theorem turns_values (hp : Plain sc) (hv : ∀ p ∈ ps, p.Valid) (hs : ∀ name, .value name ∈ ps → Sound sc skip name)
    (k : Nat) (before after : List Char) (index : Option Int)
    (hk : k ≤ before.length ∨ ∀ name, .value name ∈ ps → meaning sc skip name = none) :
    ∃ index', ReflTransGen (Turn sc (some skip)) ⟨before ++ (piecesText ps ++ after), max k (pastLast before), index⟩
      ⟨before ++ (piecesText (ps.map (resolve sc skip)) ++ after),
        max k (pastLast (before ++ piecesText (ps.map (resolve sc skip)))), index'⟩ := by
  induction ps generalizing before index with
  | nil =>
    rw [List.map_nil, piecesText, List.flatMap_nil, List.append_nil]
    exact ⟨index, .refl⟩
  | cons p ps ih =>
    have ih' := ih (fun p hm => hv p (List.mem_cons_of_mem _ hm)) fun name hm => hs name (List.mem_cons_of_mem _ hm)
    -- the rest, once the first piece is dealt with
    have hrest (t : List Char) (i : Option Int) (h : k ≤ before.length ∨ ∀ name, .value name ∈ p :: ps → meaning sc skip name = none)
        (ht : (resolve sc skip p).text = t) :
        ∃ index', ReflTransGen (Turn sc (some skip)) ⟨before ++ (t ++ (piecesText ps ++ after)), max k (pastLast (before ++ t)), i⟩
          ⟨before ++ (piecesText ((p :: ps).map (resolve sc skip)) ++ after),
            max k (pastLast (before ++ piecesText ((p :: ps).map (resolve sc skip)))), index'⟩ := by
      have hk' : k ≤ (before ++ t).length ∨ ∀ name, .value name ∈ ps → meaning sc skip name = none := by
        refine h.imp (fun h => h.trans (by simp)) fun h name hm => h name (List.mem_cons_of_mem _ hm)
      have hi := ih' (before ++ t) i hk'
      rw [List.map_cons, piecesText_cons, ht]
      simpa only [List.append_assoc] using hi
    rw [piecesText_cons p ps]
    have hvalid := hv p List.mem_cons_self
    cases p with
    | literal s =>
      have h := hrest s index hk rfl
      rw [pastLast_append hvalid.1] at h
      rw [List.append_assoc]
      exact h
    | index name =>
      have hname : '@' ∉ Piece.text (.index name) := by
        rw [Piece.text, List.mem_cons, not_or]
        exact ⟨by decide, (not_mem_after_sign hvalid.2).1⟩
      have h := hrest (Piece.index name).text index hk rfl
      rw [pastLast_append hname] at h
      rw [List.append_assoc]
      exact h
    | value name =>
      have hsound := hs name List.mem_cons_self
      have htext (t : List Char) :
          Piece.text (.value name) ++ t = '@' :: '{' :: (name ++ '}' :: t) := by simp [Piece.text]
      have hpast : pastLast (before ++ Piece.text (.value name)) = before.length + 1 :=
        pastLast_append_cons (not_mem_after_sign hvalid.2).1
      rw [List.append_assoc, htext]
      by_cases hlt : k ≤ before.length
      · have hle : max k (pastLast before) ≤ before.length := Nat.max_le.mpr ⟨hlt, pastLast_le before⟩
        have hd := not_mem_drop (Nat.le_max_right k (pastLast before))
        cases hm : meaning sc skip name with
        | some p =>
          obtain ⟨value, i⟩ := p
          obtain ⟨j, hturn⟩ := turn_value (piecesText ps ++ after) index hvalid hsound hm hle hd
          obtain ⟨index', h⟩ := hrest value j (.inl hlt) (by rw [resolve, hm]; rfl)
          rw [pastLast_append (plain_of_meaning hp hm).1] at h
          rw [List.append_assoc] at hturn
          exact ⟨index', .head hturn h⟩
        | none =>
          have hturn := turn_unknown (piecesText ps ++ after) index hvalid hsound hm hle hd
          obtain ⟨index', h⟩ := hrest (Piece.value name).text (some (-1)) (.inl hlt) (by rw [resolve, hm])
          rw [hpast, Nat.max_eq_right (Nat.le_succ_of_le hlt), htext] at h
          exact ⟨index', .head hturn h⟩
      · -- the search starts behind the reference
        have hm := hk.resolve_left hlt
        obtain ⟨index', h⟩ :=
          hrest (Piece.value name).text index (.inr hm) (by rw [resolve, hm name List.mem_cons_self])
        have hb := pastLast_le before
        rw [hpast, Nat.max_eq_left (by omega), htext] at h
        rw [Nat.max_eq_left (by omega)]
        exact ⟨index', h⟩

theorem number_zero (ps : List Piece) : number sc skip 0 ps = ps := by
  induction ps with
  | nil => rfl
  | cons p ps ih =>
    cases p <;> rw [number, ih] <;> rintro n _ ⟨⟩

theorem number_cons {p : Piece} (hp : ∀ name, p ≠ .index name) (n : Nat) :
    number sc skip n (p :: ps) = p :: number sc skip n ps := by
  cases p with
  | index name => exact absurd rfl (hp name)
  | literal s => cases n <;> rfl
  | value name => cases n <;> rfl

theorem indexNames_resolve (ps : List Piece) : indexNames (ps.map (resolve sc skip)) = indexNames ps := by
  induction ps with
  | nil => rfl
  | cons p ps ih =>
    cases p with
    | literal s => exact ih
    | index name => exact congrArg (name :: ·) ih
    | value name =>
      rw [List.map_cons, resolve]
      split
      · exact ih
      · exact ih

theorem without_index {p : Piece} (hv : p.Valid) (hp : ∀ name, p ≠ .index name) (ps : List Piece) :
    '&' ∉ p.text ∧ indexNames (p :: ps) = indexNames ps := by
  cases p with
  | literal s => exact ⟨hv.2, rfl⟩
  | value name =>
    refine ⟨?_, rfl⟩
    rw [Piece.text, List.mem_cons, not_or]
    exact ⟨by decide, (not_mem_after_sign hv.2).2⟩
  | index name => exact absurd rfl (hp name)

theorem exists_index_or (p : Piece) : (∃ name, p = .index name) ∨ ∀ name, p ≠ .index name :=
  (em (∃ name, p = .index name)).imp_right not_exists.mp

theorem valid_number (hv : ∀ p ∈ ps, p.Valid) (n : Nat) : ∀ p ∈ number sc skip n ps, p.Valid := by
  induction ps generalizing n with
  | nil => cases n <;> exact hv
  | cons p ps ih =>
    have ih' := ih fun p hm => hv p (List.mem_cons_of_mem _ hm)
    rcases exists_index_or p with ⟨name, rfl⟩ | hp
    · cases n with
      | zero =>
        rw [number_zero]
        exact hv
      | succ n =>
        rw [number]
        refine List.forall_mem_cons.mpr ⟨?_, ih' n⟩
        split
        · exact ⟨not_mem_decimal _ (by decide) (by decide), not_mem_decimal _ (by decide) (by decide)⟩
        · exact hv _ List.mem_cons_self
    · rw [number_cons hp]
      exact List.forall_mem_cons.mpr ⟨hv p List.mem_cons_self, ih' n⟩

theorem value_mem_number {n : Nat} (h : .value name ∈ number sc skip n ps) : .value name ∈ ps := by
  induction ps generalizing n with
  | nil => cases n <;> exact h
  | cons p ps ih =>
    rcases exists_index_or p with ⟨name', rfl⟩ | hp
    · cases n with
      | zero => rwa [number_zero] at h
      | succ n =>
        rw [number] at h
        rcases List.mem_cons.mp h with h | h
        · split at h <;> cases h
        · exact List.mem_cons_of_mem _ (ih h)
    · rw [number_cons hp] at h
      rcases List.mem_cons.mp h with rfl | h
      · exact List.mem_cons_self
      · exact List.mem_cons_of_mem _ (ih h)

theorem exists_number {n : Nat} {j : Int} (hv : ∀ p ∈ ps, p.Valid) (hn : (indexNames ps)[n]? = some name)
    (hbefore : ∀ name ∈ (indexNames ps).take n, (indexOf sc skip name).isSome = true) :
    ∃ before rest, piecesText (number sc skip n ps) = before ++ '&' :: '{' :: (name ++ '}' :: rest) ∧ '&' ∉ before ∧
      (indexOf sc skip name = some j → piecesText (number sc skip (n + 1) ps) = before ++ decimal j ++ rest) := by
  induction ps generalizing n with
  | nil => cases hn
  | cons p ps ih =>
    have hv' := fun p hm => hv p (List.mem_cons_of_mem _ hm)
    rcases exists_index_or p with ⟨nm, rfl⟩ | hp
    · cases n with
      | zero =>
        cases hn
        refine ⟨[], piecesText ps, ?_, List.not_mem_nil, ?_⟩
        · rw [number_zero, piecesText_cons, Piece.text]
          simp
        · intro hj
          rw [number, hj, number_zero, piecesText_cons]
          rfl
      | succ n =>
        have hnm : (indexOf sc skip nm).isSome = true := hbefore nm List.mem_cons_self
        obtain ⟨i, hi⟩ := Option.isSome_iff_exists.mp hnm
        obtain ⟨before, rest, h1, h2, h3⟩ := ih hv' hn fun name hm => hbefore name (List.mem_cons_of_mem _ hm)
        refine ⟨decimal i ++ before, rest, ?_, ?_, ?_⟩
        · rw [number, hi, piecesText_cons, h1, Piece.text, List.append_assoc]
        · rw [List.mem_append, not_or]
          exact ⟨not_mem_decimal _ (by decide) (by decide), h2⟩
        · intro hj
          rw [number, hi, piecesText_cons, h3 hj, Piece.text, List.append_assoc, List.append_assoc, List.append_assoc]
    · -- the piece is passed over
      obtain ⟨ht, hi⟩ := without_index (hv p List.mem_cons_self) hp ps
      rw [hi] at hn hbefore
      obtain ⟨before, rest, h1, h2, h3⟩ := ih hv' hn hbefore
      refine ⟨p.text ++ before, rest, ?_, ?_, ?_⟩
      · rw [number_cons hp, piecesText_cons, h1, List.append_assoc]
      · rw [List.mem_append, not_or]
        exact ⟨ht, h2⟩
      · intro hj
        rw [number_cons hp, piecesText_cons, h3 hj, List.append_assoc, List.append_assoc, List.append_assoc]

theorem not_mem_number (hv : ∀ p ∈ ps, p.Valid) (h : ∀ name ∈ indexNames ps, (indexOf sc skip name).isSome = true) :
    '&' ∉ piecesText (number sc skip (indexNames ps).length ps) := by
  induction ps with
  | nil => exact List.not_mem_nil
  | cons p ps ih =>
    have hv' := fun p hm => hv p (List.mem_cons_of_mem _ hm)
    rcases exists_index_or p with ⟨nm, rfl⟩ | hp
    · obtain ⟨i, hi⟩ := Option.isSome_iff_exists.mp (h nm List.mem_cons_self)
      rw [indexNames, List.length_cons, number, hi, piecesText_cons, List.mem_append, not_or]
      exact ⟨not_mem_decimal _ (by decide) (by decide), ih hv' fun name hm => h name (List.mem_cons_of_mem _ hm)⟩
    · obtain ⟨ht, hi⟩ := without_index (hv p List.mem_cons_self) hp ps
      rw [hi] at h ⊢
      rw [number_cons hp, piecesText_cons, List.mem_append, not_or]
      exact ⟨ht, ih hv' h⟩

end Values

section Run

variable {sc : Scope} {skip name : List Char} {ps : List Piece} {n : Nat}

/-- What `Fitting` asks up to the `n`-th of the references with `&`. -/
structure Upto (sc : Scope) (skip : List Char) (ps : List Piece) (n : Nat) : Prop where
  indexes : ∀ m < n, ∀ name, (indexNames ps)[m]? = some name → Sound sc skip name
  fits : ∀ m ≤ n, ∀ l ≤ m, pastLast (stage sc skip ps l) ≤ (stage sc skip ps m).length

/-- The first `n` references with `&` are replaced: `skip_until` is where the last `@` has been at most. -/
structure Staged (sc : Scope) (skip : List Char) (ps : List Piece) (n : Nat) (st : SubstState) : Prop where
  text : st.text = stage sc skip ps n
  within : st.skipUntil ≤ st.text.length
  above : ∀ m ≤ n, pastLast (stage sc skip ps m) ≤ st.skipUntil
  reachedBy : ∃ m ≤ n, pastLast (stage sc skip ps m) = st.skipUntil

theorem meaning_of_mem_resolve (h : .value name ∈ ps.map (resolve sc skip)) :
    .value name ∈ ps ∧ meaning sc skip name = none := by
  obtain ⟨p, hp, hr⟩ := List.mem_map.mp h
  unfold resolve at hr
  split at hr
  · split at hr
    · cases hr
    · next hm =>
      cases hr
      exact ⟨hp, hm⟩
  · next hne =>
    subst hr
    exact absurd rfl (hne name)

theorem resolve_number (n : Nat) : (number sc skip n (ps.map (resolve sc skip))).map (resolve sc skip) =
    number sc skip n (ps.map (resolve sc skip)) := by
  refine (List.map_congr_left fun p hp => ?_).trans (List.map_id _)
  cases p with
  | literal | index => rfl
  | value name =>
    rw [resolve, (meaning_of_mem_resolve (value_mem_number hp)).2]
    rfl

theorem isSome_of_mem_take (h : n ≤ reached sc skip ps) :
    ∀ name ∈ (indexNames ps).take n, (indexOf sc skip name).isSome = true := by
  intro name hm
  have htake : (indexNames ps).takeWhile (fun name => (indexOf sc skip name).isSome) = (indexNames ps).take (reached sc skip ps) :=
    List.prefix_iff_eq_take.mp (List.takeWhile_prefix _)
  have hmem : name ∈ (indexNames ps).take (reached sc skip ps) := (List.take_subset_take_left _ h) hm
  rw [← htake] at hmem
  exact List.mem_takeWhile_imp (p := fun name => (indexOf sc skip name).isSome) hmem

theorem valid_map_resolve (hp : Plain sc) (hv : ∀ p ∈ ps, p.Valid) : ∀ p ∈ ps.map (resolve sc skip), p.Valid := by
  intro p hm
  obtain ⟨q, hq, rfl⟩ := List.mem_map.mp hm
  exact valid_resolve hp (hv q hq)

/-- The references with `@` that have no meaning are passed again where they have moved. -/
theorem turns_again (hp : Plain sc) (hv : ∀ p ∈ ps, p.Valid) (hs : ∀ name, .value name ∈ ps → Sound sc skip name)
    (n k : Nat)
    (index : Option Int) : ∃ index', ReflTransGen (Turn sc (some skip)) ⟨stage sc skip ps n, k, index⟩
      ⟨stage sc skip ps n, max k (pastLast (stage sc skip ps n)), index'⟩ := by
  have hvalid : ∀ p ∈ number sc skip n (ps.map (resolve sc skip)), p.Valid := valid_number (valid_map_resolve hp hv) n
  have hmem (name : List Char) (h : .value name ∈ number sc skip n (ps.map (resolve sc skip))) :=
    meaning_of_mem_resolve (value_mem_number h)
  have h := turns_values hp hvalid (fun name h => hs name (hmem name h).1) k [] [] index (.inr fun name h => (hmem name h).2)
  rw [resolve_number, List.append_nil, List.nil_append] at h
  have hk : max k (pastLast []) = k := Nat.max_eq_left (Nat.zero_le _)
  rwa [hk] at h

theorem index_mem_of_indexNames (h : name ∈ indexNames ps) : .index name ∈ ps := by
  induction ps with
  | nil => cases h
  | cons p ps ih =>
    cases p with
    | literal s => exact List.mem_cons_of_mem _ (ih h)
    | value nm => exact List.mem_cons_of_mem _ (ih h)
    | index nm =>
      rcases List.mem_cons.mp h with rfl | h
      · exact List.mem_cons_self
      · exact List.mem_cons_of_mem _ (ih h)

theorem valid_of_indexNames (hv : ∀ p ∈ ps, p.Valid) (h : (indexNames ps)[n]? = some name) : (Piece.index name).Valid :=
  hv _ (index_mem_of_indexNames (List.mem_of_getElem? h))

/-- The next reference with `&`, before the first one without an index. -/
theorem exists_index (h : n < reached sc skip ps) :
    ∃ name j, (indexNames ps)[n]? = some name ∧ indexOf sc skip name = some j := by
  have hlen : n < (indexNames ps).length := h.trans_le (List.takeWhile_sublist _).length_le
  have hget : (indexNames ps)[n]? = some (indexNames ps)[n] := List.getElem?_eq_getElem hlen
  have hmem : (indexNames ps)[n] ∈ (indexNames ps).take (n + 1) :=
    List.mem_take_iff_getElem.mpr ⟨n, by omega, rfl⟩
  obtain ⟨j, hj⟩ := Option.isSome_iff_exists.mp (isSome_of_mem_take h _ hmem)
  exact ⟨_, j, hget, hj⟩

theorem exists_stage {j : Int} (hp : Plain sc) (hv : ∀ p ∈ ps, p.Valid) (hn : (indexNames ps)[n]? = some name)
    (hbefore : ∀ name ∈ (indexNames ps).take n, (indexOf sc skip name).isSome = true) :
    ∃ before rest, stage sc skip ps n = before ++ '&' :: '{' :: (name ++ '}' :: rest) ∧ '&' ∉ before ∧
      (indexOf sc skip name = some j → stage sc skip ps (n + 1) = before ++ decimal j ++ rest) := by
  rw [← @indexNames_resolve sc skip] at hn hbefore
  exact exists_number (valid_map_resolve hp hv) hn hbefore

theorem turns_to_stage (hp : Plain sc) (hv : ∀ p ∈ ps, p.Valid) (hs : ∀ name, .value name ∈ ps → Sound sc skip name)
    (hn : n ≤ reached sc skip ps) :
    (Upto sc skip ps n ∧ ∃ st, ReflTransGen (Turn sc (some skip)) { text := piecesText ps } st ∧ Staged sc skip ps n st) ∨
      (¬Upto sc skip ps n ∧ Yields sc skip { text := piecesText ps } (.error .undefined)) := by
  induction n with
  | zero =>
    left
    refine ⟨⟨fun m hm => absurd hm (Nat.not_lt_zero m), ?_⟩, ?_⟩
    · rintro m hm l hl
      obtain rfl := Nat.le_zero.mp hm
      obtain rfl := Nat.le_zero.mp hl
      exact pastLast_le _
    · obtain ⟨index, h⟩ := turns_values hp hv hs 0 [] [] none (.inl (Nat.le_refl 0))
      rw [List.nil_append, List.nil_append, List.nil_append, List.append_nil, List.append_nil, ← number_zero (ps.map _),
        Nat.zero_max] at h
      refine ⟨_, h, rfl, pastLast_le _, ?_, 0, Nat.le_refl 0, (Nat.zero_max _).symm⟩
      intro m hm
      obtain rfl := Nat.le_zero.mp hm
      exact Nat.le_max_right _ _
  | succ n ih =>
    rcases ih (Nat.le_of_succ_le hn) with ⟨hup, st, hturns, hst⟩ | ⟨hup, hy⟩
    · obtain ⟨text, k, index⟩ := st
      obtain ⟨rfl, hwithin, habove, l, hl, hlk⟩ := hst
      dsimp only at hwithin habove hlk
      obtain ⟨name, j, hname, hj⟩ := exists_index hn
      obtain ⟨before, rest, htext, hb, hnext⟩ := exists_stage (j := j) hp hv hname (isSome_of_mem_take (Nat.le_of_succ_le hn))
      have hvalid := valid_of_indexNames hv hname
      have hd : '@' ∉ (stage sc skip ps n).drop k := not_mem_drop (habove n (Nat.le_refl n))
      by_cases hsound : Sound sc skip name
      · have hturn :
            ∃ index', Turn sc (some skip) ⟨stage sc skip ps n, k, index⟩ ⟨stage sc skip ps (n + 1), k, index'⟩ := by
          rw [hnext hj]
          rw [htext] at hwithin hd ⊢
          exact turn_index rest index hvalid hsound hj hwithin hd hb
        obtain ⟨index', hturn⟩ := hturn
        by_cases hfit : k ≤ (stage sc skip ps (n + 1)).length
        · obtain ⟨index'', hagain⟩ := turns_again hp hv hs (n + 1) k index'
          refine .inl ⟨?_, _, (hturns.tail hturn).trans hagain, rfl, Nat.max_le.mpr ⟨hfit, pastLast_le _⟩, ?_, ?_⟩
          · constructor
            · intro m hm name' hname'
              rcases Nat.lt_succ_iff_lt_or_eq.mp hm with hm | rfl
              · exact hup.indexes m hm name' hname'
              · rw [hname] at hname'
                cases hname'
                exact hsound
            · intro m hm l hl
              rcases Nat.le_succ_iff.mp hm with hm | rfl
              · exact hup.fits m hm l hl
              · rcases Nat.le_succ_iff.mp hl with hl | rfl
                · exact (habove l hl).trans hfit
                · exact pastLast_le _
          · intro m hm
            rcases Nat.le_succ_iff.mp hm with hm | rfl
            · exact (habove m hm).trans (Nat.le_max_left _ _)
            · exact Nat.le_max_right _ _
          · dsimp only
            rcases Nat.le_total k (pastLast (stage sc skip ps (n + 1))) with hle | hle
            · exact ⟨n + 1, Nat.le_refl _, (Nat.max_eq_right hle).symm⟩
            · exact ⟨l, Nat.le_succ_of_le hl, hlk.trans (Nat.max_eq_left hle).symm⟩
        · -- the search would start behind the text
          refine .inr ⟨fun h => hfit ?_, ?_⟩
          · rw [← hlk]
            exact h.fits (n + 1) (Nat.le_refl _) l (Nat.le_succ_of_le hl)
          · exact (yields_of_outside (Nat.not_le.mp hfit)).of_turns (hturns.tail hturn)
      · refine .inr ⟨fun h => hsound (h.indexes n (Nat.lt_succ_self n) name hname), ?_⟩
        refine Yields.of_turns hturns ?_
        rw [htext] at hwithin hd ⊢
        exact yields_of_index index hvalid hwithin hd hb fun _ => substRound_of_not_sound hvalid.1 hsound
    · refine .inr ⟨fun h => hup ?_, hy⟩
      exact ⟨fun m hm => h.indexes m (Nat.lt_succ_of_lt hm), fun m hm => h.fits m (Nat.le_succ_of_le hm)⟩

theorem exists_first_not_sound (h : ∃ name, .value name ∈ ps ∧ ¬Sound sc skip name) :
    ∃ a name b, ps = a ++ .value name :: b ∧ ¬Sound sc skip name ∧ ∀ name, .value name ∈ a → Sound sc skip name := by
  induction ps with
  | nil =>
    obtain ⟨name, hm, -⟩ := h
    cases hm
  | cons p ps ih =>
    by_cases hp : ∃ name, p = .value name ∧ ¬Sound sc skip name
    · obtain ⟨name, rfl, hn⟩ := hp
      exact ⟨[], name, ps, rfl, hn, fun name h => by cases h⟩
    · have hps : ∃ name, .value name ∈ ps ∧ ¬Sound sc skip name := by
        obtain ⟨name, hm, hn⟩ := h
        rcases List.mem_cons.mp hm with rfl | hm
        · exact absurd ⟨name, rfl, hn⟩ hp
        · exact ⟨name, hm, hn⟩
      obtain ⟨a, name, b, rfl, hn, ha⟩ := ih hps
      refine ⟨p :: a, name, b, rfl, hn, ?_⟩
      intro name hm
      rcases List.mem_cons.mp hm with rfl | hm
      · by_contra hn
        exact hp ⟨name, rfl, hn⟩
      · exact ha name hm

theorem yields_of_not_sound (hp : Plain sc) (hv : ∀ p ∈ ps, p.Valid)
    (h : ∃ name, .value name ∈ ps ∧ ¬Sound sc skip name) :
    Yields sc skip { text := piecesText ps } (.error .undefined) := by
  obtain ⟨a, name, b, rfl, hn, ha⟩ := exists_first_not_sound h
  have hvalid := hv (.value name) (List.mem_append_right a List.mem_cons_self)
  obtain ⟨index, hturns⟩ := turns_values hp (fun p hm => hv p (List.mem_append_left _ hm)) ha 0 []
    (piecesText (.value name :: b)) none (.inl (Nat.le_refl 0))
  have htext : piecesText (.value name :: b) = '@' :: '{' :: (name ++ '}' :: piecesText b) := by
    simp [piecesText_cons, Piece.text]
  have hstart : piecesText (a ++ .value name :: b) = [] ++ (piecesText a ++ piecesText (.value name :: b)) :=
    List.flatMap_append
  rw [hstart]
  refine Yields.of_turns hturns ?_
  rw [List.nil_append, htext, Nat.zero_max]
  exact yields_of_value _ index hvalid (pastLast_le _) (not_mem_drop (Nat.le_refl _)) fun _ => substRound_of_not_sound hvalid.1 hn

theorem getElem?_reached (h : (indexNames ps)[reached sc skip ps]? = some name) : indexOf sc skip name = none := by
  have hlist := List.takeWhile_append_dropWhile (p := fun name => (indexOf sc skip name).isSome) (l := indexNames ps)
  have hhead := List.head?_dropWhile_not (fun name => (indexOf sc skip name).isSome) (indexNames ps)
  have hnext : ((indexNames ps).takeWhile (fun name => (indexOf sc skip name).isSome) ++
      (indexNames ps).dropWhile fun name => (indexOf sc skip name).isSome)[reached sc skip ps]? = some name := by
    rw [hlist]
    exact h
  rw [reached, List.getElem?_append_right (Nat.le_refl _), Nat.sub_self, ← List.head?_eq_getElem?] at hnext
  rw [hnext] at hhead
  exact Option.not_isSome_iff_eq_none.mp (by simpa using hhead)

theorem expected_of_forall (h : ∀ name ∈ indexNames ps, (indexOf sc skip name).isSome = true) :
    expected sc skip ps = .ok (stage sc skip ps (indexNames ps).length) := if_pos h

theorem yields_expected_iff (hp : Plain sc) (hv : ∀ p ∈ ps, p.Valid) :
    Yields sc skip { text := piecesText ps } (expected sc skip ps) ↔ Fitting sc skip ps := by
  have hdefined : expected sc skip ps ≠ .error .undefined := by
    unfold expected
    split <;> exact fun h => by cases h
  have hundefined (h : Yields sc skip { text := piecesText ps } (.error .undefined)) :
      ¬Yields sc skip { text := piecesText ps } (expected sc skip ps) := fun h' => hdefined (h'.unique h)
  by_cases hs : ∀ name, .value name ∈ ps → Sound sc skip name
  · rcases turns_to_stage hp hv hs (Nat.le_refl (reached sc skip ps)) with ⟨hup, st, hturns, hst⟩ | ⟨hup, hy⟩
    · have hwithin := hst.within
      have hd : '@' ∉ st.text.drop st.skipUntil := by
        rw [hst.text]
        exact not_mem_drop (hst.above _ (Nat.le_refl _))
      cases hname : (indexNames ps)[reached sc skip ps]? with
      | none =>
        have hlen : reached sc skip ps = (indexNames ps).length :=
          Nat.le_antisymm (List.takeWhile_sublist _).length_le (List.getElem?_eq_none_iff.mp hname)
        have hall : ∀ name ∈ indexNames ps, (indexOf sc skip name).isSome = true := by
          intro name hm
          refine isSome_of_mem_take (Nat.le_refl (reached sc skip ps)) name ?_
          rwa [hlen, List.take_length]
        have hend : '&' ∉ st.text := by
          rw [hst.text, hlen, stage, ← @indexNames_resolve sc skip]
          refine not_mem_number (valid_map_resolve hp hv) ?_
          rwa [indexNames_resolve]
        refine iff_of_true (Yields.of_turns hturns ?_) ?_
        · have hfind : findReference st.skipUntil st.text = none := by
            rw [findReference, cutAt_eq_none hd, cutAt_eq_none hend]
            rfl
          have hy : Yields sc skip st (.ok st.text) := yields_of_end hwithin hfind
          rwa [hst.text, hlen, ← expected_of_forall hall] at hy
        · refine ⟨hs, fun m hm name hn => ?_, hup.fits⟩
          rcases Nat.lt_or_eq_of_le hm with hm | rfl
          · exact hup.indexes m hm name hn
          · rw [hname] at hn
            cases hn
      | some name =>
        have hnone := getElem?_reached hname
        have hvalid := valid_of_indexNames hv hname
        have hbad : expected sc skip ps = .error .badVariable := by
          refine if_neg fun h => ?_
          have hsome := h name (List.mem_of_getElem? hname)
          rw [hnone] at hsome
          cases hsome
        have hfitting : Fitting sc skip ps ↔ Sound sc skip name := by
          refine ⟨fun h => h.indexes _ (Nat.le_refl _) name hname, fun h => ⟨hs, fun m hm name' hn => ?_, hup.fits⟩⟩
          rcases Nat.lt_or_eq_of_le hm with hm | rfl
          · exact hup.indexes m hm name' hn
          · rw [hname] at hn
            cases hn
            exact h
        obtain ⟨before, rest, htext, hb, -⟩ := exists_stage (j := 0) hp hv hname (isSome_of_mem_take (Nat.le_refl _))
        have hend {e : SubstError} (he : ∀ st, substRound sc (some skip) st (bracketed before '&' name rest) = .error e) :
            Yields sc skip { text := piecesText ps } (.error e) := by
          obtain ⟨text, k, index⟩ := st
          obtain rfl : text = before ++ '&' :: '{' :: (name ++ '}' :: rest) := hst.text.trans htext
          exact (yields_of_index index hvalid hwithin hd hb he).of_turns hturns
        rw [hfitting]
        constructor
        · intro h
          by_contra hn
          exact hundefined (hend fun _ => substRound_of_not_sound hvalid.1 hn) h
        · intro h
          rw [hbad]
          exact hend fun _ => substRound_no_index hvalid h hnone
    · refine iff_of_false (hundefined hy) fun h => hup ?_
      exact ⟨fun m hm => h.indexes m hm.le, h.fits⟩
  · simp only [not_forall] at hs
    obtain ⟨name, hm, hn⟩ := hs
    exact iff_of_false (hundefined (yields_of_not_sound hp hv ⟨name, hm, hn⟩)) fun h => hn (h.values name hm)

end Run

section Lineage

variable {wf : Workflow} {i p : Nat}

/-- Task `p` is task `c`, or a task that it depends on directly or indirectly. -/
def Ancestor (wf : Workflow) (p c : Nat) : Prop :=
  p < wf.tasksNum ∧ c < wf.tasksNum ∧ ReflTransGen (Dependent wf.tasks) p c

theorem ancestor_of_isChildOf {fuel : Nat} (h : isChildOf wf i fuel p = true) : Ancestor wf p i := by
  induction fuel generalizing p with
  | zero => cases h
  | succ fuel ih =>
    rw [isChildOf] at h
    split at h
    · cases h
    · next hrange =>
      have hp : p < wf.tasksNum ∧ i < wf.tasksNum := by omega
      rcases Bool.or_eq_true_iff.mp h with he | hany
      · have he : p = i := by simpa using he
        subst he
        exact ⟨hp.1, hp.2, .refl⟩
      · obtain ⟨j, hj, hc⟩ := List.any_eq_true.mp hany
        exact ⟨hp.1, hp.2, .head hj (ih (Bool.and_eq_true_iff.mp hc).2).2.2⟩

theorem isChildOf_of_ancestor (hr : ∀ a, ∀ b ∈ (wf.tasks a).dependentsIndexes, b < wf.tasksNum)
    (hE : Acyclic (Dependent wf.tasks)) {rank : Nat → Nat} (hrank : ∀ a b, Dependent wf.tasks a b → rank b < rank a)
    {fuel : Nat} (hfuel : rank p < fuel) (h : Ancestor wf p i) : isChildOf wf i fuel p = true := by
  induction fuel generalizing p with
  | zero => exact absurd hfuel (Nat.not_lt_zero _)
  | succ fuel ih =>
    obtain ⟨hp, hi, hpath⟩ := h
    rw [isChildOf, if_neg (by omega)]
    rcases ReflTransGen.cases_head hpath with rfl | ⟨j, hj, hpath⟩
    · simp
    · have hchild := ih (p := j) (by have := hrank p j hj; omega) ⟨hr p j hj, hi, hpath⟩
      have hany : ((wf.tasks p).dependentsIndexes.any fun j => j ≠ p && isChildOf wf i fuel j) = true := by
        refine List.any_eq_true.mpr ⟨j, hj, ?_⟩
        rw [hchild, Bool.and_true, decide_eq_true_iff]
        exact (hE.ne hj).symm
      rw [hany, Bool.or_true]

theorem isChildOf_iff (hr : ∀ a, ∀ b ∈ (wf.tasks a).dependentsIndexes, b < wf.tasksNum)
    (hE : Acyclic (Dependent wf.tasks)) : isChildOf wf i (wf.tasksNum + 1) p = true ↔ Ancestor wf p i := by
  obtain ⟨rank, hle, hrank⟩ := hE.exists_rank hr
  exact ⟨ancestor_of_isChildOf, isChildOf_of_ancestor hr hE hrank (Nat.lt_succ_of_le (hle p))⟩

open Classical in
/-- What task `i` sees: the variables of its ancestors and the global ones. -/
noncomputable def lineage (wf : Workflow) (i : Nat) (ncores nhosts : Int) : Scope :=
  { wf.scope i ncores nhosts with isChildOf := fun caller => decide (Ancestor wf caller.toNat i) }

theorem scope_eq_lineage (hr : ∀ a, ∀ b ∈ (wf.tasks a).dependentsIndexes, b < wf.tasksNum)
    (hE : Acyclic (Dependent wf.tasks)) (ncores nhosts : Int) : wf.scope i ncores nhosts = lineage wf i ncores nhosts := by
  have hchild : (fun caller : Int => isChildOf wf i (wf.tasksNum + 1) caller.toNat) =
      (lineage wf i ncores nhosts).isChildOf := by
    funext caller
    rw [Bool.eq_iff_iff, isChildOf_iff hr hE]
    exact (@decide_eq_true_iff _ (Classical.propDecidable _)).symm
  exact congrArg (fun f => ({ wf.scope i ncores nhosts with isChildOf := f } : Scope)) hchild

/-- The substitution comes to what it should exactly if the text fits. -/
theorem substitute_bracketed_iff (hr : ∀ a, ∀ b ∈ (wf.tasks a).dependentsIndexes, b < wf.tasksNum)
    (hE : Acyclic (Dependent wf.tasks)) {ncores nhosts : Int} {skip : List Char} {ps : List Piece}
    (hp : Plain (wf.scope i ncores nhosts)) (hv : ∀ p ∈ ps, p.Valid) :
    Yields (wf.scope i ncores nhosts) skip { text := piecesText ps } (expected (lineage wf i ncores nhosts) skip ps) ↔
      Fitting (lineage wf i ncores nhosts) skip ps := by
  rw [scope_eq_lineage hr hE] at hp ⊢
  exact yields_expected_iff hp hv

end Lineage

theorem separated_of_all {name : List Char} (h : (name.all fun c => !separators.contains c) = true) :
    ∀ c ∈ name, c ∉ separators := by
  intro c hc hs
  have hall := List.all_eq_true.mp h c hc
  rw [List.contains_iff_mem.mpr hs] at hall
  cases hall

/-- A workflow of one task and one global variable. -/
def single : Workflow where
  tasks _ := { arguments := [⟨"file", some "a.nc", []⟩] }
  tasksNum := 1
  residualTasksNum := 1
  vars key := if key = "counter" then some { caller := -1, svalue := "x", ivalue := 2 } else none

theorem single_acyclic : (∀ a, ∀ b ∈ (single.tasks a).dependentsIndexes, b < single.tasksNum) ∧
    Acyclic (Dependent single.tasks) := by
  constructor
  · intro a b h
    cases h
  · apply acyclic_of_acc
    intro u v h
    cases h

theorem single_plain : Plain (single.scope 0 1 1) where
  taskVars key v h := by cases h
  vars key v h := by
    change (if key = "counter" then _ else none) = some v at h
    split at h
    · cases h
      decide
    · cases h
  arguments a ha v h := by
    obtain rfl := List.mem_singleton.mp ha
    cases h
    decide

/-- A name without a meaning, the variable and the argument. -/
def threeNames : List Piece := [.value ['y'], .value "counter".toList, .index "FILE".toList]

theorem substitute_bracketed_three : Fitting (lineage single 0 1 1) "in".toList threeNames ∧
    Yields (single.scope 0 1 1) "in".toList { text := "@{y}@{counter}&{FILE}".toList } (.ok "@{y}x0".toList) := by
  have hy : Yields (single.scope 0 1 1) "in".toList { text := "@{y}@{counter}&{FILE}".toList } (.ok "@{y}x0".toList) :=
    ⟨4, by decide +kernel⟩
  have hv : ∀ p ∈ threeNames, p.Valid := by
    rintro p (_ | ⟨_, _ | ⟨_, _ | ⟨_, h⟩⟩⟩)
    · exact ⟨List.cons_ne_nil _ _, separated_of_all rfl⟩
    · exact ⟨List.cons_ne_nil _ _, separated_of_all rfl⟩
    · exact ⟨List.cons_ne_nil _ _, separated_of_all rfl⟩
    · cases h
  have hexpected : expected (lineage single 0 1 1) "in".toList threeNames = .ok "@{y}x0".toList := by
    rw [← scope_eq_lineage single_acyclic.1 single_acyclic.2]
    decide +kernel
  refine ⟨(substitute_bracketed_iff single_acyclic.1 single_acyclic.2 single_plain hv).mp ?_, hy⟩
  rw [hexpected]
  exact hy

/-- The number is shorter than the reference it replaces, and the last `@` stood behind it. -/
def shrinking : List Piece := [.index "counter".toList, .value ['y']]

theorem not_yields_shrinking : (∀ p ∈ shrinking, p.Valid) ∧ Plain (single.scope 0 1 1) ∧
    Acyclic (Dependent single.tasks) ∧
    expected (lineage single 0 1 1) "in".toList shrinking = .ok "2@{y}".toList ∧
    ¬Yields (single.scope 0 1 1) "in".toList { text := piecesText shrinking }
      (expected (lineage single 0 1 1) "in".toList shrinking) := by
  have hexpected : expected (lineage single 0 1 1) "in".toList shrinking = .ok "2@{y}".toList := by
    rw [← scope_eq_lineage single_acyclic.1 single_acyclic.2]
    decide +kernel
  refine ⟨?_, single_plain, single_acyclic.2, hexpected, ?_⟩
  · rintro p (_ | ⟨_, _ | ⟨_, h⟩⟩)
    · exact ⟨List.cons_ne_nil _ _, separated_of_all rfl⟩
    · exact ⟨List.cons_ne_nil _ _, separated_of_all rfl⟩
    · cases h
  · intro hy
    rw [hexpected] at hy
    have hu : Yields (single.scope 0 1 1) "in".toList { text := piecesText shrinking } (.error .undefined) :=
      ⟨2, by decide +kernel⟩
    cases hy.unique hu

end OphidiaWorkflow.Bracketed
