import Mathlib.Data.List.Basic

/-!
`_oph_workflow_skip_comments`: the comments of a request are dropped before it is parsed.

A quote opens or closes a value unless the character before it is a backslash, even if that backslash is escaped itself.
-/
namespace OphidiaWorkflow

/-- `flag`: in the code, after a `/`, in a comment, after a `*` in a comment, in a comment up to the end of the line. -/
inductive Flag
  | code | slash | block | star | line
  deriving DecidableEq, Repr

/-- `flag < 2` -/
def Flag.prints : Flag → Bool
  | code | slash => true
  | _ => false

/-- The flag after a character outside of the values. -/
def Flag.next : Flag → Char → Flag
  | code, '/' => slash
  | slash, '/' => line
  | star, '/' => code
  | slash, '*' => block
  | block, '*' => star
  | star, '*' => block
  | line, '\n' => code
  | slash, _ => code
  | star, _ => block
  | f, _ => f

/-- The result after a character outside of the values, its last character first. -/
def Flag.emit (f : Flag) (c : Char) (result : List Char) : List Char :=
  match f, c with
  | star, '/' => result
  | block, '\n' => '\n' :: result
  -- the `/` that opens the comment was printed
  | slash, '/' => result.tail
  | slash, '*' => result.tail
  | f, c => if (f.next c).prints then c :: result else result

/-- The variables of the loop; `prev` is the character before the current one. -/
structure Stripper where
  invalue : Bool := false
  flag : Flag := .code
  prev : Option Char := none
  result : List Char := []
  deriving DecidableEq, Repr

/-- `invalue` after the character. -/
def Stripper.toggled (st : Stripper) (c : Char) : Bool :=
  if c = '"' ∧ st.prev ≠ some '\\' then !st.invalue else st.invalue

/-- One round of the loop. -/
def Stripper.step (st : Stripper) (c : Char) : Stripper :=
  if st.toggled c then
    { invalue := true, flag := st.flag, prev := some c,
      result := if st.flag.prints then c :: st.result else st.result }
  else { invalue := false, flag := st.flag.next c, prev := some c, result := st.flag.emit c st.result }

/-- `_oph_workflow_skip_comments`; a comment that is not closed is an error. -/
def skipComments (s : List Char) : Option (List Char) :=
  let st := s.foldl Stripper.step {}
  if st.flag = .code then some st.result.reverse else none

/-- A text that is copied as it is, wherever it stands outside of the values and not after a backslash. -/
structure Clean (s : List Char) : Prop where
  last : s.getLast? ≠ some '\\'
  copied : ∀ prev result, prev ≠ some '\\' → s.foldl Stripper.step ⟨false, .code, prev, result⟩ =
    ⟨false, .code, s.getLast?.or prev, s.reverse ++ result⟩

variable {s t : List Char} {prev : Option Char}

theorem skipComments_of_clean (h : Clean s) : skipComments s = some s := by
  have hs := h.copied none [] (by simp)
  unfold skipComments
  rw [hs, if_pos rfl, List.append_nil, List.reverse_reverse]

theorem clean_nil : Clean [] := ⟨by simp, fun _ _ _ => rfl⟩

theorem Clean.append (hs : Clean s) (ht : Clean t) : Clean (s ++ t) := by
  constructor
  · rw [List.getLast?_append]
    cases h : t.getLast? with
    | none => exact hs.last
    | some c => exact fun hc => ht.last (h.trans hc)
  · intro prev result hp
    have hlast : s.getLast?.or prev ≠ some '\\' := by
      cases h : s.getLast? with
      | none => exact hp
      | some c => exact fun hc => hs.last (h.trans hc)
    rw [List.foldl_append, hs.copied prev result hp, ht.copied _ _ hlast, List.getLast?_append, Option.or_assoc,
      List.reverse_append, List.append_assoc]

/-- Characters that the loop only copies outside of the values. -/
def quiet (c : Char) : Bool := c ≠ '"' && c ≠ '\\' && c ≠ '/'

theorem next_code {c : Char} (h : c ≠ '/') : Flag.code.next c = .code := by
  unfold Flag.next
  split <;> simp_all

theorem emit_code {c : Char} (h : c ≠ '/') (result : List Char) : Flag.code.emit c result = c :: result := by
  show (if (Flag.code.next c).prints then c :: result else result) = c :: result
  rw [next_code h]
  rfl

theorem clean_singleton {c : Char} (h : quiet c = true) : Clean [c] := by
  unfold quiet at h
  simp only [Bool.and_eq_true, decide_eq_true_iff, ne_eq] at h
  obtain ⟨⟨hquote, hback⟩, hslash⟩ := h
  constructor
  · rintro ⟨⟩
    exact hback rfl
  · intro prev result _
    have ht : Stripper.toggled ⟨false, .code, prev, result⟩ c = false := if_neg fun hc => hquote hc.1
    show Stripper.step _ c = _
    rw [Stripper.step, ht]
    simp only [Bool.false_eq_true, if_false, next_code hslash, emit_code hslash]
    rfl

theorem clean_of_quiet (h : ∀ c ∈ s, quiet c = true) : Clean s := by
  induction s with
  | nil => exact clean_nil
  | cons c s ih =>
    exact (clean_singleton (h c List.mem_cons_self)).append (ih fun d hd => h d (List.mem_cons_of_mem _ hd))

/-- Every quote of the text stands after a backslash. -/
def Guarded : Option Char → List Char → Prop
  | _, [] => True
  | prev, c :: s => (c = '"' → prev = some '\\') ∧ Guarded (some c) s

theorem guarded_of_not_mem (h : '"' ∉ s) : Guarded prev s := by
  induction s generalizing prev with
  | nil => trivial
  | cons c s ih =>
    constructor
    · rintro rfl
      exact absurd List.mem_cons_self h
    · exact ih fun hs => h (List.mem_cons_of_mem _ hs)

theorem Guarded.append (hs : Guarded prev s) (ht : ∀ p, Guarded p t) : Guarded prev (s ++ t) := by
  induction s generalizing prev with
  | nil => exact ht prev
  | cons c s ih => exact ⟨hs.1, ih hs.2⟩

theorem foldl_step_of_guarded (h : Guarded prev s) (result : List Char) :
    s.foldl Stripper.step ⟨true, .code, prev, result⟩ = ⟨true, .code, s.getLast?.or prev, s.reverse ++ result⟩ := by
  induction s generalizing prev result with
  | nil => rfl
  | cons c s ih =>
    have hstep : Stripper.step ⟨true, .code, prev, result⟩ c = ⟨true, .code, some c, c :: result⟩ := by
      have ht : Stripper.toggled ⟨true, .code, prev, result⟩ c = true := if_neg fun hc => hc.2 (h.1 hc.1)
      rw [Stripper.step, ht]
      rfl
    rw [List.foldl_cons, hstep, ih h.2, List.getLast?_cons, List.reverse_cons, List.append_assoc]
    cases s.getLast? <;> rfl

/-- A value in quotes is copied, unless its last character is a backslash: then its closing quote is not seen. -/
theorem clean_quoted (h : Guarded (some '"') s) (hl : s.getLast? ≠ some '\\') : Clean ('"' :: (s ++ ['"'])) := by
  have hend : ('"' :: (s ++ ['"'])).getLast? = some '"' := by
    rw [← List.cons_append, List.getLast?_append]
    rfl
  constructor
  · rw [hend]
    simp
  · intro prev result hp
    have hopen : Stripper.step ⟨false, .code, prev, result⟩ '"' = ⟨true, .code, some '"', '"' :: result⟩ := by
      have ht : Stripper.toggled ⟨false, .code, prev, result⟩ '"' = true := if_pos ⟨rfl, hp⟩
      rw [Stripper.step, ht]
      rfl
    have hlast : s.getLast?.or (some '"') ≠ some '\\' := by
      cases hs : s.getLast? with
      | none => simp
      | some c => exact fun hc => hl (hs.trans hc)
    have hclose (result : List Char) :
        Stripper.step ⟨true, .code, s.getLast?.or (some '"'), result⟩ '"' = ⟨false, .code, some '"', '"' :: result⟩ := by
      have ht : Stripper.toggled ⟨true, .code, s.getLast?.or (some '"'), result⟩ '"' = false := if_pos ⟨rfl, hlast⟩
      rw [Stripper.step, ht]
      rfl
    rw [List.foldl_cons, hopen, List.foldl_append, foldl_step_of_guarded h, List.foldl_cons, hclose, List.foldl_nil,
      hend]
    simp

end OphidiaWorkflow
