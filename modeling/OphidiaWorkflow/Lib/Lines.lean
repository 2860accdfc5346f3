import Mathlib.Data.List.Basic

/-! Reading a file line by line into a buffer, the way `fgets` does. -/
namespace OphidiaWorkflow.Lib

variable {l s rest : List Char} {n : Nat}

/-- At most `n` characters, up to the end of the line, and what comes after them. -/
def readLine : Nat → List Char → List Char × List Char
  | 0, s => ([], s)
  | _ + 1, [] => ([], [])
  | n + 1, c :: s => if c = '\n' then (['\n'], s) else ((readLine n s).map (c :: ·) id)

/-- `fgets` with a buffer of `size` characters; `none` at the end of the file. -/
def fgets (size : Nat) (s : List Char) : Option (List Char × List Char) :=
  if s = [] then none else some (readLine (size - 1) s)

/-- A line that fits into the buffer with its end is read whole. -/
theorem readLine_append (h : '\n' ∉ l) (hn : l.length < n) (rest : List Char) :
    readLine n (l ++ '\n' :: rest) = (l ++ ['\n'], rest) := by
  induction l generalizing n with
  | nil =>
    cases n with
    | zero => cases hn
    | succ n => rfl
  | cons c l ih =>
    cases n with
    | zero => cases hn
    | succ n =>
      have hc : c ≠ '\n' := fun he => h (he ▸ List.mem_cons_self)
      rw [List.cons_append, readLine, if_neg hc, ih (List.not_mem_of_not_mem_cons h) (Nat.lt_of_succ_lt_succ hn)]
      rfl

theorem fgets_append (h : '\n' ∉ l) (hn : l.length + 1 < n) (rest : List Char) :
    fgets n (l ++ '\n' :: rest) = some (l ++ ['\n'], rest) := by
  rw [fgets, if_neg (by simp), readLine_append h (by omega)]

end OphidiaWorkflow.Lib
