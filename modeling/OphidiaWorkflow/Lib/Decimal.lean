import Mathlib.Algebra.Ring.Int.Defs
import Mathlib.Algebra.Ring.Nat
import Mathlib.Data.Int.Basic
import Mathlib.Data.List.TakeWhile

/-! Decimal numbers as C prints and reads them: the format `%d`, and `strtol` in base 10 stored into an `int`. -/
namespace OphidiaWorkflow.Lib

/-- `%d` -/
def decimal : Int → List Char
  | .ofNat n => Nat.toDigits 10 n
  | .negSucc n => '-' :: Nat.toDigits 10 (n + 1)

/-- `isspace` -/
def isSpace (c : Char) : Bool := c = ' ' || (9 ≤ c.toNat && c.toNat ≤ 13)

/-- The largest and the smallest `long`. -/
def longMax : Int := 2 ^ 63 - 1
def longMin : Int := -2 ^ 63

/-- The number at the start of a text, `0` if there is none; `strtol` answers the nearest `long`. -/
def strtol (s : List Char) : Int :=
  let s := s.dropWhile isSpace
  match s with
  | '-' :: s => max longMin (-(Nat.ofDigitChars 10 (s.takeWhile Char.isDigit) 0 : Int))
  | '+' :: s => min longMax (Nat.ofDigitChars 10 (s.takeWhile Char.isDigit) 0)
  | s => min longMax (Nat.ofDigitChars 10 (s.takeWhile Char.isDigit) 0)

/-- A `long` stored into an `int` keeps its 32 lower bits. -/
def toInt32 (n : Int) : Int := n.bmod (2 ^ 32)

/-- `(int) strtol(s, NULL, 10)`, also `atoi`. -/
def readInt (s : List Char) : Int := toInt32 (strtol s)

theorem isDigit_or_of_mem_decimal {c : Char} {n : Int} (h : c ∈ decimal n) : c.isDigit = true ∨ c = '-' := by
  cases n with
  | ofNat n => exact .inl (Nat.isDigit_of_mem_toDigits (by decide) (by decide) h)
  | negSucc n =>
    rcases List.mem_cons.mp h with rfl | h
    · exact .inr rfl
    · exact .inl (Nat.isDigit_of_mem_toDigits (by decide) (by decide) h)

theorem not_mem_decimal {c : Char} (n : Int) (h : c.isDigit = false) (hc : c ≠ '-') : c ∉ decimal n := by
  intro hm
  rcases isDigit_or_of_mem_decimal hm with hd | hd
  · rw [h] at hd
    cases hd
  · exact hc hd

theorem decimal_ne_nil (n : Int) : decimal n ≠ [] := by
  cases n with
  | ofNat n => exact Nat.toDigits_ne_nil
  | negSucc n => exact List.cons_ne_nil _ _

theorem decimal_injective : Function.Injective decimal := by
  have hdigits {n m : Nat} (h : Nat.toDigits 10 n = Nat.toDigits 10 m) : n = m := by
    rw [← Nat.ofDigitChars_toDigits (b := 10) (n := n) (by decide) (by decide), h,
      Nat.ofDigitChars_toDigits (by decide) (by decide)]
  have hminus {n m : Nat} (h : Nat.toDigits 10 n = '-' :: Nat.toDigits 10 m) : False := by
    have hmem : '-' ∈ Nat.toDigits 10 n := h ▸ List.mem_cons_self
    exact absurd (Nat.isDigit_of_mem_toDigits (by decide) (by decide) hmem) (by decide)
  intro n m h
  cases n with
  | ofNat n =>
    cases m with
    | ofNat m => exact congrArg Int.ofNat (hdigits h)
    | negSucc m => exact (hminus h).elim
  | negSucc n =>
    cases m with
    | ofNat m => exact (hminus h.symm).elim
    | negSucc m => exact congrArg Int.negSucc (Nat.succ.inj (hdigits (List.cons.inj h).2))

theorem length_decimal_le {n : Int} {k : Nat} (h0 : 0 ≤ n) (hk : 0 < k) (h : n < 10 ^ k) : (decimal n).length ≤ k := by
  obtain ⟨m, rfl⟩ := Int.eq_ofNat_of_zero_le h0
  exact (Nat.length_toDigits_le_iff (by decide) hk).mpr (by exact_mod_cast h)

theorem toInt32_eq_self_iff {n : Int} : toInt32 n = n ↔ -2147483648 ≤ n ∧ n < 2147483648 := by
  rw [toInt32, Int.bmod]
  split <;> omega

theorem toInt32_toInt32 (n : Int) : toInt32 (toInt32 n) = toInt32 n := Int.bmod_bmod

theorem length_decimal_int32 {n : Int} (h : toInt32 n = n) : (decimal n).length ≤ 11 := by
  obtain ⟨hlow, hhigh⟩ := toInt32_eq_self_iff.mp h
  cases n with
  | ofNat n => exact (length_decimal_le (k := 11) (Int.natCast_nonneg n) (by decide) (Int.lt_trans hhigh (by decide)))
  | negSucc n =>
    have hdigits : (Nat.toDigits 10 (n + 1)).length ≤ 10 :=
      (Nat.length_toDigits_le_iff (by decide) (by decide)).mpr (by omega)
    exact Nat.succ_le_succ hdigits

theorem takeWhile_isDigit_toDigits (n : Nat) : (Nat.toDigits 10 n).takeWhile Char.isDigit = Nat.toDigits 10 n :=
  List.takeWhile_eq_self_iff.mpr fun _ hc => Nat.isDigit_of_mem_toDigits (by decide) (by decide) hc

theorem dropWhile_isSpace_decimal (n : Int) : (decimal n).dropWhile isSpace = decimal n := by
  cases hd : decimal n with
  | nil => rfl
  | cons c cs =>
    have hmem : c ∈ decimal n := hd ▸ List.mem_cons_self
    have hspace : isSpace c = false := by
      rcases isDigit_or_of_mem_decimal hmem with hdigit | rfl
      · have hlow : 48 ≤ c.toNat := (Char.isDigit_iff_toNat.mp hdigit).1
        unfold isSpace
        simp only [Bool.or_eq_false_iff, decide_eq_false_iff_not, Bool.and_eq_false_iff]
        refine ⟨?_, by omega⟩
        rintro rfl
        exact absurd hdigit (by decide)
      · rfl
    exact List.dropWhile_cons_of_neg (by simp [hspace])

theorem strtol_decimal {n : Int} (h : longMin ≤ n) (h' : n ≤ longMax) : strtol (decimal n) = n := by
  unfold strtol
  rw [dropWhile_isSpace_decimal]
  cases n with
  | ofNat n =>
    obtain ⟨c, cs, hc⟩ := List.exists_cons_of_ne_nil (@Nat.toDigits_ne_nil n 10)
    have hd : c.isDigit = true := Nat.isDigit_of_mem_toDigits (by decide) (by decide) (hc ▸ List.mem_cons_self)
    show (match Nat.toDigits 10 n with | '-' :: s => _ | '+' :: s => _ | s => _) = _
    split
    · next s hs =>
      cases hc.symm.trans hs
      exact absurd hd (by decide)
    · next s hs =>
      cases hc.symm.trans hs
      exact absurd hd (by decide)
    · rw [takeWhile_isDigit_toDigits, Nat.ofDigitChars_ten_toDigits]
      exact Int.min_eq_right h'
  | negSucc n =>
    show max longMin (-((Nat.ofDigitChars 10 ((Nat.toDigits 10 (n + 1)).takeWhile Char.isDigit) 0 : Nat) : Int)) = _
    rw [takeWhile_isDigit_toDigits, Nat.ofDigitChars_ten_toDigits]
    exact Int.max_eq_right h

theorem takeWhile_append_cons {α : Type*} {p : α → Bool} {c : α} (hc : p c = false) (s t : List α) :
    (s ++ c :: t).takeWhile p = s.takeWhile p := by
  rw [List.takeWhile_append, List.takeWhile_cons_of_neg (by simp [hc]), List.append_nil]
  split
  · next h => rw [(List.takeWhile_prefix p).eq_of_length h]
  · rfl

/-- A number ends before a character that is not a digit. -/
theorem strtol_append_cons {c : Char} (hc : c.isDigit = false) {s : List Char} (hs : s.dropWhile isSpace ≠ [])
    (t : List Char) : strtol (s ++ c :: t) = strtol s := by
  obtain ⟨x, xs, hx⟩ := List.exists_cons_of_ne_nil hs
  have hdrop : (s ++ c :: t).dropWhile isSpace = x :: (xs ++ c :: t) := by
    rw [List.dropWhile_append, hx]
    rfl
  unfold strtol
  rw [hdrop, hx]
  dsimp only
  split
  · next u hu =>
    obtain ⟨rfl, rfl⟩ := List.cons.inj hu
    exact congrArg (fun d => max longMin (-(Nat.ofDigitChars 10 d 0 : Int))) (takeWhile_append_cons hc xs t)
  · next u hu =>
    obtain ⟨rfl, rfl⟩ := List.cons.inj hu
    exact congrArg (fun d => min longMax (Nat.ofDigitChars 10 d 0 : Int)) (takeWhile_append_cons hc xs t)
  · next hminus hplus =>
    have htake := takeWhile_append_cons hc (x :: xs) t
    split
    · next u hu =>
      obtain ⟨rfl, rfl⟩ := List.cons.inj hu
      exact (hminus _ rfl).elim
    · next u hu =>
      obtain ⟨rfl, rfl⟩ := List.cons.inj hu
      exact (hplus _ rfl).elim
    · exact congrArg (fun d => min longMax (Nat.ofDigitChars 10 d 0 : Int)) htake

theorem strtol_decimal_int32 {n : Int} (h : toInt32 n = n) : strtol (decimal n) = n := by
  obtain ⟨hlow, hhigh⟩ := toInt32_eq_self_iff.mp h
  exact strtol_decimal (by unfold longMin; omega) (by unfold longMax; omega)

theorem readInt_decimal {n : Int} (h : toInt32 n = n) : readInt (decimal n) = n := by
  rw [readInt, strtol_decimal_int32 h, h]

theorem toInt32_readInt (s : List Char) : toInt32 (readInt s) = readInt s := Int.bmod_bmod

end OphidiaWorkflow.Lib
