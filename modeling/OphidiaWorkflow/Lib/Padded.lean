import Mathlib.Data.Char
import Mathlib.Data.List.Lex
import Mathlib.Order.Lattice
import OphidiaWorkflow.Lib.Decimal

/-!
Texts of a fixed width. Numbers that are padded with zeros to the same width compare as texts the way they compare as
numbers, and so do lists of them that are written one after the other.
-/
namespace OphidiaWorkflow.Lib

/-- `%0<width>d` -/
def zeroPadded (width : Nat) : Int → List Char
  | .ofNat n => (Nat.toDigits 10 n).leftpad width '0'
  | .negSucc n => '-' :: (Nat.toDigits 10 (n + 1)).leftpad (width - 1) '0'

/-- The number at the start of a text, `0` if there is none. -/
def leadingNumber (s : List Char) : Int :=
  match s.dropWhile isSpace with
  | '-' :: s => -(Nat.ofDigitChars 10 (s.takeWhile Char.isDigit) 0 : Int)
  | '+' :: s => Nat.ofDigitChars 10 (s.takeWhile Char.isDigit) 0
  | s => Nat.ofDigitChars 10 (s.takeWhile Char.isDigit) 0

section Lists

variable {α β : Type*}

theorem append_lt_append_iff [LinearOrder α] {s t : List α} (h : s.length = t.length) (u v : List α) :
    s ++ u < t ++ v ↔ s < t ∨ s = t ∧ u < v := by
  induction s generalizing t with
  | nil =>
    obtain rfl := List.length_eq_zero_iff.mp h.symm
    simp
  | cons a s ih =>
    obtain ⟨b, t, rfl⟩ := List.exists_cons_of_length_eq_add_one h.symm
    rw [List.cons_append, List.cons_append, List.cons_lt_cons_iff, List.cons_lt_cons_iff, ih (Nat.succ.inj h),
      List.cons.injEq]
    tauto

/-- An order-preserving code of a fixed width preserves the order of lists of one length. -/
theorem flatMap_lt_flatMap_iff [LinearOrder α] [LinearOrder β] {f : α → List β} {P : α → Prop} {n : Nat}
    (hlen : ∀ a, P a → (f a).length = n) (hlt : ∀ a b, P a → P b → (f a < f b ↔ a < b)) {u v : List α}
    (huv : u.length = v.length) (hu : ∀ a ∈ u, P a) (hv : ∀ a ∈ v, P a) : u.flatMap f < v.flatMap f ↔ u < v := by
  induction u generalizing v with
  | nil =>
    obtain rfl := List.length_eq_zero_iff.mp huv.symm
    simp
  | cons a u ih =>
    obtain ⟨b, v, rfl⟩ := List.exists_cons_of_length_eq_add_one huv.symm
    obtain ⟨ha, hu⟩ := List.forall_mem_cons.mp hu
    obtain ⟨hb, hv⟩ := List.forall_mem_cons.mp hv
    have heq : f a = f b ↔ a = b := by
      refine ⟨fun h => ?_, congrArg f⟩
      rcases lt_trichotomy a b with hab | hab | hab
      · exact absurd ((hlt a b ha hb).mpr hab) (h ▸ lt_irrefl _)
      · exact hab
      · exact absurd ((hlt b a hb ha).mpr hab) (h ▸ lt_irrefl _)
    rw [List.flatMap_cons, List.flatMap_cons, append_lt_append_iff ((hlen a ha).trans (hlen b hb).symm),
      hlt a b ha hb, heq, ih (Nat.succ.inj huv) hu hv, List.cons_lt_cons_iff]

/-- The order of lists in which entries that are missing at the end are zero. -/
def Below [Zero α] [LT α] (v w : List α) : Prop :=
  v.rightpad (max v.length w.length) 0 < w.rightpad (max v.length w.length) 0

instance [Zero α] [DecidableEq α] [LT α] [DecidableLT α] (v w : List α) : Decidable (Below v w) :=
  inferInstanceAs (Decidable (_ < _))

theorem not_below_self [Zero α] [LinearOrder α] (v : List α) : ¬ Below v v := lt_irrefl _

theorem rightpad_rightpad {n m : Nat} (h : n ≤ m) (a : α) (v : List α) :
    (v.rightpad n a).rightpad m a = v.rightpad m a := by
  unfold List.rightpad
  rw [List.append_assoc, List.length_append, List.length_replicate, List.replicate_append_replicate]
  congr 2
  omega

theorem rightpad_lt_rightpad_iff [Zero α] [LinearOrder α] {n : Nat} {v w : List α} (hv : v.length ≤ n)
    (hw : w.length ≤ n) : v.rightpad n 0 < w.rightpad n 0 ↔ Below v w := by
  have hlength {u : List α} (hu : u.length ≤ max v.length w.length) :
      (u.rightpad (max v.length w.length) 0).length = max v.length w.length := by
    rw [List.length_rightpad]
    exact max_eq_left hu
  have hmax : max v.length w.length ≤ n := max_le hv hw
  have hv' := hlength (le_max_left v.length w.length)
  have hw' := hlength (le_max_right v.length w.length)
  rw [← rightpad_rightpad hmax 0 v, ← rightpad_rightpad hmax 0 w, List.rightpad.eq_1 n, List.rightpad.eq_1 n, hv', hw',
    append_lt_append_iff (hv'.trans hw'.symm), or_iff_left fun h => lt_irrefl _ h.2]
  rfl

end Lists

section Digits

variable {s t : List Char}

theorem ofDigitChars_lt_of_lt (hlen : s.length = t.length) (hs : ∀ c ∈ s, c.isDigit) (ht : ∀ c ∈ t, c.isDigit)
    {a b : Nat} (h : a < b) : Nat.ofDigitChars 10 s a < Nat.ofDigitChars 10 t b := by
  induction s generalizing t a b with
  | nil =>
    obtain rfl := List.length_eq_zero_iff.mp hlen.symm
    exact h
  | cons c s ih =>
    obtain ⟨d, t, rfl⟩ := List.exists_cons_of_length_eq_add_one hlen.symm
    obtain ⟨hc, hs⟩ := List.forall_mem_cons.mp hs
    obtain ⟨-, ht⟩ := List.forall_mem_cons.mp ht
    have hle : c.toNat ≤ 57 := (Char.isDigit_iff_toNat.mp hc).2
    rw [Nat.ofDigitChars_cons, Nat.ofDigitChars_cons]
    refine ih (Nat.succ.inj hlen) hs ht ?_
    have hzero : '0'.toNat = 48 := rfl
    omega

/-- Digits of the same number compare as the numbers that they are. -/
theorem lt_iff_ofDigitChars_lt (hlen : s.length = t.length) (hs : ∀ c ∈ s, c.isDigit) (ht : ∀ c ∈ t, c.isDigit)
    (a : Nat) : s < t ↔ Nat.ofDigitChars 10 s a < Nat.ofDigitChars 10 t a := by
  induction s generalizing t a with
  | nil =>
    obtain rfl := List.length_eq_zero_iff.mp hlen.symm
    simp
  | cons c s ih =>
    obtain ⟨d, t, rfl⟩ := List.exists_cons_of_length_eq_add_one hlen.symm
    obtain ⟨hc, hs⟩ := List.forall_mem_cons.mp hs
    obtain ⟨hd, ht'⟩ := List.forall_mem_cons.mp ht
    have hlen' : s.length = t.length := Nat.succ.inj hlen
    have hc' := Char.isDigit_iff_toNat.mp hc
    have hd' := Char.isDigit_iff_toNat.mp hd
    have hzero : '0'.toNat = 48 := rfl
    rw [List.cons_lt_cons_iff, Nat.ofDigitChars_cons, Nat.ofDigitChars_cons]
    rcases lt_trichotomy c d with hcd | rfl | hcd
    · -- the first digits that differ decide, whatever follows
      have hnat : c.toNat < d.toNat := hcd
      exact iff_of_true (.inl hcd) (ofDigitChars_lt_of_lt hlen' hs ht' (by omega))
    · rw [or_iff_right (lt_irrefl c), and_iff_right rfl]
      exact ih hlen' hs ht' _
    · have hnat : d.toNat < c.toNat := hcd
      refine iff_of_false ?_ (lt_asymm (ofDigitChars_lt_of_lt hlen'.symm ht' hs (by omega)))
      rintro (h | ⟨rfl, -⟩)
      · exact lt_asymm h hcd
      · exact lt_irrefl _ hcd

theorem ofDigitChars_lt_pow (hs : ∀ c ∈ s, c.isDigit) : Nat.ofDigitChars 10 s 0 < 10 ^ s.length := by
  have h := ofDigitChars_lt_of_lt (t := List.replicate s.length '0') List.length_replicate.symm hs
    (fun c hc => by rw [List.eq_of_mem_replicate hc]; decide) Nat.zero_lt_one
  rwa [Nat.ofDigitChars_replicate_zero, Nat.mul_one] at h

theorem length_zeroPadded {width n : Nat} (hw : 0 < width) (hn : n < 10 ^ width) :
    (zeroPadded width n).length = width := by
  have hdigits : (Nat.toDigits 10 n).length ≤ width := (Nat.length_toDigits_le_iff (by decide) hw).mpr hn
  rw [show zeroPadded width n = (Nat.toDigits 10 n).leftpad width '0' from rfl, List.length_leftpad]
  exact max_eq_left hdigits

theorem zeroPadded_lt_zeroPadded_iff {width n m : Nat} (hw : 0 < width) (hn : n < 10 ^ width) (hm : m < 10 ^ width) :
    zeroPadded width n < zeroPadded width m ↔ n < m := by
  have hdigits (k : Nat) : ∀ c ∈ zeroPadded width k, c.isDigit := by
    intro c hc
    rcases List.mem_append.mp hc with hc | hc
    · rw [List.eq_of_mem_replicate hc]
      rfl
    · exact Nat.isDigit_of_mem_toDigits (by decide) (by decide) hc
  have hvalue (k : Nat) : Nat.ofDigitChars 10 (zeroPadded width k) 0 = k := by
    rw [show zeroPadded width k = List.replicate _ '0' ++ Nat.toDigits 10 k from rfl, Nat.ofDigitChars_append,
      Nat.ofDigitChars_replicate_zero, Nat.mul_zero, Nat.ofDigitChars_ten_toDigits]
  rw [lt_iff_ofDigitChars_lt ((length_zeroPadded hw hn).trans (length_zeroPadded hw hm).symm) (hdigits n) (hdigits m) 0,
    hvalue, hvalue]

theorem strtol_eq_leadingNumber (s : List Char) : strtol s = max longMin (min longMax (leadingNumber s)) := by
  have hmin (n : Nat) : min longMax (-(n : Int)) = -n := Int.min_eq_right (by unfold longMax; omega)
  have hmax (n : Nat) : max longMin (min longMax (n : Int)) = min longMax n :=
    Int.max_eq_right (by unfold longMin longMax; omega)
  unfold strtol leadingNumber
  dsimp only
  generalize s.dropWhile isSpace = u
  split
  · simp only [hmin]
  · simp only [hmax]
  · simp only [hmax]

theorem readInt_eq_leadingNumber (h : toInt32 (leadingNumber s) = leadingNumber s) : readInt s = leadingNumber s := by
  obtain ⟨hlow, hhigh⟩ := toInt32_eq_self_iff.mp h
  have hmin : min longMax (leadingNumber s) = leadingNumber s := Int.min_eq_right (by unfold longMax; omega)
  have hmax : max longMin (leadingNumber s) = leadingNumber s := Int.max_eq_right (by unfold longMin; omega)
  rw [readInt, strtol_eq_leadingNumber, hmin, hmax, h]

theorem leadingNumber_lt_pow (s : List Char) : leadingNumber s < 10 ^ s.length := by
  have hdigits {t : List Char} (ht : t.length ≤ s.length) :
      (Nat.ofDigitChars 10 (t.takeWhile Char.isDigit) 0 : Int) < 10 ^ s.length := by
    have hpow : Nat.ofDigitChars 10 (t.takeWhile Char.isDigit) 0 < 10 ^ s.length :=
      (ofDigitChars_lt_pow fun c hc => List.mem_takeWhile_imp hc).trans_le
        (Nat.pow_le_pow_right (by decide) ((List.takeWhile_prefix _).length_le.trans ht))
    exact_mod_cast hpow
  have hdrop : (s.dropWhile isSpace).length ≤ s.length := (List.dropWhile_suffix _).length_le
  unfold leadingNumber
  split
  · next t ht =>
    have hpos : (0 : Int) < 10 ^ s.length := Int.pow_pos (by decide)
    omega
  · next t ht =>
    rw [ht] at hdrop
    exact hdigits (Nat.le_of_succ_le hdrop)
  · exact hdigits hdrop

end Digits

end OphidiaWorkflow.Lib
