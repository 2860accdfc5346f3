import Mathlib.Data.List.Perm.Basic
import Mathlib.Order.Lattice

/-! Sorting by exchanges of neighbours: passes over a list that go on until one of them exchanges nothing. -/
namespace OphidiaWorkflow.Lib

variable {α κ : Type*} [LinearOrder κ] {f : α → κ} {l : List α}

/-- A pass that carries an element along the list, with the number of exchanges. -/
def pass (f : α → κ) (a : α) : List α → List α × Nat
  | [] => ([a], 0)
  | b :: l =>
    if f b < f a then (b :: (pass f a l).1, (pass f a l).2 + 1)
    else (a :: (pass f b l).1, (pass f b l).2)

theorem pass_cons_of_lt {a b : α} (h : f b < f a) (l : List α) :
    pass f a (b :: l) = (b :: (pass f a l).1, (pass f a l).2 + 1) := if_pos h

theorem pass_cons_of_not_lt {a b : α} (h : ¬ f b < f a) (l : List α) :
    pass f a (b :: l) = (a :: (pass f b l).1, (pass f b l).2) := if_neg h

/-- The pairs that stand in the wrong order. -/
def disorder (f : α → κ) : List α → Nat
  | [] => 0
  | a :: l => l.countP (fun b => f b < f a) + disorder f l

theorem pass_perm (f : α → κ) (a : α) (l : List α) : (pass f a l).1.Perm (a :: l) := by
  induction l generalizing a with
  | nil => exact .refl _
  | cons b l ih =>
    rw [pass]
    split
    · exact ((ih a).cons b).trans (.swap a b l)
    · exact (ih b).cons a

/-- Elements with the same key are never exchanged. -/
theorem filter_pass (f : α → κ) (a : α) (l : List α) (v : κ) :
    ((pass f a l).1.filter fun x => f x = v) = (a :: l).filter fun x => f x = v := by
  induction l generalizing a with
  | nil => rfl
  | cons b l ih =>
    rw [pass]
    split
    · next hlt =>
      rw [List.filter_cons, ih a]
      by_cases hb : f b = v
      · have ha : ¬ f a = v := fun ha => absurd (ha.trans hb.symm) (ne_of_gt hlt)
        simp [hb, ha]
      · simp [hb, List.filter_cons]
    · rw [List.filter_cons, ih b]
      simp only [List.filter_cons]

/-- Each exchange removes one pair in the wrong order. -/
theorem disorder_pass (f : α → κ) (a : α) (l : List α) :
    disorder f (pass f a l).1 + (pass f a l).2 = disorder f (a :: l) := by
  induction l generalizing a with
  | nil => rfl
  | cons b l ih =>
    rw [pass]
    split
    · next hlt =>
      have hrest := ih a
      have hcount : (pass f a l).1.countP (fun c => f c < f b) = l.countP fun c => f c < f b := by
        rw [(pass_perm f a l).countP_eq, List.countP_cons_of_neg (by simpa using le_of_lt hlt)]
      dsimp only [disorder] at hrest ⊢
      rw [hcount, List.countP_cons_of_pos (by simpa using hlt)]
      omega
    · next hlt =>
      have hrest := ih b
      dsimp only [disorder] at hrest ⊢
      rw [(pass_perm f b l).countP_eq]
      omega

/-- A pass that exchanges nothing has met the elements in order. -/
theorem pass_eq_zero (f : α → κ) (a : α) (l : List α) (h : (pass f a l).2 = 0) :
    (pass f a l).1 = a :: l ∧ (a :: l).Pairwise fun x y => f x ≤ f y := by
  induction l generalizing a with
  | nil => exact ⟨rfl, List.pairwise_singleton _ _⟩
  | cons b l ih =>
    by_cases hlt : f b < f a
    · rw [pass_cons_of_lt hlt] at h
      cases h
    · rw [pass_cons_of_not_lt hlt] at h ⊢
      obtain ⟨hsame, hrest⟩ := ih b h
      refine ⟨congrArg (a :: ·) hsame, List.pairwise_cons.mpr ⟨fun c hc => ?_, hrest⟩⟩
      rcases List.mem_cons.mp hc with rfl | hc
      · exact not_lt.mp hlt
      · exact le_trans (not_lt.mp hlt) ((List.pairwise_cons.mp hrest).1 c hc)

/-- A stable rearrangement into the order of the keys. -/
structure Sorts (f : α → κ) (l l' : List α) : Prop where
  perm : l'.Perm l
  sorted : l'.Pairwise fun x y => f x ≤ f y
  stable : ∀ v, (l'.filter fun x => f x = v) = l.filter fun x => f x = v

theorem Sorts.of_pass {a : α} {l' : List α} (h : Sorts f (pass f a l).1 l') : Sorts f (a :: l) l' :=
  ⟨h.perm.trans (pass_perm f a l), h.sorted, fun v => (h.stable v).trans (filter_pass f a l v)⟩

theorem Sorts.refl (h : l.Pairwise fun x y => f x ≤ f y) : Sorts f l l := ⟨.refl l, h, fun _ => rfl⟩

theorem Sorts.of_pass_eq_zero {a : α} (h : (pass f a l).2 = 0) : Sorts f (a :: l) (pass f a l).1 := by
  obtain ⟨hsame, hsorted⟩ := pass_eq_zero f a l h
  rw [hsame]
  exact .refl hsorted

end OphidiaWorkflow.Lib
