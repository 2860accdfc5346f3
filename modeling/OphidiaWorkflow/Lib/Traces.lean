import Mathlib.Data.List.Infix
import Mathlib.Data.List.TakeWhile

/-! Traces, latest entry first: how often an event occurs between two boundaries. -/
namespace OphidiaWorkflow.Lib

variable {α : Type*} {b p : α → Bool} {l t : List α} {a : α}

/-- Number of the entries `p` after the last boundary `b`. -/
def countSince (b p : α → Bool) (l : List α) : Nat := (l.takeWhile fun x => !b x).countP p

/-- At most one entry `p` occurs between two boundaries `b`. -/
def OnceBetween (b p : α → Bool) (l : List α) : Prop := ∀ t ∈ l.tails, countSince b p t ≤ 1

instance : Decidable (OnceBetween b p l) := inferInstanceAs (Decidable (∀ t ∈ l.tails, countSince b p t ≤ 1))

theorem countSince_cons_boundary (h : b a = true) : countSince b p (a :: l) = 0 := by
  simp [countSince, h]

theorem countSince_cons (h : b a = false) : countSince b p (a :: l) = countSince b p l + if p a then 1 else 0 := by
  simp [countSince, h, List.countP_cons]

theorem countSince_append (h : ∀ x ∈ l, b x = false ∧ p x = false) : countSince b p (l ++ t) = countSince b p t := by
  induction l with
  | nil => rfl
  | cons a l ih =>
    obtain ⟨hb, hp⟩ := h a List.mem_cons_self
    rw [List.cons_append, countSince_cons hb, hp, ih fun x hx => h x (List.mem_cons_of_mem _ hx)]
    rfl

theorem OnceBetween.nil : OnceBetween b p [] := by
  intro t ht
  simp only [List.tails, List.mem_singleton] at ht
  simp [ht, countSince]

theorem OnceBetween.cons (h : OnceBetween b p l) (ha : countSince b p (a :: l) ≤ 1) : OnceBetween b p (a :: l) := by
  intro t ht
  rw [List.tails_cons] at ht
  rcases List.mem_cons.mp ht with rfl | ht
  · exact ha
  · exact h t ht

theorem OnceBetween.append (h : OnceBetween b p t) (hl : ∀ x ∈ l, b x = false ∧ p x = false) :
    OnceBetween b p (l ++ t) := by
  induction l with
  | nil => exact h
  | cons a l ih =>
    have hl' : ∀ x ∈ l, b x = false ∧ p x = false := fun x hx => hl x (List.mem_cons_of_mem _ hx)
    refine (ih hl').cons ?_
    rw [← List.cons_append, countSince_append hl]
    exact h t ((List.mem_tails _ _).mpr (List.suffix_refl t))

end OphidiaWorkflow.Lib
