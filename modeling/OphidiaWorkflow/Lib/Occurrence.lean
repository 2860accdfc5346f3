import Mathlib.Data.List.Infix

/-! The first occurrence of a text in another one, the way `strstr` finds it. -/
namespace OphidiaWorkflow.Lib

variable {α : Type*} [DecidableEq α] {p s a b : List α} {c : α}

/-- What is left of a text from the first occurrence of `p` on. -/
def occurrence (p : List α) : List α → Option (List α)
  | [] => if p <+: [] then some [] else none
  | x :: s => if p <+: x :: s then some (x :: s) else occurrence p s

theorem occurrence_of_pos (h : p <+: s) : occurrence p s = some s := by
  cases s with
  | nil => exact if_pos h
  | cons x s => exact if_pos h

theorem occurrence_cons_of_neg {x : α} (h : ¬p <+: x :: s) : occurrence p (x :: s) = occurrence p s := if_neg h

theorem occurrence_eq_none_iff : occurrence p s = none ↔ ¬p <:+: s := by
  induction s with
  | nil => simp [occurrence]
  | cons x s ih =>
    rw [List.infix_cons_iff, not_or, ← ih]
    by_cases h : p <+: x :: s
    · simp [occurrence_of_pos h, h]
    · simp [occurrence_cons_of_neg h, h]

theorem suffix_of_occurrence {r : List α} (h : occurrence p s = some r) : r <:+ s := by
  induction s with
  | nil =>
    obtain ⟨-, rfl⟩ : _ ∧ [] = r := by simpa [occurrence] using h
    exact List.suffix_refl _
  | cons x s ih =>
    by_cases hp : p <+: x :: s
    · rw [occurrence_of_pos hp] at h
      exact Option.some.inj h ▸ List.suffix_refl _
    · rw [occurrence_cons_of_neg hp] at h
      exact (ih h).trans (List.suffix_cons x s)

theorem exists_occurrence (h : p <:+: s) : ∃ r, occurrence p s = some r ∧ r <:+ s := by
  cases hr : occurrence p s with
  | none => exact absurd h (occurrence_eq_none_iff.mp hr)
  | some r => exact ⟨r, rfl, suffix_of_occurrence hr⟩

theorem occurrence_append_left (h : p <:+: a) (b : List α) : occurrence p (a ++ b) = (occurrence p a).map (· ++ b) := by
  induction a with
  | nil =>
    obtain rfl := List.infix_nil.mp h
    rw [occurrence_of_pos List.nil_prefix, occurrence_of_pos List.nil_prefix, Option.map_some]
  | cons x a ih =>
    by_cases hp : p <+: x :: a
    · rw [occurrence_of_pos (hp.trans (List.prefix_append _ b)), occurrence_of_pos hp, Option.map_some]
    · have hi : p <:+: a := (List.infix_cons_iff.mp h).resolve_left hp
      have hp' : ¬p <+: x :: (a ++ b) := by
        -- there is room for an occurrence in `a`, so that one that starts here ends in `a` too
        intro hpb
        have hl := hi.length_le
        exact hp (List.prefix_of_prefix_length_le hpb (List.prefix_append (x :: a) b) (Nat.le_succ_of_le hl))
      rw [List.cons_append, occurrence_cons_of_neg hp', occurrence_cons_of_neg hp]
      exact ih hi

theorem occurrence_append_self (h : ¬p <:+: a ++ p.dropLast) : occurrence p (a ++ p) = some p := by
  induction a with
  | nil => exact occurrence_of_pos (List.prefix_refl p)
  | cons x a ih =>
    have hp : p ≠ [] := by
      rintro rfl
      exact h (List.nil_infix)
    have hshort : ¬p <+: x :: (a ++ p) := by
      intro hpre
      have hcut : x :: (a ++ p.dropLast) <+: x :: (a ++ p) :=
        List.cons_prefix_cons.mpr ⟨rfl, (List.prefix_append_right_inj a).mpr (List.dropLast_prefix p)⟩
      have hlen : p.length ≤ (x :: (a ++ p.dropLast)).length := by
        rw [List.length_cons, List.length_append, List.length_dropLast]
        omega
      exact h (List.prefix_of_prefix_length_le hpre hcut hlen).isInfix
    rw [List.cons_append, occurrence_cons_of_neg hshort]
    exact ih fun hin => h (hin.trans (List.suffix_cons x _).isInfix)

omit [DecidableEq α] in
theorem prefix_of_prefix_append_cons (hc : c ∉ p) (h : p <+: a ++ c :: b) : p <+: a := by
  have hac : a ++ [c] <+: a ++ c :: b :=
    (List.prefix_append_right_inj a).mpr (List.cons_prefix_cons.mpr ⟨rfl, List.nil_prefix⟩)
  rcases List.prefix_or_prefix_of_prefix h hac with hp | hp
  · rcases List.prefix_concat_iff.mp hp with rfl | hp
    · exact absurd (List.mem_append_right a List.mem_cons_self) hc
    · exact hp
  · exact absurd (hp.subset (List.mem_append_right a List.mem_cons_self)) hc

theorem occurrence_append_cons (hp : p ≠ []) (hc : c ∉ p) (h : ¬p <:+: a) (b : List α) :
    occurrence p (a ++ c :: b) = occurrence p b := by
  induction a with
  | nil =>
    apply occurrence_cons_of_neg
    intro hpc
    obtain ⟨x, p, rfl⟩ := List.exists_cons_of_ne_nil hp
    obtain ⟨rfl, -⟩ := List.cons_prefix_cons.mp hpc
    exact hc List.mem_cons_self
  | cons x a ih =>
    rw [List.infix_cons_iff, not_or] at h
    rw [List.cons_append, occurrence_cons_of_neg, ih h.2]
    exact fun hpc => h.1 (prefix_of_prefix_append_cons hc hpc)

end OphidiaWorkflow.Lib
