import Mathlib.Data.List.Sort

/-! Lists of pairs kept in the order of their keys: the order in which pairs with distinct keys come does not matter. -/
namespace OphidiaWorkflow.Lib

variable {α β : Type*} [LT α] [LE α] [DecidableLT α] [Std.IsLinearOrder α] [Std.LawfulOrderLT α]

/-- The pair is put before the first one with a greater key. -/
def insertPair (l : List (α × β)) (p : α × β) : List (α × β) := l.orderedInsert (fun p q => p.1 < q.1) p

omit [LE α] [Std.IsLinearOrder α] [Std.LawfulOrderLT α] in
theorem insertPair_perm (l : List (α × β)) (p : α × β) : (insertPair l p).Perm (p :: l) := List.perm_orderedInsert _ p l

theorem insertPair_pairwise {l : List (α × β)} (h : l.Pairwise fun p q => p.1 ≤ q.1) (p : α × β) :
    (insertPair l p).Pairwise fun p q => p.1 ≤ q.1 := by
  induction l with
  | nil => exact List.pairwise_singleton _ p
  | cons c l ih =>
    obtain ⟨hc, hl⟩ := List.pairwise_cons.mp h
    unfold insertPair
    rw [List.orderedInsert]
    split
    case isTrue hlt =>
      have hpc : p.1 ≤ c.1 := Std.le_of_lt hlt
      refine List.pairwise_cons.mpr ⟨fun q hq => ?_, h⟩
      rcases List.mem_cons.mp hq with rfl | hq
      · exact hpc
      · exact Std.le_trans hpc (hc q hq)
    case isFalse hlt =>
      refine List.pairwise_cons.mpr ⟨fun q hq => ?_, ih hl⟩
      rcases List.mem_cons.mp ((insertPair_perm l p).mem_iff.mp hq) with rfl | hq
      · exact Std.not_lt.mp hlt
      · exact hc q hq

/-- Pairs inserted one by one, in the order of the list. -/
def insertPairs (l ps : List (α × β)) : List (α × β) := ps.foldl insertPair l

theorem insertPairs_spec (ps : List (α × β)) {l : List (α × β)} (h : l.Pairwise fun p q => p.1 ≤ q.1) :
    (insertPairs l ps).Perm (ps ++ l) ∧ (insertPairs l ps).Pairwise fun p q => p.1 ≤ q.1 := by
  induction ps generalizing l with
  | nil => exact ⟨.refl l, h⟩
  | cons p ps ih =>
    obtain ⟨hperm, hsorted⟩ := ih (insertPair_pairwise h p)
    refine ⟨hperm.trans ?_, hsorted⟩
    exact ((insertPair_perm l p).append_left ps).trans List.perm_middle

omit [LT α] [DecidableLT α] [Std.LawfulOrderLT α] in
theorem eq_of_perm_of_pairwise {l l' : List (α × β)} (h : l.Perm l') (hk : (l'.map Prod.fst).Nodup)
    (hl : l.Pairwise fun p q => p.1 ≤ q.1) (hl' : l'.Pairwise fun p q => p.1 ≤ q.1) : l = l' := by
  refine h.eq_of_pairwise (fun p q hp hq hpq hqp => ?_) hl hl'
  exact List.inj_on_of_nodup_map hk (h.mem_iff.mp hp) hq (Std.le_antisymm hpq hqp)

/-- Pairs with distinct keys end up in the order of the keys, whatever the order they come in. -/
theorem insertPairs_eq_mergeSort {ps ps' : List (α × β)} [DecidableLE α] (h : ps.Perm ps')
    (hk : (ps'.map Prod.fst).Nodup) : insertPairs [] ps = ps'.mergeSort fun p q => decide (p.1 ≤ q.1) := by
  obtain ⟨hperm, hsorted⟩ := insertPairs_spec ps (l := []) List.Pairwise.nil
  rw [List.append_nil] at hperm
  have hmerge := List.mergeSort_perm ps' fun p q => decide (p.1 ≤ q.1)
  refine eq_of_perm_of_pairwise (hperm.trans (h.trans hmerge.symm)) ?_ hsorted ?_
  · exact (hmerge.map Prod.fst).nodup_iff.mpr hk
  · refine (List.pairwise_mergeSort (fun p q r hpq hqr => ?_) (fun p q => ?_) ps').imp of_decide_eq_true
    · exact decide_eq_true (Std.le_trans (of_decide_eq_true hpq) (of_decide_eq_true hqr))
    · rw [Bool.or_eq_true]
      exact (Std.Total.total p.1 q.1).imp decide_eq_true decide_eq_true

end OphidiaWorkflow.Lib
