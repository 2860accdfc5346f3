import Mathlib.Data.Finite.Defs
import Mathlib.Data.Finset.Card
import Mathlib.Data.Finset.Range
import Mathlib.Data.Set.Finite.Basic
import Mathlib.Logic.Relation
import Mathlib.Order.WellFounded

/-! Cycles of a relation, and when a finite piece of it has none. -/
namespace OphidiaWorkflow.Lib

variable {V : Type*} {E : V → V → Prop}

/-- No vertex reaches itself by one step or more. -/
def Acyclic (E : V → V → Prop) : Prop := ∀ v, ¬ Relation.TransGen E v v

theorem Acyclic.ne (h : Acyclic E) {u v : V} (huv : E u v) : u ≠ v := by
  rintro rfl
  exact h u (.single huv)

theorem not_transGen_of_acc {v : V} (h : Acc E v) : ¬ Relation.TransGen E v v := by
  have ht := h.transGen
  clear h
  induction ht with
  | intro v _ ih => exact fun hv => ih v hv hv

theorem acyclic_of_acc (h : ∀ u v, E u v → Acc E v) : Acyclic E := by
  intro v hv
  obtain ⟨u, _, huv⟩ := (Relation.TransGen.tail'_iff).mp hv
  exact not_transGen_of_acc (h u v huv) hv

/-- Where every vertex has one predecessor at most, what two successors of a vertex both reach tells that they are the
same. -/
theorem Acyclic.eq_of_reaches (h : Acyclic E) (hE : ∀ {u v w}, E u w → E v w → u = v) {u a b v : V} (ha : E u a)
    (hb : E u b) (hav : Relation.ReflTransGen E a v) (hbv : Relation.ReflTransGen E b v) : a = b := by
  -- from one to the other there is no step, since the last one comes from their predecessor
  have key {a b : V} (ha : E u a) (hb : E u b) (hab : Relation.ReflTransGen E a b) : a = b := by
    rcases Relation.ReflTransGen.cases_tail hab with he | ⟨w, haw, hw⟩
    · exact he.symm
    · cases hE hw hb
      exact absurd (Relation.TransGen.head' ha haw) (h _)
  have htotal := Relation.ReflTransGen.total_of_right_unique (r := Function.swap E) (fun _ _ _ => hE)
    (Relation.reflTransGen_swap.mpr hav) (Relation.reflTransGen_swap.mpr hbv)
  rcases htotal with hab | hba
  · exact (key hb ha (Relation.reflTransGen_swap.mp hab)).symm
  · exact key ha hb (Relation.reflTransGen_swap.mp hba)

/-- A nonempty finite set in which every vertex has a predecessor contains a cycle. -/
theorem Acyclic.exists_source {s : Set V} (hE : Acyclic E) (hs : s.Finite) (hne : s.Nonempty) :
    ∃ v ∈ s, ∀ u ∈ s, ¬ E u v := by
  have : Finite s := hs
  have wf : WellFounded fun u v : s => Relation.TransGen E u.1 v.1 :=
    have : IsTrans s fun u v : s => Relation.TransGen E u.1 v.1 := ⟨fun _ _ _ => Relation.TransGen.trans⟩
    have : Std.Irrefl fun u v : s => Relation.TransGen E u.1 v.1 := ⟨fun v => hE v⟩
    Finite.wellFounded_of_trans_of_irrefl _
  obtain ⟨v₀, hv₀⟩ := hne
  obtain ⟨v, -, hv⟩ := wf.has_min Set.univ ⟨⟨v₀, hv₀⟩, trivial⟩
  exact ⟨v, v.2, fun u hu huv => hv ⟨u, hu⟩ trivial (.single huv)⟩

/-- The vertices of a finite graph without cycles are ranked by how many others they reach. -/
theorem Acyclic.exists_rank {E : Nat → Nat → Prop} (hE : Acyclic E) {n : Nat} (hn : ∀ a b, E a b → b < n) :
    ∃ rank : Nat → Nat, (∀ a, rank a ≤ n) ∧ ∀ a b, E a b → rank b < rank a := by
  classical
  refine ⟨fun a => ((Finset.range n).filter fun b => Relation.TransGen E a b).card, fun a => ?_, fun a b hab => ?_⟩
  · calc _ ≤ (Finset.range n).card := Finset.card_filter_le _ _
      _ = n := Finset.card_range n
  · apply Finset.card_lt_card
    refine Finset.ssubset_iff_of_subset (fun c hc => ?_) |>.mpr ⟨b, ?_, fun hb => ?_⟩
    · rw [Finset.mem_filter] at hc ⊢
      exact ⟨hc.1, .head hab hc.2⟩
    · exact Finset.mem_filter.mpr ⟨Finset.mem_range.mpr (hn a b hab), .single hab⟩
    · exact hE b (Finset.mem_filter.mp hb).2

end OphidiaWorkflow.Lib
