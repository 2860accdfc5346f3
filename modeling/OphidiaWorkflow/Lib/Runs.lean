import Mathlib.Data.List.Basic

/-! Runs of a deterministic system: a list of events, each handled by the step function. -/
namespace OphidiaWorkflow.Lib

variable {σ ε : Type*} {step : σ → ε → σ} {P Q : σ → ε → Prop} {s : σ} {es : List ε}

/-- Each event of the run meets `P` in the state it is handled in. -/
def Along (step : σ → ε → σ) (P : σ → ε → Prop) : σ → List ε → Prop
  | _, [] => True
  | s, e :: es => P s e ∧ Along step P (step s e) es

instance Along.decidable [∀ s e, Decidable (P s e)] : ∀ s es, Decidable (Along step P s es)
  | _, [] => .isTrue trivial
  | s, e :: es => @instDecidableAnd _ _ _ (Along.decidable (step s e) es)

theorem Along.run_induct (I : σ → Prop) (h0 : I s) (hs : ∀ s e, I s → P s e → I (step s e))
    (h : Along step P s es) : I (es.foldl step s) := by
  induction es generalizing s with
  | nil => exact h0
  | cons e es ih =>
    obtain ⟨he, h⟩ := h
    exact ih (hs s e h0 he) h

/-- What an invariant implies of each step holds of all the steps of a run. -/
theorem Along.of_induct (I : σ → Prop) (h0 : I s) (hs : ∀ s e, I s → P s e → I (step s e))
    (hQ : ∀ s e, I s → P s e → Q s e) (h : Along step P s es) : Along step Q s es := by
  induction es generalizing s with
  | nil => trivial
  | cons e es ih =>
    obtain ⟨he, h⟩ := h
    exact ⟨hQ s e h0 he, ih (hs s e h0 he) h⟩

/-- An invariant that a step keeps exactly if it meets `P` holds all along the runs whose steps meet `P`. -/
theorem along_iff_of_prefixes (I : σ → Prop) (h0 : I s) (hs : ∀ s e, I s → (I (step s e) ↔ P s e)) :
    (∀ es', es' <+: es → I (es'.foldl step s)) ↔ Along step P s es := by
  induction es generalizing s with
  | nil =>
    refine ⟨fun _ => trivial, fun _ es' hes => ?_⟩
    rw [List.prefix_nil.mp hes]
    exact h0
  | cons e es ih =>
    constructor
    · intro hall
      have hfirst : I (step s e) := hall [e] ⟨es, rfl⟩
      refine ⟨(hs s e h0).mp hfirst, (ih hfirst).mp fun es' hes => ?_⟩
      exact hall (e :: es') (List.cons_prefix_cons.mpr ⟨rfl, hes⟩)
    · rintro ⟨he, halong⟩ es' hes
      cases es' with
      | nil => exact h0
      | cons e' es' =>
        obtain ⟨rfl, htail⟩ := List.cons_prefix_cons.mp hes
        exact (ih ((hs s e' h0).mpr he)).mpr halong es' htail

/-- Some event of the run meets `P` in the state it is handled in. -/
def Sometime (step : σ → ε → σ) (P : σ → ε → Prop) : σ → List ε → Prop
  | _, [] => False
  | s, e :: es => P s e ∨ Sometime step P (step s e) es

theorem Along.append_iff {es' : List ε} :
    Along step P s (es ++ es') ↔ Along step P s es ∧ Along step P (es.foldl step s) es' := by
  induction es generalizing s with
  | nil => exact (and_iff_right trivial).symm
  | cons e es ih =>
    rw [List.cons_append, Along, Along, ih, and_assoc]
    rfl

theorem Along.and (h : Along step P s es) (h' : Along step Q s es) : Along step (fun s e => P s e ∧ Q s e) s es := by
  induction es generalizing s with
  | nil => trivial
  | cons e es ih => exact ⟨⟨h.1, h'.1⟩, ih h.2 h'.2⟩

/-- What is required of a part of the state can be followed on this part alone. -/
theorem along_map {τ : Type*} {step' : τ → ε → τ} {R : τ → ε → Prop} (f : σ → τ)
    (hf : ∀ s e, f (step s e) = step' (f s) e) : Along step' R (f s) es ↔ Along step (fun s e => R (f s) e) s es := by
  induction es generalizing s with
  | nil => exact Iff.rfl
  | cons e es ih => rw [Along, Along, ← hf, ih]

theorem along_not_iff : Along step (fun s e => ¬ P s e) s es ↔ ¬ Sometime step P s es := by
  induction es generalizing s with
  | nil => exact ⟨fun _ => id, fun _ => trivial⟩
  | cons e es ih => rw [Along, Sometime, ih, not_or]

end OphidiaWorkflow.Lib
