import OphidiaWorkflow.Lib.Loops

/-! Steps that may fail, and recursions where one of the failures says that the fuel is out. -/
namespace OphidiaWorkflow.Lib

universe u

variable {ε : Type*} {α β σ : Type u} {e : ε} {s s' : σ}

theorem eq_ok_of_toOption {x : Except ε α} {a : α} (h : x.toOption = some a) : x = .ok a := by
  cases x with
  | error e => cases h
  | ok b =>
    cases h
    rfl

/-- What every step keeps holds after the last one. -/
theorem foldlM_ok_induct {f : σ → β → Except ε σ} {l : List β} (P : σ → Prop) (h0 : P s)
    (hf : ∀ s b s', P s → f s b = .ok s' → P s') (h : l.foldlM f s = .ok s') : P s' := by
  induction l generalizing s with
  | nil =>
    cases h
    exact h0
  | cons b l ih =>
    rw [List.foldlM_cons] at h
    obtain ⟨t, ht, h⟩ := exists_of_bind_eq_ok h
    exact ih (hf s b t h0 ht) h

/-- A failure that no step has is not the one of all the steps. -/
theorem foldlM_ne_error {f : σ → β → Except ε σ} {l : List β} (P : σ → Prop) (h0 : P s)
    (hf : ∀ s b, P s → f s b ≠ .error e ∧ ∀ s', f s b = .ok s' → P s') : l.foldlM f s ≠ .error e := by
  induction l generalizing s with
  | nil => exact nofun
  | cons b l ih =>
    obtain ⟨hne, hok⟩ := hf s b h0
    rw [List.foldlM_cons]
    cases h : f s b with
    | error e' => exact fun he => hne (h.trans he)
    | ok s' => exact ih (hok s' h)

theorem bind_congr_of_ne_error {x : Except ε α} {f g : α → Except ε β} (h : x >>= f ≠ .error e)
    (hfg : ∀ a, x = .ok a → f a ≠ .error e → g a = f a) : x >>= g = x >>= f := by
  cases x with
  | error e => rfl
  | ok a => exact hfg a rfl h

/-- Steps that agree where the first one does not fail so. -/
theorem foldlM_congr_of_ne_error {f g : σ → β → Except ε σ} {l : List β}
    (hfg : ∀ s b, f s b ≠ .error e → g s b = f s b) (h : l.foldlM f s ≠ .error e) : l.foldlM g s = l.foldlM f s := by
  induction l generalizing s with
  | nil => rfl
  | cons b l ih =>
    rw [List.foldlM_cons] at h
    rw [List.foldlM_cons, List.foldlM_cons]
    have hb : f s b ≠ .error e := by
      intro he
      rw [he] at h
      exact h rfl
    rw [hfg s b hb]
    exact bind_congr_of_ne_error h fun s' _ h => ih h

end OphidiaWorkflow.Lib
