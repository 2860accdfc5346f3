import OphidiaWorkflow.Setup.Validate

/-!
The reserved characters of `oph_workflow_validate`: what is rejected when an argument is checked alone, and what after
the others.

`bracket_on` is not reset between two values.
-/
namespace OphidiaWorkflow.Reserved

open Lib

/-! ## Texts -/

section Texts

variable {b d : Nat} {s t : List Char}

/-- `bracket_on` after a character that is not rejected. -/
def depthStep (b : Nat) (c : Char) : Nat := if c = '[' then b + 1 else if c = ']' then b - 1 else b

def depth (b : Nat) (s : List Char) : Nat := s.foldl depthStep b

/-- A `;` stands outside of the brackets, `b` of which are open before the text. -/
def Exposed (b : Nat) (s : List Char) : Prop := ∃ t u, s = t ++ ';' :: u ∧ depth b t = 0

theorem depthStep_mono (h : b ≤ d) (c : Char) : depthStep b c ≤ depthStep d c := by
  unfold depthStep
  split
  · exact Nat.succ_le_succ h
  · split
    · exact Nat.sub_le_sub_right h 1
    · exact h

theorem depth_mono (h : b ≤ d) (s : List Char) : depth b s ≤ depth d s := by
  induction s generalizing b d with
  | nil => exact h
  | cons c s ih => exact ih (depthStep_mono h c)

theorem Exposed.of_le (h : b ≤ d) (he : Exposed d s) : Exposed b s := by
  obtain ⟨t, u, rfl, hd⟩ := he
  exact ⟨t, u, rfl, Nat.le_zero.mp (hd ▸ depth_mono h t)⟩

theorem not_exposed_nil (b : Nat) : ¬ Exposed b [] := by
  rintro ⟨t, u, h, -⟩
  cases t <;> cases h

theorem exposed_cons_iff (b : Nat) (c : Char) (s : List Char) :
    Exposed b (c :: s) ↔ (c = ';' ∧ b = 0) ∨ Exposed (depthStep b c) s := by
  constructor
  · rintro ⟨t, u, h, hd⟩
    cases t with
    | nil =>
      cases h
      exact .inl ⟨rfl, hd⟩
    | cons _ t =>
      cases h
      exact .inr ⟨t, u, rfl, hd⟩
  · rintro (⟨rfl, hb⟩ | ⟨t, u, rfl, hd⟩)
    · exact ⟨[], s, rfl, hb⟩
    · exact ⟨c :: t, u, rfl, hd⟩

theorem exposed_append_iff (b : Nat) (s t : List Char) :
    Exposed b (s ++ t) ↔ Exposed b s ∨ Exposed (depth b s) t := by
  induction s generalizing b with
  | nil =>
    rw [List.nil_append, or_iff_right (not_exposed_nil b)]
    rfl
  | cons c s ih =>
    rw [List.cons_append, exposed_cons_iff, exposed_cons_iff, ih, or_assoc]
    rfl

theorem scanValue_eq_some_iff : scanValue b s = some d ↔ ¬ Exposed b s ∧ d = depth b s := by
  induction s generalizing b with
  | nil =>
    rw [scanValue, Option.some.injEq, eq_comm, and_iff_right (not_exposed_nil b)]
    rfl
  | cons c s ih =>
    rw [scanValue, exposed_cons_iff, not_or, and_assoc]
    show _ ↔ _ ∧ _ ∧ d = depth (depthStep b c) s
    split
    · next hc =>
      have hsemi : ¬ (c = ';' ∧ b = 0) := fun h => by cases hc.symm.trans h.1
      rw [ih, depthStep, if_pos hc, and_iff_right hsemi]
    · next hc =>
      split
      · next hb =>
        have hsemi : ¬ (c = ';' ∧ b = 0) := fun h => hb.1 h.2
        rw [ih, depthStep, if_neg hc, if_pos hb.2, and_iff_right hsemi]
      · next hb =>
        split
        · next h => exact iff_of_false nofun fun hn => hn.1 ⟨h.2, h.1⟩
        · next h =>
          have hstep : depthStep b c = b := by
            rw [depthStep, if_neg hc]
            split
            · next hclose =>
              -- a closing bracket at depth 0
              rw [Classical.not_not.mp fun h0 => hb ⟨h0, hclose⟩]
            · rfl
          have hsemi : ¬ (c = ';' ∧ b = 0) := fun hn => h ⟨hn.2, hn.1⟩
          rw [ih, hstep, and_iff_right hsemi]

end Texts

/-! ## Arguments -/

/-- The key has none of the separators. -/
def GoodKey (a : Argument) : Prop := ';' ∉ a.key.toList ∧ '=' ∉ a.key.toList

def text (a : Argument) : List Char := (a.value.getD "").toList

def texts (as : List Argument) : List Char := as.flatMap text

theorem scanArgument_eq_some_iff {b d : Nat} {a : Argument} :
    scanArgument b a = some d ↔ GoodKey a ∧ ¬ Exposed b (text a) ∧ d = depth b (text a) := by
  unfold scanArgument
  split
  · next h => exact iff_of_false nofun fun hn => h.elim hn.1.1 hn.1.2
  · next h =>
    rw [scanValue_eq_some_iff, and_iff_right (show GoodKey a from not_or.mp h)]
    rfl

theorem foldlM_scanArgument_isSome_iff (as : List Argument) (b : Nat) :
    (as.foldlM scanArgument b).isSome = true ↔ (∀ a ∈ as, GoodKey a) ∧ ¬ Exposed b (texts as) := by
  induction as generalizing b with
  | nil => exact iff_of_true rfl ⟨fun _ h => absurd h List.not_mem_nil, not_exposed_nil b⟩
  | cons a as ih =>
    rw [List.foldlM_cons, List.forall_mem_cons, texts, List.flatMap_cons, exposed_append_iff, not_or]
    cases h : scanArgument b a with
    | none =>
      refine iff_of_false nofun fun hn => ?_
      rw [scanArgument_eq_some_iff.mpr ⟨hn.1.1, hn.2.1, rfl⟩] at h
      cases h
    | some d =>
      obtain ⟨hkey, hb, rfl⟩ := scanArgument_eq_some_iff.mp h
      refine (ih _).trans ?_
      rw [and_iff_right hkey, and_iff_right hb]
      rfl

/-! ## Workflows -/

section Workflows

variable (wf : Workflow)

/-- The arguments of the workflow, in the order in which they are checked. -/
def arguments : List Argument := (List.range wf.tasksNum).flatMap fun i => (wf.tasks i).arguments

/-- The check of one argument, as if there were no other. -/
def AcceptedAlone (a : Argument) : Prop := (scanArgument 0 a).isSome = true

/-- A workflow is accepted if and only if each argument is, taken alone. -/
def JudgedAlone : Prop :=
  noReservedChars wf.tasks wf.tasksNum = true ↔ ∀ i < wf.tasksNum, ∀ a ∈ (wf.tasks i).arguments, AcceptedAlone a

theorem noReservedChars_iff :
    noReservedChars wf.tasks wf.tasksNum = true ↔ (∀ a ∈ arguments wf, GoodKey a) ∧ ¬ Exposed 0 (texts (arguments wf)) := by
  rw [← foldlM_scanArgument_isSome_iff, arguments, foldlM_flatMap]
  rfl

theorem acceptedAlone_iff (a : Argument) : AcceptedAlone a ↔ GoodKey a ∧ ¬ Exposed 0 (text a) := by
  have h := foldlM_scanArgument_isSome_iff [a] 0
  rw [List.forall_mem_singleton, texts, List.flatMap_cons, List.flatMap_nil, List.append_nil, List.foldlM_cons] at h
  refine Iff.trans ?_ h
  rw [AcceptedAlone]
  cases scanArgument 0 a <;> rfl

theorem forall_arguments_iff {p : Argument → Prop} :
    (∀ i < wf.tasksNum, ∀ a ∈ (wf.tasks i).arguments, p a) ↔ ∀ a ∈ arguments wf, p a := by
  simp only [arguments, List.forall_mem_flatMap, List.mem_range]

theorem exists_exposed_of_texts {as : List Argument} {b : Nat} (h : Exposed b (texts as)) :
    ∃ a ∈ as, Exposed 0 (text a) := by
  induction as generalizing b with
  | nil => exact absurd h (not_exposed_nil b)
  | cons a as ih =>
    rw [texts, List.flatMap_cons, exposed_append_iff] at h
    rcases h with h | h
    · exact ⟨a, List.mem_cons_self, h.of_le (Nat.zero_le b)⟩
    · obtain ⟨a', ha', h⟩ := ih h
      exact ⟨a', List.mem_cons_of_mem _ ha', h⟩

/--
Where values have a `;` outside of their own brackets, one of these is not inside of the brackets that the values before
have left open either, unless a key is rejected.
-/
def NotHidden : Prop :=
  (∃ a ∈ arguments wf, Exposed 0 (text a)) → (∃ a ∈ arguments wf, ¬ GoodKey a) ∨ Exposed 0 (texts (arguments wf))

theorem judgedAlone_iff : JudgedAlone wf ↔ NotHidden wf := by
  have halone : (∀ i < wf.tasksNum, ∀ a ∈ (wf.tasks i).arguments, AcceptedAlone a) ↔
      (∀ a ∈ arguments wf, GoodKey a) ∧ ¬ ∃ a ∈ arguments wf, Exposed 0 (text a) := by
    rw [forall_arguments_iff]
    simp only [acceptedAlone_iff, not_exists, not_and]
    exact forall₂_and
  rw [JudgedAlone, noReservedChars_iff, halone, NotHidden]
  constructor
  · intro h hex
    by_contra hn
    rw [not_or] at hn
    have hkey : ∀ a ∈ arguments wf, GoodKey a := by
      intro a ha
      by_contra hbad
      exact hn.1 ⟨a, ha, hbad⟩
    exact (h.mp ⟨hkey, hn.2⟩).2 hex
  · intro h
    constructor
    · rintro ⟨hkey, hn⟩
      refine ⟨hkey, fun hex => ?_⟩
      rcases h hex with ⟨a, ha, hbad⟩ | he
      · exact hbad (hkey a ha)
      · exact hn he
    · rintro ⟨hkey, hn⟩
      exact ⟨hkey, fun he => hn (exists_exposed_of_texts he)⟩

end Workflows

/-! ## An open bracket -/

/-- The first value has a bracket without its end. -/
def openBracket : Workflow where
  tasks := fun _ => { arguments := [{ key := "a", value := some "[" }, { key := "b", value := some ";" }] }
  tasksNum := 1
  residualTasksNum := 1

theorem not_judgedAlone_openBracket : ¬ ∀ wf : Workflow, JudgedAlone wf := by
  intro h
  have hb := (h openBracket).mp (by decide +kernel) 0 Nat.one_pos { key := "b", value := some ";" } (by decide)
  exact absurd hb (by unfold AcceptedAlone; decide +kernel)

end OphidiaWorkflow.Reserved
