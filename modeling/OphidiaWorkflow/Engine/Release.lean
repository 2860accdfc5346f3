import OphidiaWorkflow.Engine.Jobs

/-!
The release of the dependents of a task that has completed: the two loops over the dependences are never left, each
dependence on the task is marked as satisfied and nothing else changes.
-/
namespace OphidiaWorkflow

/-- The fields of a task that tell of its jobs. -/
def Task.jobs (t : Task) :=
  (t.operator, t.status, t.idjob, t.outputs, t.lightTasks, t.lightTasksNum, t.residualLightTasksNum,
    t.dependentsIndexes)

/-- Dependences of the tasks of `D` are marked as satisfied. -/
structure Frees (D : List Nat) (wf wf' : Workflow) : Prop where
  jobs : ∀ k, (wf'.tasks k).jobs = (wf.tasks k).jobs
  engine : wf'.engine = wf.engine
  status : wf'.status = wf.status
  trace : wf'.trace = wf.trace
  deps : ∀ k, List.Forall₂ (fun d d' : Dep => d' = d ∨ d' = { d with taskIndex := -1 }) (wf.tasks k).deps
    (wf'.tasks k).deps
  arguments : ∀ k, (wf.tasks k).arguments ≠ [] → (wf'.tasks k).arguments ≠ []
  residual : ∀ k, k ∉ D → (wf'.tasks k).residualDepsNum = (wf.tasks k).residualDepsNum

namespace Frees

variable {D : List Nat} {wf wf' wf'' : Workflow}

theorem refl (D : List Nat) (wf : Workflow) : Frees D wf wf :=
  ⟨fun _ => rfl, rfl, rfl, rfl, fun _ => List.forall₂_same.mpr fun _ _ => .inl rfl, fun _ => id, fun _ _ => rfl⟩

theorem trans (h : Frees D wf wf') (h' : Frees D wf' wf'') : Frees D wf wf'' := by
  refine ⟨fun k => (h'.jobs k).trans (h.jobs k), h'.engine.trans h.engine, h'.status.trans h.status,
    h'.trace.trans h.trace, fun k => ?_, fun k hk => h'.arguments k (h.arguments k hk),
    fun k hk => (h'.residual k hk).trans (h.residual k hk)⟩
  have h₁ := List.forall₂_iff_get.mp (h.deps k)
  have h₂ := List.forall₂_iff_get.mp (h'.deps k)
  refine List.forall₂_iff_get.mpr ⟨h₁.1.trans h₂.1, fun j hj hj'' => ?_⟩
  have hj' : j < (wf'.tasks k).deps.length := h₁.1 ▸ hj
  rcases h₂.2 j hj' hj'' with e' | e'
  · rw [e']
    exact h₁.2 j hj hj'
  · right
    rw [e']
    rcases h₁.2 j hj hj' with e | e
    · rw [e]
    · rw [e]

theorem dep (h : Frees D wf wf') {k : Nat} {d' : Dep} (hd : d' ∈ (wf'.tasks k).deps) :
    ∃ d ∈ (wf.tasks k).deps, d' = d ∨ d' = { d with taskIndex := -1 } := by
  obtain ⟨j, hj', rfl⟩ := List.getElem_of_mem hd
  obtain ⟨hlen, hrel⟩ := List.forall₂_iff_get.mp (h.deps k)
  have hj : j < (wf.tasks k).deps.length := hlen ▸ hj'
  exact ⟨_, List.getElem_mem hj, hrel j hj hj'⟩

theorem ne_of_ne (h : Frees D wf wf') {k j a : Nat}
    (hd : ∀ d, (wf.tasks k).deps[j]? = some d → d.taskIndex ≠ (a : Int)) :
    ∀ d, (wf'.tasks k).deps[j]? = some d → d.taskIndex ≠ (a : Int) := by
  intro d' hd'
  obtain ⟨hj', rfl⟩ := List.getElem?_eq_some_iff.mp hd'
  obtain ⟨hlen, hrel⟩ := List.forall₂_iff_get.mp (h.deps k)
  have hj : j < (wf.tasks k).deps.length := hlen ▸ hj'
  rcases hrel j hj hj' with e | e
  · rw [List.get_eq_getElem, List.get_eq_getElem] at e
    rw [e]
    exact hd _ (List.getElem?_eq_getElem hj)
  · rw [List.get_eq_getElem] at e
    rw [e]
    simp only
    omega

end Frees

section Release

variable {w : AcceptedWorkflow} {src dst : Nat} {D : List Nat} {wf : Workflow}

/-- What the loops over the dependences on `src` keep: they are never left. -/
structure Freeing (w : AcceptedWorkflow) (src : Nat) (D : List Nat) (wf : Workflow) (st : DepLoop) : Prop where
  releasing : Releasing w src st.wf
  frees : Frees D wf st.wf
  failed : st.failed = false
  constraint : st.constraint = false

theorem addArgument_frees (hD : dst ∈ D) (key order object : String) :
    Frees D wf (wf.modify dst fun t => t.addArgument key order object) := by
  have hadd (t : Task) :
      (t.addArgument key order object).jobs = t.jobs ∧ (t.addArgument key order object).deps = t.deps ∧
        (t.arguments ≠ [] → (t.addArgument key order object).arguments ≠ []) := by
    unfold Task.addArgument
    split
    · exact ⟨rfl, rfl, fun _ => by simp⟩
    · exact ⟨rfl, rfl, fun h => by simpa using h⟩
  refine ⟨fun k => ?_, rfl, rfl, rfl, fun k => ?_, fun k hk => ?_, fun k hk => ?_⟩
  · rw [Workflow.modify_tasks]
    split
    · next h => rw [h, (hadd _).1]
    · rfl
  · rw [Workflow.modify_tasks]
    split
    · next h =>
      rw [h, (hadd _).2.1]
      exact List.forall₂_same.mpr fun _ _ => .inl rfl
    · exact List.forall₂_same.mpr fun _ _ => .inl rfl
  · rw [Workflow.modify_tasks]
    split
    · next h => exact (hadd _).2.2 (h ▸ hk)
    · exact hk
  · rw [Workflow.modify_tasks_ne _ _ fun h : k = dst => hk (h ▸ hD)]

theorem markDep_frees (hD : dst ∈ D) (j : Nat) : Frees D wf (wf.modify dst (Task.markDep j)) := by
  refine ⟨fun k => ?_, rfl, rfl, rfl, fun k => ?_, fun k hk => ?_, fun k hk => ?_⟩
  · rw [Workflow.modify_tasks]
    split
    · next h =>
      rw [h]
      rfl
    · rfl
  · rw [Workflow.modify_tasks]
    split
    · next h =>
      rw [h]
      refine List.forall₂_iff_get.mpr ⟨by simp [Task.markDep, Task.setTaskIndex], fun m h₁ h₂ => ?_⟩
      simp only [Task.markDep, Task.setTaskIndex, List.get_eq_getElem, List.getElem_modify]
      split
      · exact .inr rfl
      · exact .inl rfl
    · exact List.forall₂_same.mpr fun _ _ => .inl rfl
  · rw [Workflow.modify_tasks]
    split
    · next h => exact h ▸ hk
    · exact hk
  · rw [Workflow.modify_tasks_ne _ _ fun h : k = dst => hk (h ▸ hD)]

/-- Where no dependence is of type `single` and each task has arguments, none is refused. -/
theorem feedArgument_plain (src dst : Nat) {d : Dep} (ht : d.type ≠ .single) {st : DepLoop}
    (ha : (st.wf.tasks dst).arguments ≠ []) :
    feedArgument src dst d st = st ∨
    ∃ object, feedArgument src dst d st =
      { st with wf := st.wf.modify dst fun t => t.addArgument d.argument d.order object } := by
  have hno : violatesSingle st.wf src dst d = false := by simp [violatesSingle, ht]
  unfold feedArgument
  split
  · exact .inl rfl
  · split
    · exact .inl rfl
    · rw [hno, if_neg Bool.false_ne_true]
      exact .inr ⟨_, rfl⟩

theorem feedArgument_freeing {st : DepLoop} {d : Dep} (h : Freeing w src D wf st) (hD : dst ∈ D)
    (ht : d.type ≠ .single) (ha : (wf.tasks dst).arguments ≠ []) : Freeing w src D wf (feedArgument src dst d st) ∧
      Frees D st.wf (feedArgument src dst d st).wf ∧
      ((feedArgument src dst d st).wf.tasks dst).deps = (st.wf.tasks dst).deps := by
  have hl := @feedArgument_later src dst d st
  have hr : Releasing w src (feedArgument src dst d st).wf := h.releasing.later hl
  have hdeps := (hl.task dst).deps
  rcases feedArgument_plain src dst ht (h.frees.arguments dst ha) with he | ⟨object, he⟩
  · rw [he]
    exact ⟨h, .refl D st.wf, rfl⟩
  · rw [he] at hr hdeps ⊢
    have hadd := @addArgument_frees dst D st.wf hD d.argument d.order object
    exact ⟨⟨hr, h.frees.trans hadd, h.failed, h.constraint⟩, hadd, hdeps⟩

theorem satisfyDep_freeing {st : DepLoop} {j : Nat} (h : Freeing w src D wf st) (hD : dst ∈ D)
    (ht : ∀ k, ∀ d ∈ (wf.tasks k).deps, d.type ≠ .single) (ha : (wf.tasks dst).arguments ≠ [])
    (hj : j < (w.tasks dst).deps.length) :
    (satisfyDep src dst st j).2 = true ∧ Freeing w src D wf (satisfyDep src dst st j).1 ∧
      Frees D st.wf (satisfyDep src dst st j).1.wf ∧
      ∀ d, ((satisfyDep src dst st j).1.wf.tasks dst).deps[j]? = some d → d.taskIndex ≠ (src : Int) := by
  have hr := satisfyDep_releasing h.releasing hj
  have hlen : j < (st.wf.tasks dst).deps.length := (h.releasing.1.marked dst).length_eq ▸ hj
  have hget : (st.wf.tasks dst).deps.getD j default = (st.wf.tasks dst).deps[j] := by simp [hlen]
  have hsingle : (st.wf.tasks dst).deps[j].type ≠ .single := by
    obtain ⟨d, hd, he | he⟩ := h.frees.dep (List.getElem_mem hlen)
    · rw [he]
      exact ht dst d hd
    · rw [he]
      exact ht dst d hd
  unfold satisfyDep at hr ⊢
  rw [hget] at hr ⊢
  simp only at hr ⊢
  by_cases hsrc : (st.wf.tasks dst).deps[j].taskIndex ≠ (src : Int)
  · rw [if_pos hsrc]
    refine ⟨rfl, h, .refl D st.wf, fun d hd => ?_⟩
    rw [List.getElem?_eq_getElem hlen] at hd
    cases hd
    exact hsrc
  · rw [if_neg hsrc] at hr ⊢
    obtain ⟨hf, hstep, hdeps⟩ := feedArgument_freeing h hD hsingle ha
    generalize feedArgument src dst (st.wf.tasks dst).deps[j] st = st₁ at *
    have hlen₁ : j < (st₁.wf.tasks dst).deps.length := by rwa [hdeps]
    have hd : (st₁.wf.tasks dst).deps[j].taskIndex = (src : Int) := by simpa [hdeps] using hsrc
    have hpos : 0 < (st₁.wf.tasks dst).pendingDeps :=
      List.countP_pos_iff.mpr ⟨_, List.getElem_mem hlen₁, by simp [hd]⟩
    have hres := hf.releasing.1.residual dst
    have hfailed := hf.failed
    have hconstraint := hf.constraint
    simp only [hfailed, hconstraint, Bool.false_eq_true, ↓reduceIte, and_false] at hr ⊢
    rw [if_neg (by omega)] at hr ⊢
    have hmark := @markDep_frees dst D st₁.wf hD j
    refine ⟨rfl, ⟨hr, hf.frees.trans hmark, rfl, rfl⟩, hstep.trans hmark, fun d hd => ?_⟩
    rw [Workflow.modify_tasks_self, Task.markDep, Task.setTaskIndex, List.getElem?_modify_eq,
      List.getElem?_eq_getElem hlen₁] at hd
    cases hd
    simp only
    omega

theorem satisfyDeps_freeing {st : DepLoop} (h : Freeing w src D wf st) (hD : dst ∈ D)
    (ht : ∀ k, ∀ d ∈ (wf.tasks k).deps, d.type ≠ .single) (ha : ∀ k < wf.tasksNum, (wf.tasks k).arguments ≠ []) :
    (satisfyDeps src st dst).2 = true ∧ Freeing w src D wf (satisfyDeps src st dst).1 ∧
      Frees D st.wf (satisfyDeps src st dst).1.wf ∧
      (dst < wf.tasksNum → ∀ d ∈ ((satisfyDeps src st dst).1.wf.tasks dst).deps, d.taskIndex ≠ (src : Int)) := by
  have hn : st.wf.tasksNum = wf.tasksNum := congrArg Prod.fst h.frees.engine
  have hlen := (h.releasing.1.marked dst).length_eq
  unfold satisfyDeps
  split
  · next hlt =>
    have hfed := ha dst (hn ▸ hlt)
    have hall := Lib.foldWhile_visits (f := satisfyDep src dst)
      (l := List.range (st.wf.tasks dst).deps.length) (s := st)
      (fun st' => Freeing w src D wf st' ∧ Frees D st.wf st'.wf)
      (fun j st' => ∀ d, (st'.wf.tasks dst).deps[j]? = some d → d.taskIndex ≠ (src : Int)) ⟨h, .refl D st.wf⟩
      (fun j hj st' h' => ?_) (fun j m st' hm h' hq => ?_)
    · obtain ⟨⟨hI, hstep⟩, hQ⟩ := hall
      simp only [hI.failed, Bool.not_false]
      refine ⟨trivial, hI, hstep, fun _ d hd => ?_⟩
      obtain ⟨j, hj, rfl⟩ := List.getElem_of_mem hd
      have hj' := (List.forall₂_iff_get.mp (hstep.deps dst)).1
      exact hQ j (List.mem_range.mpr (hj' ▸ hj)) _ (List.getElem?_eq_getElem hj)
    · obtain ⟨hgo, hfr, hst, hq⟩ := satisfyDep_freeing h'.1 hD ht hfed (hlen ▸ List.mem_range.mp hj)
      exact ⟨hgo, ⟨hfr, h'.2.trans hst⟩, hq⟩
    · obtain ⟨-, -, hst, -⟩ := satisfyDep_freeing h'.1 hD ht hfed (hlen ▸ List.mem_range.mp hm)
      exact hst.ne_of_ne hq
  · next hlt => exact ⟨rfl, h, .refl D st.wf, fun hd => absurd (hn ▸ hd) hlt⟩

/-- No dependence on a completed task is left, and no other task is released. -/
theorem releaseDependents_freeing (h : Releasing w src wf) (ht : ∀ k, ∀ d ∈ (wf.tasks k).deps, d.type ≠ .single)
    (ha : ∀ k < wf.tasksNum, (wf.tasks k).arguments ≠ []) :
    Freeing w src (wf.tasks src).dependentsIndexes wf (releaseDependents wf src) ∧
      ∀ k ∈ (wf.tasks src).dependentsIndexes, k < wf.tasksNum →
        ∀ d ∈ ((releaseDependents wf src).wf.tasks k).deps, d.taskIndex ≠ (src : Int) := by
  unfold releaseDependents
  refine Lib.foldWhile_visits (f := satisfyDeps src)
    (Freeing w src (wf.tasks src).dependentsIndexes wf)
    (fun k st => k < wf.tasksNum → ∀ d ∈ (st.wf.tasks k).deps, d.taskIndex ≠ (src : Int))
    ⟨h, .refl _ wf, rfl, rfl⟩ (fun k hk st hst => ?_) fun k m st hm hst hq hk d' hd' => ?_
  · obtain ⟨hgo, hfr, -, hq⟩ := satisfyDeps_freeing hst hk ht ha
    exact ⟨hgo, hfr, hq⟩
  · obtain ⟨-, -, hstep, -⟩ := satisfyDeps_freeing hst hm ht ha
    obtain ⟨d, hd, he | he⟩ := hstep.dep hd'
    · rw [he]
      exact hq hk d hd
    · rw [he]
      simp only
      omega

end Release

end OphidiaWorkflow
