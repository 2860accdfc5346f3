import OphidiaWorkflow.Engine.Release

/-!
The state of a workflow whose jobs do not fail, and what one notification makes of it: the workflow is over, or each
task that may start from now on is handed over to be executed.
-/
namespace OphidiaWorkflow

/-! ## The invariant -/

namespace Task

variable {i : Nat} {trace trace' : List Entry} {done done' : Prop} {t t' : Task}

theorem Sound.congr (h : t.Sound i trace done) (hj : t'.jobs = t.jobs) (hd : done' ↔ done)
    (hl : ∀ j, .endedLight i j ∈ trace' ↔ .endedLight i j ∈ trace) : t'.Sound i trace' done' := by
  simp only [jobs, Prod.mk.injEq] at hj
  obtain ⟨-, hs, hid, ho, hlt, hn, hr, -⟩ := hj
  have hlight (j : Nat) : t'.lightTask j = t.lightTask j := by rw [lightTask, hlt]; rfl
  refine ⟨?_, ?_, ?_, fun j => ?_, ?_, ?_⟩
  · rw [hs, hid]
    exact h.idjob
  · rw [hs, hlt, hn]
    exact h.fresh
  · rw [hn, ho, hd]
    exact h.outputs
  · rw [hlight]
    exact h.light j
  · simp only [hn, hr, hl]
    exact h.residual
  · rw [hn, hr, hd]
    exact h.done_iff

/-- Another status of a task that has started. -/
theorem Sound.restatus (h : t.Sound i trace done) (hs : t.status ≠ .unknown) (hs' : t'.status ≠ .unknown)
    (hv : t'.submission = t.submission) (hl : t'.lightTasks = t.lightTasks) : t'.Sound i trace done := by
  simp only [submission, Prod.mk.injEq] at hv
  obtain ⟨hid, ho, hn, hr⟩ := hv
  have hlight (j : Nat) : t'.lightTask j = t.lightTask j := by rw [lightTask, hl]; rfl
  refine ⟨fun _ => ?_, fun h => absurd h hs', ?_, fun j => ?_, ?_, ?_⟩
  · rw [hid]
    exact h.idjob hs
  · rw [hn, ho]
    exact h.outputs
  · rw [hlight]
    exact h.light j
  · rw [hn, hr]
    exact h.residual
  · rw [hn, hr]
    exact h.done_iff

end Task

/-- A workflow that goes on. `residual_tasks_num` is the number of tasks that have not completed, and nothing depends on
those that have. -/
structure Ongoing (w : AcceptedWorkflow) (wf : Workflow) : Prop where
  tasksNum : wf.tasksNum = w.loaded.tasksNum
  live : wf.isClosed = false ∧ wf.dropped = false ∧ wf.finalTask = false
  status : wf.status < .completed
  dependents : ∀ i, (wf.tasks i).dependentsIndexes = (w.tasks i).dependentsIndexes
  single : ∀ i, ∀ d ∈ (wf.tasks i).deps, d.type ≠ .single
  arguments : ∀ i < wf.tasksNum, (wf.tasks i).arguments ≠ []
  started : ∀ i, (wf.tasks i).status ≠ .unknown → .started i ∈ wf.trace
  inside : ∀ i, .started i ∈ wf.trace → i < wf.tasksNum
  begun : ∀ i, .completed i ∈ wf.trace → .started i ∈ wf.trace
  begunLight : ∀ i j, .endedLight i j ∈ wf.trace → .started i ∈ wf.trace
  released : ∀ a : Nat, .completed a ∈ wf.trace → ∀ i, ∀ d ∈ (wf.tasks i).deps, d.taskIndex ≠ (a : Int)
  residual : wf.residualTasksNum = (List.range wf.tasksNum).countP fun i => Entry.completed i ∉ wf.trace

structure Open (w : AcceptedWorkflow) (wf : Workflow) : Prop where
  dep : DepInv w wf
  base : Ongoing w wf
  sound : ∀ i, (wf.tasks i).Sound i wf.trace (.completed i ∈ wf.trace)
  more : wf.residualTasksNum ≠ 0

/-- All the tasks have completed: the workflow has been dropped, or only its final operation is left. -/
structure Concluded (w : AcceptedWorkflow) (wf : Workflow) : Prop where
  finished : wf.finalTask = true ∨ wf.dropped = true
  status : wf.status = .completed
  tasksNum : wf.tasksNum = w.loaded.tasksNum
  operator : ∀ i, (wf.tasks i).operator = (w.tasks i).operator
  completed : ∀ i < w.loaded.tasksNum, .completed i ∈ wf.trace

section Invariant

variable {w : AcceptedWorkflow} {wf wf' : Workflow} {i : Nat}

theorem Ongoing.onward (h : Ongoing w wf) (hl : Local (Entry.Minor i) i wf wf') (hs : .started i ∈ wf.trace) :
    Ongoing w wf' := by
  have heng := hl.engine
  simp only [Workflow.engine, Prod.mk.injEq] at heng
  obtain ⟨hn, hr, hc, hdr, hf⟩ := heng
  have hstarted (k : Nat) : .started k ∈ wf'.trace ↔ .started k ∈ wf.trace := hl.mem_iff id
  have hcompleted (k : Nat) : .completed k ∈ wf'.trace ↔ .completed k ∈ wf.trace := hl.mem_iff id
  have hlinks (k : Nat) : (wf'.tasks k).linkView = (wf.tasks k).linkView := by
    by_cases hk : k = i
    · rw [hk]
      exact hl.links
    · rw [hl.others k hk]
  have harguments (k : Nat) (hk : k < wf'.tasksNum) : (wf'.tasks k).arguments ≠ [] :=
    Task.arguments_ne_nil (hlinks k) (h.arguments k (hn ▸ hk))
  simp only [Task.linkView, Prod.mk.injEq] at hlinks
  refine ⟨hn.trans h.tasksNum, ?_, ?_, fun k => (hlinks k).2.2.2.1.trans (h.dependents k), fun k => ?_,
    harguments, fun k hk => ?_, fun k hk => ?_, fun k hk => ?_, fun k j hk => ?_,
    fun a ha k => ?_, ?_⟩
  · rw [hc, hdr, hf]
    exact h.live
  · rcases hl.status with hst | ⟨-, hst⟩
    · rw [hst]
      exact h.status
    · rw [hst]
      decide
  · rw [(hlinks k).2.1]
    exact h.single k
  · by_cases hki : k = i
    · rw [hki, hstarted]
      exact hs
    · rw [hl.others k hki] at hk
      exact (hstarted k).mpr (h.started k hk)
  · rw [hn]
    exact h.inside k ((hstarted k).mp hk)
  · exact (hstarted k).mpr (h.begun k ((hcompleted k).mp hk))
  · rw [hstarted]
    by_cases hki : k = i
    · rw [hki]
      exact hs
    · exact h.begunLight k j ((hl.mem_iff (e := .endedLight k j) hki).mp hk)
  · rw [(hlinks k).2.1]
    exact h.released a ((hcompleted a).mp ha) k
  · rw [hr, hn, h.residual]
    simp only [hcompleted]

theorem Concluded.onward (h : Concluded w wf) (hl : Local (Entry.Minor i) i wf wf') : Concluded w wf' := by
  have heng := hl.engine
  simp only [Workflow.engine, Prod.mk.injEq] at heng
  obtain ⟨hn, -, -, hdr, hf⟩ := heng
  refine ⟨?_, ?_, hn.trans h.tasksNum, fun k => ?_, fun k hk => (hl.mem_iff id).mpr (h.completed k hk)⟩
  · rw [hdr, hf]
    exact h.finished
  · rcases hl.status with hst | ⟨hlt, -⟩
    · exact hst.trans h.status
    · rw [h.status] at hlt
      exact absurd hlt (by decide)
  · by_cases hk : k = i
    · rw [hk, ← h.operator]
      exact congrArg Prod.fst hl.links
    · rw [hl.others k hk]
      exact h.operator k

/-- The tasks that still depend on a task stand among its dependents. -/
theorem DepInv.mem_dependents (h : DepInv w wf) {k a : Nat} {d : Dep} (hd : d ∈ (wf.tasks k).deps)
    (ha : d.taskIndex = (a : Int)) :
    k ∈ (w.tasks a).dependentsIndexes ∧ DepEdge w.tasks w.loaded.tasksNum a k ∧ a < w.loaded.tasksNum := by
  obtain ⟨hindexed, -⟩ := indexing_indexed w.loaded.fresh w.indexed
  obtain ⟨j, hj, rfl⟩ := List.getElem_of_mem hd
  obtain ⟨hlen, hrel⟩ := List.forall₂_iff_get.mp (h.marked k)
  have hj₀ : j < (w.tasks k).deps.length := hlen ▸ hj
  have h₀ : ((w.tasks k).deps[j]).taskIndex = (a : Int) := by
    rcases hrel j hj₀ hj with e | ⟨e, -⟩
    · simpa only [List.get_eq_getElem, ha] using e.symm
    · simp only [List.get_eq_getElem, ha] at e
      omega
  have hk : k < w.loaded.tasksNum := by
    by_contra hk
    have := hindexed.unresolved k (Nat.not_lt.mp hk) _ (List.getElem_mem hj₀)
    omega
  refine ⟨List.count_pos_iff.mp ?_, ⟨hk, _, List.getElem_mem hj₀, h₀⟩, ?_⟩
  · rw [hindexed.mirror a k, Task.depCount]
    exact List.countP_pos_iff.mpr ⟨_, List.getElem_mem hj₀, by simp [h₀]⟩
  · obtain ⟨b, hb, hb', -⟩ := hindexed.resolved k hk _ (List.getElem_mem hj₀)
    rw [h₀, Int.natCast_inj] at hb'
    exact hb' ▸ hb

end Invariant

/-! ## A task completes -/

section Completion

variable {w : AcceptedWorkflow} {wf wf' wf'' : Workflow} {i : Nat} {ophAutoRetry : Nat} {env : NotifyEnv}
  {n : Notification} {outputs : List (String × String)}

/-- Task `i` completes: it is counted. -/
structure Finishes (i : Nat) (wf wf' : Workflow) : Prop where
  others : ∀ k, k ≠ i → wf'.tasks k = wf.tasks k
  links : (wf'.tasks i).linkView = (wf.tasks i).linkView
  engine : wf'.engine = { wf with residualTasksNum := wf.residualTasksNum - 1 }.engine
  status : wf'.status = wf.status
  trace : wf'.trace = .completed i :: .ended i :: wf.trace

/-- Task `i` has completed, and the dependences on it are marked. -/
theorem Ongoing.completed (h : Ongoing w wf) (hi : .started i ∈ wf.trace) (hnot : .completed i ∉ wf.trace)
    (hc : Finishes i wf wf') (hf : Frees (w.tasks i).dependentsIndexes wf' wf'')
    (hfree : ∀ k ∈ (w.tasks i).dependentsIndexes, k < wf.tasksNum →
      ∀ d ∈ (wf''.tasks k).deps, d.taskIndex ≠ (i : Int)) (hd : DepInv w wf'') : Ongoing w wf'' := by
  have heng := hf.engine.trans hc.engine
  simp only [Workflow.engine, Prod.mk.injEq] at heng
  obtain ⟨hn, hr, hcl, hdr, hfin⟩ := heng
  have htrace := hf.trace.trans hc.trace
  have hlinks (k : Nat) : (wf'.tasks k).linkView = (wf.tasks k).linkView := by
    by_cases hk : k = i
    · rw [hk]
      exact hc.links
    · rw [hc.others k hk]
  have harguments (k : Nat) (hk : k < wf''.tasksNum) : (wf''.tasks k).arguments ≠ [] :=
    hf.arguments k (Task.arguments_ne_nil (hlinks k) (h.arguments k (hn ▸ hk)))
  simp only [Task.linkView, Prod.mk.injEq] at hlinks
  have hjobs (k : Nat) := hf.jobs k
  simp only [Task.jobs, Prod.mk.injEq] at hjobs
  refine ⟨hn.trans h.tasksNum, ?_, ?_, fun k => ?_, fun k d' hd' => ?_, harguments, fun k hk => ?_, fun k hk => ?_,
    fun k hk => ?_, fun k j hk => ?_, fun a ha k d' hd' => ?_, ?_⟩
  · rw [hcl, hdr, hfin]
    exact h.live
  · rw [hf.status, hc.status]
    exact h.status
  · rw [(hjobs k).2.2.2.2.2.2.2, (hlinks k).2.2.2.1]
    exact h.dependents k
  · obtain ⟨d, hd, he⟩ := hf.dep hd'
    rw [(hlinks k).2.1] at hd
    rcases he with he | he
    · rw [he]
      exact h.single k d hd
    · rw [he]
      exact h.single k d hd
  · rw [htrace]
    refine List.mem_cons_of_mem _ (List.mem_cons_of_mem _ ?_)
    by_cases hki : k = i
    · rw [hki]
      exact hi
    · rw [(hjobs k).2.1, hc.others k hki] at hk
      exact h.started k hk
  · rw [hn]
    exact h.inside k (by simpa [htrace] using hk)
  · rw [htrace] at hk ⊢
    refine List.mem_cons_of_mem _ (List.mem_cons_of_mem _ ?_)
    by_cases hki : k = i
    · rw [hki]
      exact hi
    · exact h.begun k (by simpa [hki] using hk)
  · rw [htrace] at hk ⊢
    exact List.mem_cons_of_mem _ (List.mem_cons_of_mem _ (h.begunLight k j (by simpa using hk)))
  · by_cases hai : a = i
    · intro hd₀
      obtain ⟨hk, ⟨hlt, -⟩, -⟩ := hd.mem_dependents hd' hd₀
      rw [hai] at hk hd₀
      exact hfree k hk (h.tasksNum ▸ hlt) d' hd' hd₀
    · obtain ⟨d, hd, he⟩ := hf.dep hd'
      rw [(hlinks k).2.1] at hd
      rcases he with he | he
      · rw [he]
        exact h.released a (by simpa [htrace, hai] using ha) k d hd
      · rw [he]
        simp only
        omega
  · have hcount := Lib.countP_range_eq_succ (p := fun k => Entry.completed k ∉ wf.trace)
      (q := fun k => Entry.completed k ∉ wf''.trace) (h.inside i hi) (by simpa using hnot) (by simp [htrace])
      fun k hk => by simp [htrace, hk]
    have hres := h.residual
    rw [hr, hn]
    show wf.residualTasksNum - 1 = ((List.range wf.tasksNum).countP _ : Nat)
    omega

theorem Finishes.tasksNum (hc : Finishes i wf wf') : wf'.tasksNum = wf.tasksNum := congrArg Prod.fst hc.engine

theorem unselect_view (t : Task) : t.unselect.linkView = t.linkView ∧ t.unselect.submission = t.submission ∧
    t.unselect.lightTasks = t.lightTasks ∧ (t.status ≠ .unknown → t.unselect.status ≠ .unknown) := by
  unfold Task.unselect
  split
  · exact ⟨rfl, rfl, rfl, fun _ => by simp⟩
  · exact ⟨rfl, rfl, rfl, id⟩

theorem skip_view (t : Task) : t.skip.linkView = t.linkView ∧ t.skip.submission = t.submission ∧
    t.skip.lightTasks = t.lightTasks ∧ (t.status ≠ .unknown → t.skip.status ≠ .unknown) := by
  unfold Task.skip
  split
  · exact ⟨rfl, rfl, rfl, fun _ => by simp⟩
  · exact ⟨rfl, rfl, rfl, id⟩

theorem takeOutputs_view (t : Task) : (t.takeOutputs outputs).linkView = t.linkView ∧
    (t.takeOutputs outputs).status = t.status ∧ (t.takeOutputs outputs).idjob = t.idjob ∧
    (t.takeOutputs outputs).lightTasks = t.lightTasks ∧ (t.takeOutputs outputs).lightTasksNum = t.lightTasksNum ∧
    (t.takeOutputs outputs).residualLightTasksNum = t.residualLightTasksNum := by
  unfold Task.takeOutputs
  split <;> exact ⟨rfl, rfl, rfl, rfl, rfl, rfl⟩

theorem Due.restatus {t t' : Task} (h : Due i wf.trace t) (hs : t.status ≠ .unknown) (hs' : t'.status ≠ .unknown)
    (hv : t'.submission = t.submission) (hl : t'.lightTasks = t.lightTasks) : Due i wf.trace t' := by
  refine ⟨h.sound.restatus hs hs' hv hl, h.notDone, ?_⟩
  simp only [Task.submission, Prod.mk.injEq] at hv
  rw [hv.2.1, hv.2.2.1]
  exact h.noOutputs

/-- The task `i` of `wf` is counted as completed. -/
def counted (wf : Workflow) (i : Nat) : Workflow := ((wf.modify i Task.unselect).countEnded i).record (.completed i)

theorem counted_self (wf : Workflow) (i : Nat) : (counted wf i).tasks i = (wf.tasks i).unselect :=
  Workflow.modify_tasks_self ..

theorem counted_finishes (wf : Workflow) (i : Nat) (outputs : List (String × String)) :
    Finishes i wf ((counted wf i).modify i (Task.takeOutputs outputs)) := by
  refine ⟨fun k hk => ?_, ?_, rfl, rfl, rfl⟩
  · rw [Workflow.modify_tasks_ne _ _ hk]
    exact Workflow.modify_tasks_ne _ _ hk
  · rw [Workflow.modify_tasks_self, (takeOutputs_view _).1, counted_self]
    exact (unselect_view _).1

/-- The outputs of a task that is due have not come early. -/
theorem counted_outputs (hst : (wf.tasks i).status ≠ .unknown) (hdue : Due i wf.trace (wf.tasks i)) :
    ((counted wf i).tasks i).hasEarlyOutputs = false := by
  obtain ⟨-, hsub, hlight, hunknown⟩ := unselect_view (wf.tasks i)
  have hdue₁ := hdue.restatus hst (hunknown hst) hsub hlight
  rw [counted_self]
  unfold Task.hasEarlyOutputs
  by_cases h0 : (wf.tasks i).unselect.lightTasksNum = 0
  · rw [hdue₁.noOutputs h0]
    rfl
  · have hres := (hdue₁.sound.done_iff h0).mp trivial
    simp [h0, hres]

theorem counted_sound (hst : (wf.tasks i).status ≠ .unknown) (hdue : Due i wf.trace (wf.tasks i)) :
    (((counted wf i).modify i (Task.takeOutputs outputs)).tasks i).status ≠ .unknown ∧
      (((counted wf i).modify i (Task.takeOutputs outputs)).tasks i).Sound i (counted wf i).trace True := by
  obtain ⟨-, hsub, hlight, hunknown⟩ := unselect_view (wf.tasks i)
  have hd := (hdue.restatus hst (hunknown hst) hsub hlight).sound
  obtain ⟨-, tstatus, tid, tlight, tnum, tres⟩ := @takeOutputs_view outputs (wf.tasks i).unselect
  rw [Workflow.modify_tasks_self, counted_self, tstatus]
  refine ⟨hunknown hst, ?_, ?_, fun _ h => absurd trivial h, fun j => ?_, ?_, ?_⟩
  · rw [tstatus, tid]
    exact hd.idjob
  · rw [tstatus, tlight, tnum]
    exact hd.fresh
  · rw [Task.lightTask, tlight]
    exact hd.light j
  · rw [tnum, tres]
    simpa [counted, Workflow.record, Workflow.countEnded] using hd.residual
  · rw [tnum, tres]
    exact hd.done_iff

/-- What is known of the tasks after task `i` has completed and its dependents are released. -/
theorem Finishes.sound (hc : Finishes i wf wf') (hf : Frees (w.tasks i).dependentsIndexes wf' wf'')
    (hi : (wf'.tasks i).Sound i wf'.trace True)
    (hs : ∀ k, k ≠ i → (wf.tasks k).Sound k wf.trace (.completed k ∈ wf.trace)) (k : Nat) :
    (wf''.tasks k).Sound k wf''.trace (.completed k ∈ wf''.trace) := by
  have htrace := hf.trace.trans hc.trace
  by_cases hki : k = i
  · subst hki
    refine hi.congr (hf.jobs k) (iff_of_true ?_ trivial) fun j => by rw [hf.trace]
    rw [htrace]
    exact List.mem_cons_self
  · have hk := hs k hki
    rw [← hc.others k hki] at hk
    refine hk.congr (hf.jobs k) ?_ fun j => ?_
    · rw [htrace]
      simp [hki]
    · rw [htrace]
      simp

/-- Only dependents of task `i` may start because it has completed. -/
theorem Finishes.startTest (hc : Finishes i wf wf') (hf : Frees (w.tasks i).dependentsIndexes wf' wf'')
    (hi : (wf'.tasks i).status ≠ .unknown) {k : Nat} (hk : startTest wf'' k = true) :
    startTest wf k = true ∨ k ∈ (w.tasks i).dependentsIndexes := by
  by_cases hkd : k ∈ (w.tasks i).dependentsIndexes
  · exact .inr hkd
  · left
    have hjobs := hf.jobs k
    simp only [Task.jobs, Prod.mk.injEq] at hjobs
    have heng := hf.engine.trans hc.engine
    simp only [Workflow.engine, Prod.mk.injEq] at heng
    simp only [OphidiaWorkflow.startTest, Bool.and_eq_true, decide_eq_true_eq, hf.residual k hkd, hjobs.2.1, heng.1,
      heng.2.2.2.2] at hk ⊢
    by_cases hki : k = i
    · rw [hki] at hk
      exact absurd hk.2 hi
    · rw [hc.others k hki] at hk
      exact hk

/-- Nothing stops the release of the dependents of a task that is due. -/
theorem accountCompleted_eq (hd : DepInv w wf) (hB : Ongoing w wf) (hst : (wf.tasks i).status ≠ .unknown)
    (hdue : Due i wf.trace (wf.tasks i))
    (hs : ∀ k, k ≠ i → (wf.tasks k).Sound k wf.trace (.completed k ∈ wf.trace)) :
    ∃ wf', accountCompleted env wf i outputs = checkEnd wf' ∧ DepInv w wf' ∧ Ongoing w wf' ∧
      (∀ k, (wf'.tasks k).Sound k wf'.trace (.completed k ∈ wf'.trace)) ∧
      ∀ k, startTest wf' k = true → startTest wf k = true ∨ k ∈ (w.tasks i).dependentsIndexes := by
  have hcompletes := counted_finishes wf i outputs
  have hearly := counted_outputs hst hdue
  obtain ⟨hst₂, hsound⟩ := @counted_sound wf i outputs hst hdue
  have hlater : Later wf (counted wf i) :=
    (Later.modify (unselect_kept _)).trans ((Later.countEnded i).trans (.record id))
  have hrel : Releasing w i ((counted wf i).modify i (Task.takeOutputs outputs)) :=
    Releasing.later ⟨hd.later hlater, List.mem_cons_self⟩ (.modify (takeOutputs_kept outputs _))
  have heq : accountCompleted env wf i outputs =
      if (releaseDependents ((counted wf i).modify i (Task.takeOutputs outputs)) i).failed then
        { wf := (releaseDependents ((counted wf i).modify i (Task.takeOutputs outputs)) i).wf, stop := true,
          taskCompleted := true }
      else checkEnd
        (addExitObject env (releaseDependents ((counted wf i).modify i (Task.takeOutputs outputs)) i).wf) := by
    unfold accountCompleted
    simp only
    exact if_neg (Bool.not_eq_true _ ▸ hearly)
  generalize (counted wf i).modify i (Task.takeOutputs outputs) = wf₂ at *
  have hlinks := hcompletes.links
  have harguments (k : Nat) (hk : k < wf₂.tasksNum) : (wf₂.tasks k).arguments ≠ [] := by
    have hk' : (wf.tasks k).arguments ≠ [] := hB.arguments k (hcompletes.tasksNum ▸ hk)
    by_cases hki : k = i
    · subst hki
      exact Task.arguments_ne_nil hlinks hk'
    · rwa [hcompletes.others k hki]
  simp only [Task.linkView, Prod.mk.injEq] at hlinks
  have hsingle : ∀ k, ∀ d ∈ (wf₂.tasks k).deps, d.type ≠ .single := by
    intro k
    by_cases hk : k = i
    · rw [hk, hlinks.2.1]
      exact hB.single i
    · rw [hcompletes.others k hk]
      exact hB.single k
  have hdeps : (wf₂.tasks i).dependentsIndexes = (w.tasks i).dependentsIndexes :=
    hlinks.2.2.2.1.trans (hB.dependents i)
  obtain ⟨hfr, hfree⟩ := releaseDependents_freeing hrel hsingle harguments
  rw [hdeps] at hfr hfree
  rw [hcompletes.tasksNum] at hfree
  rw [hfr.failed] at heq
  have hbase := hB.completed (hB.started i hst) hdue.notDone hcompletes hfr.frees hfree hfr.releasing.1
  have hexit : Local (Entry.Minor i) i (releaseDependents wf₂ i).wf (addExitObject env (releaseDependents wf₂ i).wf) :=
    ⟨fun _ _ => rfl, rfl, rfl, .inl rfl, [], rfl, fun _ he => absurd he List.not_mem_nil⟩
  have hall := hcompletes.sound hfr.frees (hcompletes.trace ▸ hsound) hs
  exact ⟨_, heq, hfr.releasing.1.later (.of_tasks rfl rfl rfl), hbase.onward hexit (hbase.begun i hfr.releasing.2),
    hall, fun k hk => hcompletes.startTest hfr.frees hst₂ hk⟩

/-- What a piece of work leaves: the workflow is over, or it goes on, and each task that it lets start stands in a list
that it leaves to be executed. -/
def Continues (w : AcceptedWorkflow) (wf : Workflow) (r : Workflow × List Todo) : Prop :=
  Concluded w r.1 ∨ (Open w r.1 ∧
    ∀ k, startTest r.1 k = true → startTest wf k = true ∨ ∃ l, .execute l ∈ r.2 ∧ k ∈ l)

theorem Local.startTest (hl : Local (Entry.Minor i) i wf wf')
    (hi' : (wf'.tasks i).status ≠ .unknown) {k : Nat} (hk : startTest wf' k = true) : startTest wf k = true := by
  have heng := hl.engine
  simp only [Workflow.engine, Prod.mk.injEq] at heng
  simp only [OphidiaWorkflow.startTest, Bool.and_eq_true, decide_eq_true_eq, heng.1, heng.2.2.2.2] at hk ⊢
  by_cases hki : k = i
  · rw [hki] at hk
    exact absurd hk.2 hi'
  · rw [hl.others k hki] at hk
    exact hk

theorem Open.onward (h : Open w wf) (hl : Local (Entry.Minor i) i wf wf') (hd : DepInv w wf')
    (hi : (wf.tasks i).status ≠ .unknown)
    (hs : (wf'.tasks i).Sound i wf'.trace (.completed i ∈ wf'.trace)) : Open w wf' := by
  have hr : wf'.residualTasksNum = wf.residualTasksNum := congrArg (fun e => e.2.1) hl.engine
  refine ⟨hd, h.base.onward hl (h.base.started i hi), fun k => ?_, by rw [hr]; exact h.more⟩
  by_cases hk : k = i
  · rw [hk]
    exact hs
  · rw [hl.others k hk]
    exact (h.sound k).congr rfl (hl.mem_iff id) fun j => hl.mem_iff hk

theorem checkEnd_continues (hd : DepInv w wf') (hB : Ongoing w wf')
    (hs : ∀ k, (wf'.tasks k).Sound k wf'.trace (.completed k ∈ wf'.trace))
    (hstart : ∀ k, startTest wf' k = true → startTest wf k = true ∨ k ∈ (w.tasks i).dependentsIndexes)
    (hdb : env.dbFails = false) : Continues w wf (conclude env i (checkEnd wf')) := by
  have hne : wf'.status ≠ .error := fun he => by
    have := hB.status
    rw [he] at this
    exact absurd this (by decide)
  unfold checkEnd
  rw [if_neg hne]
  split
  · next hzero =>
    left
    have hraise : raiseStatus wf' .completed = { wf' with status := .completed } := by
      rw [raiseStatus, if_pos hB.status]
    have hall : ∀ k < w.loaded.tasksNum, .completed k ∈ wf'.trace := by
      intro k hk
      have hres := hB.residual
      rw [hzero, eq_comm, Int.natCast_eq_zero, List.countP_eq_zero] at hres
      have := hres k (List.mem_range.mpr (hB.tasksNum ▸ hk))
      simpa using this
    rw [hraise]
    unfold conclude finalise
    simp only [Bool.false_eq_true, ↓reduceIte]
    split
    · exact ⟨.inl rfl, rfl, hB.tasksNum, hd.operator, hall⟩
    · exact ⟨.inr rfl, rfl, hB.tasksNum, hd.operator, hall⟩
  · next hmore =>
    right
    unfold conclude
    simp only [Bool.false_eq_true, ↓reduceIte, hdb]
    refine ⟨⟨hd, hB, hs, hmore⟩, fun k hk => (hstart k hk).imp id fun h => ?_⟩
    rw [hB.dependents i]
    exact ⟨_, List.mem_singleton_self _, h⟩

theorem account_continues (hd : DepInv w wf) (hB : Ongoing w wf) (hst : (wf.tasks n.taskIndex).status ≠ .unknown)
    (hdue : Due n.taskIndex wf.trace (wf.tasks n.taskIndex))
    (hs : ∀ k, k ≠ n.taskIndex → (wf.tasks k).Sound k wf.trace (.completed k ∈ wf.trace)) (hdb : env.dbFails = false) :
    Continues w wf (conclude env n.taskIndex (account ophAutoRetry env n outputs wf .completed)) := by
  have hmore : wf.residualTasksNum ≠ 0 := by
    intro h0
    have hres := hB.residual
    rw [h0, eq_comm, Int.natCast_eq_zero, List.countP_eq_zero] at hres
    have := hres n.taskIndex (List.mem_range.mpr (hB.inside _ (hB.started _ hst)))
    exact hdue.notDone (by simpa using this)
  obtain ⟨slinks, ssub, slight, sunknown⟩ := skip_view ((saveResponse wf n.taskIndex n.outputJson).tasks n.taskIndex)
  generalize hwf₁ : (saveResponse wf n.taskIndex n.outputJson).modify n.taskIndex Task.skip = wf₁
  have hself : wf₁.tasks n.taskIndex = ((saveResponse wf n.taskIndex n.outputJson).tasks n.taskIndex).skip := by
    rw [← hwf₁, Workflow.modify_tasks_self]
  have hsave : Local (Entry.Minor n.taskIndex) n.taskIndex wf (saveResponse wf n.taskIndex n.outputJson) ∧
      ((saveResponse wf n.taskIndex n.outputJson).tasks n.taskIndex).submission =
        (wf.tasks n.taskIndex).submission ∧
      ((saveResponse wf n.taskIndex n.outputJson).tasks n.taskIndex).lightTasks = (wf.tasks n.taskIndex).lightTasks ∧
      ((saveResponse wf n.taskIndex n.outputJson).tasks n.taskIndex).status = (wf.tasks n.taskIndex).status := by
    unfold saveResponse
    split
    · rw [Workflow.modify_tasks_self]
      exact ⟨.modify rfl, rfl, rfl, rfl⟩
    · exact ⟨.refl _ _ _, rfl, rfl, rfl⟩
  have hlocal : Local (Entry.Minor n.taskIndex) n.taskIndex wf wf₁ := by
    rw [← hwf₁]
    exact hsave.1.trans (.modify slinks)
  have htrace : wf₁.trace = wf.trace := by
    rw [← hwf₁, Workflow.modify_trace]
    unfold saveResponse
    split <;> rfl
  have hlater : Later wf wf₁ := by
    rw [← hwf₁]
    exact (saveResponse_later wf n.taskIndex n.outputJson).trans (.modify (skip_kept _))
  have hst₁ : (wf₁.tasks n.taskIndex).status ≠ .unknown := by
    rw [hself]
    exact sunknown (hsave.2.2.2 ▸ hst)
  have hdue₁ : Due n.taskIndex wf₁.trace (wf₁.tasks n.taskIndex) := by
    rw [htrace]
    refine hdue.restatus hst hst₁ ?_ ?_
    · rw [hself, ssub, hsave.2.1]
    · rw [hself, slight, hsave.2.2.1]
  have hs₁ (k : Nat) (hk : k ≠ n.taskIndex) : (wf₁.tasks k).Sound k wf₁.trace (.completed k ∈ wf₁.trace) := by
    rw [hlocal.others k hk, htrace]
    exact hs k hk
  have hB₁ : Ongoing w wf₁ := hB.onward hlocal (hB.started _ hst)
  obtain ⟨wf₂, heq, hd₂, hB₂, hs₂, hstart⟩ :=
    @accountCompleted_eq w wf₁ n.taskIndex env outputs (hd.later hlater) hB₁ hst₁ hdue₁ hs₁
  have haccount : account ophAutoRetry env n outputs wf .completed = checkEnd wf₂ := by
    unfold account
    simp only [hB.live.2.2, Bool.false_eq_true, ↓reduceIte, hmore, hwf₁, true_or]
    exact heq
  rw [haccount]
  exact checkEnd_continues hd₂ hB₂ hs₂ (fun k hk => (hstart k hk).imp (hlocal.startTest hst₁) id) hdb

/-- A notification of a job that has not failed. -/
theorem notify_continues (h : Open w wf) (hn : n.Fits wf) (hdb : env.dbFails = false) :
    Continues w wf (notify ophAutoRetry env n wf) := by
  have hsame : Continues w wf (wf, []) := .inr ⟨h, fun k hk => .inl hk⟩
  obtain ⟨hle, hstarted, -⟩ := id hn
  have hst : (wf.tasks n.taskIndex).status ≠ .unknown := fun hu => h.dep.waiting _ hu hstarted
  have hid := (h.sound n.taskIndex).idjob hst
  obtain ⟨hclosed, hdropped, -⟩ := h.base.live
  have hab : ¬ JobStatus.aborted ≤ wf.status := by
    have := h.base.status
    simp only [JobStatus.le_def, JobStatus.lt_def, JobStatus.code] at this ⊢
    omega
  unfold notify
  split
  · exact hsame
  · next status hs =>
    obtain ⟨-, hne, -⟩ := JobStatus.notified_cases hle hs
    simp only [hdropped, hid, hclosed, hab, hne, Bool.false_eq_true, false_and, and_false, or_self, ↓reduceIte]
    have hu := @updateStatus_updated ophAutoRetry env n wf status hn hs (h.sound _) hst (h.dep.calm _)
    have hl := @updateStatus_local ophAutoRetry env n wf status
    obtain ⟨hlater, -⟩ := updateStatus_later ophAutoRetry env (h.dep.calm n.taskIndex) hs hne
    generalize updateStatus ophAutoRetry env n wf status = u at *
    have hd := h.dep.later hlater
    unfold settle
    rcases hu.goes with ⟨hstop, hsound⟩ | ⟨hgo, hover, hdue⟩
    · have hopen :
          Continues w wf (u.wf, []) := .inr ⟨h.onward hl hd hst hsound, fun k hk => .inl (hl.startTest hu.status hk)⟩
      rcases hstop with hstop | hnone
      · rw [if_pos hstop]
        exact hopen
      · rw [hnone]
        split <;> exact hopen
    · simp only [hgo, hover, Bool.false_eq_true, ↓reduceIte]
      have hB := h.base.onward hl hstarted
      have hs' (k : Nat) (hk : k ≠ n.taskIndex) : (u.wf.tasks k).Sound k u.wf.trace (.completed k ∈ u.wf.trace) := by
        rw [hl.others k hk]
        exact (h.sound k).congr rfl (hl.mem_iff id) fun j => hl.mem_iff hk
      refine (@account_continues w u.wf ophAutoRetry env n u.outputs hd hB hu.status hdue hs' hdb).imp id ?_
      rintro ⟨ho, hk⟩
      exact ⟨ho, fun k hks => (hk k hks).imp (hl.startTest hu.status) id⟩

/-- Once the workflow is over a notification can only drop it. -/
theorem Concluded.notify (h : Concluded w wf) : Concluded w (OphidiaWorkflow.notify ophAutoRetry env n wf).1 := by
  unfold OphidiaWorkflow.notify
  split
  · exact h
  · next status hs =>
    split_ifs
    · exact h
    · have hl : Local (Entry.Minor n.taskIndex) n.taskIndex wf (internalResponse wf n status) := .modify rfl
      exact h.onward hl
    · exact h
    · exact ⟨.inr rfl, h.status, h.tasksNum, h.operator, h.completed⟩
    · exact h
    · next hdropped _ _ _ =>
      have hl := @updateStatus_local ophAutoRetry env n wf status
      generalize updateStatus ophAutoRetry env n wf status = u at *
      have hu := h.onward hl
      have hfinal : u.wf.finalTask = true := by
        have heng := hl.engine
        simp only [Workflow.engine, Prod.mk.injEq] at heng
        rw [heng.2.2.2.2]
        exact h.finished.resolve_right hdropped
      unfold settle
      split
      · exact hu
      · split
        · exact hu
        · simp only [account, hfinal, ↓reduceIte, conclude, Bool.false_eq_true, finalise]
          split
          · exact ⟨.inl rfl, hu.status, hu.tasksNum, hu.operator, hu.completed⟩
          · exact ⟨.inr rfl, hu.status, hu.tasksNum, hu.operator, hu.completed⟩

end Completion

end OphidiaWorkflow
