import OphidiaWorkflow.Engine.Dependences
import OphidiaWorkflow.Engine.Frames
import OphidiaWorkflow.Setup.Blocks

/-!
The layout of the arrays along any run: their sizes never change, indexes stay in range, and what a loop has saved of a
task fits the task it will be restored to.
-/
namespace OphidiaWorkflow

/-- The data of a task that only flow control operators and the release of its dependences may change. -/
def Task.layout (t : Task) :=
  (t.operator, t.parent, t.retryNum, t.deps, t.residualDepsNum, t.dependentsIndexes)

/-- The steps of the engine that leave the layout of all the tasks alone. -/
structure Rigid (wf wf' : Workflow) : Prop where
  tasksNum : wf'.tasksNum = wf.tasksNum
  stack : wf'.stack = wf.stack
  task : ∀ i, (wf'.tasks i).layout = (wf.tasks i).layout

namespace Rigid

variable {wf wf' wf'' : Workflow}

theorem refl (wf : Workflow) : Rigid wf wf := ⟨rfl, rfl, fun _ => rfl⟩

theorem trans (h : Rigid wf wf') (h' : Rigid wf' wf'') : Rigid wf wf'' :=
  ⟨h'.tasksNum.trans h.tasksNum, h'.stack.trans h.stack, fun i => (h'.task i).trans (h.task i)⟩

theorem of_tasks (ht : wf'.tasks = wf.tasks) (hn : wf'.tasksNum = wf.tasksNum) (hs : wf'.stack = wf.stack) :
    Rigid wf wf' := ⟨hn, hs, fun i => by rw [ht]⟩

theorem modify {i : Nat} {f : Task → Task} (hf : (f (wf.tasks i)).layout = (wf.tasks i).layout) :
    Rigid wf (wf.modify i f) := by
  refine ⟨rfl, rfl, fun k => ?_⟩
  rw [Workflow.modify_tasks]
  split_ifs with hk
  · rw [hk, hf]
  · rfl

theorem setTaskStatus (i : Nat) (s : JobStatus) : Rigid wf (wf.setTaskStatus i s) := modify rfl

theorem record (e : Entry) : Rigid wf (wf.record e) := of_tasks rfl rfl rfl

theorem countEnded (i : Nat) : Rigid wf (wf.countEnded i) := of_tasks rfl rfl rfl

theorem raiseStatus (s : JobStatus) : Rigid wf (raiseStatus wf s) := by
  unfold OphidiaWorkflow.raiseStatus
  split
  · exact of_tasks rfl rfl rfl
  · exact refl wf

end Rigid

theorem Steady.rigid {wf wf' : Workflow} (h : Steady wf wf') : Rigid wf wf' := by
  refine ⟨h.tasksNum, h.stack, fun i => ?_⟩
  obtain ⟨-, ho, -, hd, hr, hi, -, hn, hp⟩ := Task.core_eq_iff.mp (h.task i)
  simp only [Task.layout, ho, hd, hr, hi, hn, hp]

theorem abortDependents_rigid (wf : Workflow) (i : Nat) : Rigid wf (abortDependents wf i).1 :=
  (abortDependents_steady wf i).rigid

/-! ## Submission -/

section Submission

variable (ophAutoRetry : Nat) (env : ExecEnv) (i j : Nat) (retry : Bool) (wf : Workflow)

theorem prepare_layout (markerid : Option Int) (t : Task) : (t.prepare markerid).layout = t.layout := by
  unfold Task.prepare
  simp only
  split
  · split <;> rfl
  · rfl

theorem checkForMassiveOperation_layout (answer : MassiveAnswer) (t : Task) :
    (checkForMassiveOperation ophAutoRetry answer t).1.layout = t.layout := by
  unfold checkForMassiveOperation
  split_ifs
  · rfl
  · rfl
  · rfl
  · split <;> rfl

theorem submitMassive_rigid : Rigid wf (submitMassive ophAutoRetry env wf i).1 := by
  have hcheck : Rigid wf (wf.modify i fun _ =>
      (checkForMassiveOperation ophAutoRetry (env.massive i) (wf.tasks i)).1) :=
    .modify (checkForMassiveOperation_layout ophAutoRetry (env.massive i) (wf.tasks i))
  unfold submitMassive
  simp only
  split
  · exact hcheck.trans (submitTask_steady ophAutoRetry env i _ _).rigid
  · exact hcheck.trans (finishMassive_steady env i _ _).rigid
  · exact hcheck.trans (finishMassive_steady env i _ _).rigid

theorem startTask_rigid : Rigid wf (startTask ophAutoRetry env wf i).1 := by
  have hprep : Rigid wf ((wf.record (.started i)).modify i (Task.prepare (env.markerid i none))) :=
    (Rigid.record _).trans (.modify (prepare_layout _ _))
  unfold startTask
  simp only
  split_ifs
  · exact hprep.trans (submissionFailed_steady i _).rigid
  · exact hprep.trans (submissionFailed_steady i _).rigid
  · exact hprep.trans (submitMassive_rigid ophAutoRetry env i _)
  · exact hprep.trans (submitTask_steady ophAutoRetry env i _ _).rigid

theorem execute_rigid (tasksIndexes : List Nat) : Rigid wf (execute ophAutoRetry env tasksIndexes wf).1 := by
  unfold execute
  split
  · refine Lib.foldOut_induct (fun wf' _ => Rigid wf wf') (.refl wf) fun i _ wf' _ h => ?_
    unfold executeTask
    split
    · exact h.trans (startTask_rigid ophAutoRetry env i wf')
    · exact h
  · exact .refl wf

end Submission

/-! ## Notifications -/

section Notifications

variable (ophAutoRetry : Nat) (env : NotifyEnv) (wf : Workflow) (n : Notification) (status : JobStatus)

theorem addArgument_layout (t : Task) (key order object : String) :
    (t.addArgument key order object).layout = t.layout := by
  unfold Task.addArgument
  split <;> rfl

theorem feedArgument_rigid (src dst : Nat) (d : Dep) (st : DepLoop) : Rigid st.wf (feedArgument src dst d st).wf := by
  have habort : Rigid st.wf (abortDependents (st.wf.setTaskStatus dst .aborted) dst).1 :=
    (Rigid.setTaskStatus dst .aborted).trans (abortDependents_rigid _ dst)
  rcases feedArgument_wf src dst d st with h | h | h | ⟨object, h⟩
  · exact h ▸ .refl _
  · exact h ▸ habort
  · exact h ▸ habort.trans (.of_tasks rfl rfl rfl)
  · exact h ▸ .modify (addArgument_layout _ _ _ _)

end Notifications

/-! ## The layout -/

/-- Number of saved dependences that were not satisfied. -/
def StackTask.pendingDeps (s : StackTask) : Nat := s.depsTaskIndex.countP fun k => 0 ≤ k

/-- The tasks that may skip a branch. -/
def Operator.isSelection : Operator → Bool
  | .if | .elseif | .else => true
  | _ => false

/-- Task `b` is task `a` or one of its descendants. -/
def Reaches (tasks : Nat → Task) : Nat → Nat → Prop := Relation.ReflTransGen (Dependent tasks)

/-- The dependents that task `a` may have along a run: a selection may come to have any of its descendants, or itself,
in the place of one of them. -/
def Workflow.Allows (wf : Workflow) (a b : Nat) : Prop :=
  b < wf.tasksNum ∧ (Dependent wf.tasks a b ∨ (wf.tasks a).operator.isSelection ∧ Reaches wf.tasks a b)

/-- What a loop has saved fits the task it comes from; `allowed` are the dependents it may have. -/
structure StackTask.Fits (allowed : Nat → Prop) (t₀ : Task) (s : StackTask) : Prop where
  deps : s.depsTaskIndex.length = t₀.deps.length
  dependents : s.dependentsIndexes.length = t₀.dependentsIndexes.length
  ranged : ∀ b ∈ s.dependentsIndexes, allowed b
  counter : s.residualDepsNum ≤ s.pendingDeps

/-- A task against the one that was submitted: it waits for no more than its pending dependences. -/
structure Task.Laid (allowed : Nat → Prop) (t₀ t : Task) : Prop where
  operator : t.operator = t₀.operator
  parent : t.parent = t₀.parent
  retryNum : t.retryNum = t₀.retryNum
  deps : t.deps.length = t₀.deps.length
  dependents : t.dependentsIndexes.length = t₀.dependentsIndexes.length
  ranged : ∀ b ∈ t.dependentsIndexes, allowed b
  counter : t.residualDepsNum ≤ t.pendingDeps

structure Layout (wf₀ wf : Workflow) : Prop where
  tasksNum : wf.tasksNum = wf₀.tasksNum
  task : ∀ i, (wf₀.tasks i).Laid (wf₀.Allows i) (wf.tasks i)
  frames : ∀ f ∈ wf.stack, (wf₀.tasks f.caller).operator = .for ∧
    ∀ i, (f.tasks i).Fits (wf₀.Allows i) (wf₀.tasks i)

/-- A task that has not been submitted yet. -/
structure Task.Unsubmitted (t : Task) : Prop where
  lightTasks : t.lightTasks = none
  lightTasksNum : t.lightTasksNum = 0
  residualRetryNum : t.residualRetryNum = t.retryNum
  residualAutoRetryNum : t.residualAutoRetryNum = 0

/-- A workflow that may be submitted. -/
structure Workflow.Submittable (wf : Workflow) : Prop where
  unsubmitted : ∀ i, (wf.tasks i).Unsubmitted
  ranged : ∀ i, ∀ b ∈ (wf.tasks i).dependentsIndexes, b < wf.tasksNum
  acyclic : Lib.Acyclic (Dependent wf.tasks)
  endif : ∀ i, (wf.tasks i).operator = .endif → 0 ≤ (wf.tasks i).parent
  selection : ∀ i, (wf.tasks i).operator.isSelection → ∀ p : Nat, (wf.tasks i).parent = p →
    (wf.tasks p).operator.isSelection ∧ Reaches wf.tasks p i
  counter : ∀ i, (wf.tasks i).residualDepsNum ≤ (wf.tasks i).pendingDeps
  final : ∀ i, wf.tasksNum ≤ i → (wf.tasks i).operator.isFlowControl = false
  stack : wf.stack = []

section Tasks

variable {allowed : Nat → Prop} {t₀ t t' : Task} {s : StackTask}

theorem Task.Laid.of_layout (h : t₀.Laid allowed t) (hl : t'.layout = t.layout) : t₀.Laid allowed t' := by
  simp only [Task.layout, Prod.mk.injEq] at hl
  obtain ⟨ho, hp, hr, hd, hc, hi⟩ := hl
  refine ⟨ho.trans h.operator, hp.trans h.parent, hr.trans h.retryNum, by rw [hd, h.deps], by rw [hi, h.dependents],
    by rw [hi]; exact h.ranged, ?_⟩
  rw [hc, Task.pendingDeps, hd]
  exact h.counter

theorem Task.Laid.snapshot (h : t₀.Laid allowed t) : t.snapshot.Fits allowed t₀ := by
  refine ⟨by simp [Task.snapshot, h.deps], h.dependents, h.ranged, ?_⟩
  have hp : t.snapshot.pendingDeps = t.pendingDeps := by
    simp only [StackTask.pendingDeps, Task.snapshot, List.countP_map]
    rfl
  rw [hp]
  exact h.counter

theorem Task.reset_deps (h : s.depsTaskIndex.length = t.deps.length) :
    (t.reset s).deps.map (fun d => d.taskIndex) = s.depsTaskIndex := by
  simp only [Task.reset, List.map_zipWith]
  exact Lib.zipWith_right_of_length_eq h

theorem Task.reset_dependents (h : s.dependentsIndexes.length = t.dependentsIndexes.length) :
    (t.reset s).dependentsIndexes = s.dependentsIndexes := Lib.zipWith_right_of_length_eq h

theorem Task.reset_pendingDeps (h : s.depsTaskIndex.length = t.deps.length) :
    (t.reset s).pendingDeps = s.pendingDeps := by
  rw [StackTask.pendingDeps, ← Task.reset_deps h, List.countP_map]
  rfl

theorem Task.Laid.reset (h : t₀.Laid allowed t) (hs : s.Fits allowed t₀) : t₀.Laid allowed (t.reset s) := by
  have hd : s.depsTaskIndex.length = t.deps.length := hs.deps.trans h.deps.symm
  have hi := Task.reset_dependents (t := t) (hs.dependents.trans h.dependents.symm)
  refine ⟨h.operator, h.parent, h.retryNum, ?_, by rw [hi, hs.dependents], by rw [hi]; exact hs.ranged, ?_⟩
  · simp [Task.reset, hd, h.deps]
  · rw [Task.reset_pendingDeps hd]
    exact hs.counter

theorem Task.Laid.residual_le (h : t₀.Laid allowed t) {r : Int} (hr : r ≤ t.residualDepsNum) :
    t₀.Laid allowed { t with residualDepsNum := r } :=
  ⟨h.operator, h.parent, h.retryNum, h.deps, h.dependents, h.ranged, hr.trans h.counter⟩

theorem Task.Laid.markDep (h : t₀.Laid allowed t) {j : Nat} (hj : j < t.deps.length) (hd : 0 ≤ t.deps[j].taskIndex) :
    t₀.Laid allowed (t.markDep j) := by
  refine ⟨h.operator, h.parent, h.retryNum, ?_, h.dependents, h.ranged, ?_⟩
  · simp [Task.markDep, Task.setTaskIndex, h.deps]
  · have hp := pendingDeps_setTaskIndex hj hd
    have he : (t.markDep j).pendingDeps = (t.setTaskIndex j (-1)).pendingDeps := rfl
    have hr : (t.markDep j).residualDepsNum = t.residualDepsNum - 1 := rfl
    have := h.counter
    omega

theorem Task.Laid.setDependent (h : t₀.Laid allowed t) {v : Nat} (hv : allowed v) (nk : Nat) :
    t₀.Laid allowed (t.setDependent nk v) := by
  refine ⟨h.operator, h.parent, h.retryNum, h.deps, ?_, fun b hb => ?_, h.counter⟩
  · simp [Task.setDependent, h.dependents]
  · rcases List.mem_or_eq_of_mem_set hb with hb | rfl
    · exact h.ranged b hb
    · exact hv

theorem Task.Laid.redirect (h : t₀.Laid allowed t) (a b : Nat) : t₀.Laid allowed (t.redirect a b) := by
  refine ⟨h.operator, h.parent, h.retryNum, ?_, h.dependents, h.ranged, ?_⟩
  · simp [Task.redirect, h.deps]
  · have hp : (t.redirect a b).pendingDeps = t.pendingDeps := by
      simp only [Task.pendingDeps, Task.redirect, List.countP_map]
      refine List.countP_congr fun d _ => ?_
      simp only [Function.comp]
      split_ifs with hd
      · simp [hd]
      · rfl
    rw [hp]
    exact h.counter

theorem Task.Laid.dropDep (h : t₀.Laid allowed t) (a : Nat) : t₀.Laid allowed (t.dropDep a) := by
  unfold Task.dropDep
  split
  · exact h.residual_le (by omega)
  · exact h

end Tasks

namespace Layout

variable {wf₀ wf wf' : Workflow}

theorem rigid (h : Layout wf₀ wf) (hr : Rigid wf wf') : Layout wf₀ wf' :=
  ⟨hr.tasksNum.trans h.tasksNum, fun i => (h.task i).of_layout (hr.task i), by rw [hr.stack]; exact h.frames⟩

theorem modify (h : Layout wf₀ wf) {i : Nat} {f : Task → Task}
    (hf : (wf₀.tasks i).Laid (wf₀.Allows i) (f (wf.tasks i))) : Layout wf₀ (wf.modify i f) := by
  refine ⟨h.tasksNum, fun k => ?_, h.frames⟩
  rw [Workflow.modify_tasks]
  split_ifs with hk
  · exact hk ▸ hf
  · exact h.task k

theorem of_stack (h : Layout wf₀ wf) (ht : wf'.tasks = wf.tasks) (hn : wf'.tasksNum = wf.tasksNum)
    (hs : ∀ f ∈ wf'.stack, ∃ g ∈ wf.stack, f.caller = g.caller ∧ f.tasks = g.tasks) : Layout wf₀ wf' := by
  refine ⟨hn.trans h.tasksNum, fun i => by rw [ht]; exact h.task i, fun f hf => ?_⟩
  obtain ⟨g, hg, hc, ht⟩ := hs f hf
  rw [hc, ht]
  exact h.frames g hg

end Layout

theorem Operator.isFlowControl_of_isSelection {o : Operator} (h : o.isSelection = true) : o.isFlowControl = true := by
  cases o <;> first | rfl | cases h

theorem Operator.isSelection_of_opens {o o' : Operator} (h : o.opens o') (h' : o'.isSelection = true) :
    o.isSelection = true := by
  cases o <;> cases o' <;> simp_all [Operator.opens, Operator.isSelection]

theorem Workflow.Submittable.layout {wf : Workflow} (h : wf.Submittable) : Layout wf wf :=
  ⟨rfl, fun i => ⟨rfl, rfl, rfl, rfl, rfl, fun b hb => ⟨h.ranged i b hb, .inl hb⟩, h.counter i⟩, by simp [h.stack]⟩

/-- A workflow that has passed all the checks may be submitted. -/
theorem submittable_of_validateFco {loaded : LoadedWorkflow} {tasks : Nat → Task} {child : Int} {wf : Workflow}
    (h : indexing loaded.tasks loaded.tasksNum = .ok tasks)
    (hv : validate loaded.tasksNum { loaded.toWorkflow with tasks := tasks } = some .success)
    (hf : validateFco child { loaded.toWorkflow with tasks := tasks } = .ok wf) : wf.Submittable := by
  obtain ⟨hblocks, hend⟩ := validateFco_ok hf
  have hg := hblocks.linking.graph
  obtain ⟨hindexed, hskel⟩ := indexing_indexed loaded.fresh h
  have hview (i : Nat) {α : Type} (f : Task → α) (hu : ∀ t : Task, f t.unlink = f t) (hs : ∀ t : Task, f t.skeleton = f t) :
      f (wf.tasks i) = f (loaded.tasks i) := by
    rw [← hu, hg.unlink i, hu, ← hs, hskel i, hs]
  have hfinal (i : Nat) (hi : loaded.tasksNum ≤ i) : (wf.tasks i).operator.isFlowControl = false := by
    rw [hview i (fun t => t.operator) (fun _ => rfl) fun _ => rfl]
    exact loaded.operator_final i hi
  have hlt (i : Nat) (ho : (wf.tasks i).operator.isFlowControl = true) : i < loaded.tasksNum := by
    by_contra hn
    rw [hfinal i (Nat.not_lt.mp hn)] at ho
    cases ho
  refine ⟨fun i => ⟨?_, ?_, ?_, ?_⟩, fun i b hb => ?_, ?_, fun i ho => ?_, fun i ho p hp => ?_, fun i => ?_,
    fun i hi => ?_,
    hg.stack.trans loaded.stack_eq⟩
  · exact (hview i (fun t => t.lightTasks) (fun _ => rfl) fun _ => rfl).trans (loaded.fresh i).lightTasks
  · exact (hview i (fun t => t.lightTasksNum) (fun _ => rfl) fun _ => rfl).trans (loaded.fresh i).lightTasksNum
  · have hr := hview i (fun t => (t.residualRetryNum, t.retryNum)) (fun _ => rfl) fun _ => rfl
    rw [Prod.mk.injEq] at hr
    rw [hr.1, hr.2]
    exact (loaded.fresh i).residualRetryNum
  · exact (hview i (fun t => t.residualAutoRetryNum) (fun _ => rfl) fun _ => rfl).trans
      (loaded.fresh i).residualAutoRetryNum
  · rw [hg.dependents] at hb
    rw [hg.tasksNum]
    exact ((hindexed.dependent_iff i b).mp hb).1
  · rw [hg.dependent]
    exact (graph_of_validate h hv).2
  · exact hend i (hlt i (by rw [ho]; rfl)) (by rw [ho]; rfl)
  · have hi : i < loaded.tasksNum := hlt i (Operator.isFlowControl_of_isSelection ho)
    rcases hblocks.linking.parent i hi with hn | ⟨p', -, hp', hop, hd⟩
    · omega
    · obtain rfl : p = p' := Int.natCast_inj.mp (hp.symm.trans hp')
      refine ⟨?_, ?_⟩
      · rw [hg.operator] at ho ⊢
        exact Operator.isSelection_of_opens hop ho
      · unfold Reaches
        rw [hg.dependent]
        exact hd.to_reflTransGen
  · have hd : (wf.tasks i).deps = (tasks i).deps := congrArg (fun t => t.deps) (hg.unlink i)
    have hr : (wf.tasks i).residualDepsNum = (tasks i).residualDepsNum :=
      congrArg (fun t => t.residualDepsNum) (hg.unlink i)
    rw [hr, Task.pendingDeps, hd]
    exact (residualDepsNum_of_indexing h i).le
  · exact hfinal i (hg.tasksNum ▸ hi)

/-! ## Release of the dependences -/

section Release

variable {wf₀ : Workflow} {src dst : Nat}

theorem satisfyDep_layout {st : DepLoop} {j : Nat} (h : Layout wf₀ st.wf) (hj : j < (wf₀.tasks dst).deps.length) :
    Layout wf₀ (satisfyDep src dst st j).1.wf := by
  have hlen : j < (st.wf.tasks dst).deps.length := (h.task dst).deps ▸ hj
  have hget : (st.wf.tasks dst).deps.getD j default = (st.wf.tasks dst).deps[j] := by simp [hlen]
  unfold satisfyDep
  rw [hget]
  simp only
  split
  · exact h
  case isFalse hsrc =>
    have hr := feedArgument_rigid src dst (st.wf.tasks dst).deps[j] st
    have h' := h.rigid hr
    have hdeps : ((feedArgument src dst (st.wf.tasks dst).deps[j] st).wf.tasks dst).deps = (st.wf.tasks dst).deps :=
      congrArg (fun l => l.2.2.2.1) (hr.task dst)
    split
    · exact h'
    · split
      · exact h'
      · split
        · exact h'.rigid (.record _)
        · refine h'.modify ((h'.task dst).markDep (by rwa [hdeps]) ?_)
          simp only [hdeps, not_not.mp hsrc]
          exact Int.natCast_nonneg src

theorem releaseDependents_layout {wf : Workflow} (h : Layout wf₀ wf) : Layout wf₀ (releaseDependents wf src).wf := by
  unfold releaseDependents
  refine Lib.foldWhile_induct (fun st : DepLoop => Layout wf₀ st.wf) h fun dst _ st hst => ?_
  unfold satisfyDeps
  split
  · refine Lib.foldWhile_induct (fun st : DepLoop => Layout wf₀ st.wf) hst fun j hj st' hst' => ?_
    apply satisfyDep_layout hst'
    rw [← (hst.task dst).deps]
    exact List.mem_range.mp hj
  · exact hst

variable (ophAutoRetry : Nat) (env : NotifyEnv) {wf : Workflow}

theorem accountCompleted_layout (i : Nat) (outputs : List (String × String)) (h : Layout wf₀ wf) :
    Layout wf₀ (accountCompleted env wf i outputs).wf := by
  have hcount : Layout wf₀ (((wf.modify i Task.unselect).countEnded i).record (.completed i)) :=
    h.rigid (Steady.trans (.modify (unselect_core _)) ((Steady.countEnded i).trans (.record (by simp)))).rigid
  have hdone := @releaseDependents_layout wf₀ i _ (hcount.rigid (Steady.modify (i := i) (takeOutputs_core outputs _)).rigid)
  unfold accountCompleted
  simp only
  split
  · exact hcount
  · split
    · exact hdone
    · have hexit (wf : Workflow) : Rigid wf (addExitObject env wf) := .of_tasks rfl rfl rfl
      exact (hdone.rigid (hexit _)).rigid (checkEnd_steady _).rigid

theorem account_layout (n : Notification) (outputs : List (String × String)) (s : JobStatus) (h : Layout wf₀ wf) :
    Layout wf₀ (account ophAutoRetry env n outputs wf s).wf := by
  have hskip : Layout wf₀ ((saveResponse wf n.taskIndex n.outputJson).modify n.taskIndex Task.skip) :=
    h.rigid ((saveResponse_steady wf n.taskIndex n.outputJson).trans (.modify (skip_core _))).rigid
  unfold account
  simp only
  split_ifs
  · exact h
  · exact h
  · exact accountCompleted_layout env _ _ hskip
  · exact hskip.rigid (accountContinue_steady _ _).rigid
  · exact hskip
  · exact hskip.rigid (accountRetry_steady _ _ _).rigid

theorem settle_layout (n : Notification) {u : Update} (h : Layout wf₀ u.wf) :
    Layout wf₀ (settle ophAutoRetry env n u).1 := by
  unfold settle
  split
  · exact h
  · split
    · exact h
    · exact (account_layout ophAutoRetry env n u.outputs _ h).rigid (conclude_steady env n.taskIndex _).rigid

theorem notify_layout (n : Notification) (h : Layout wf₀ wf) : Layout wf₀ (notify ophAutoRetry env n wf).1 := by
  unfold notify
  split
  · exact h
  · split_ifs
    · exact h
    · exact h.rigid (internalResponse_steady wf n _).rigid
    · exact h
    · exact h.rigid (.of_tasks rfl rfl rfl)
    · exact h
    · exact settle_layout ophAutoRetry env n (h.rigid (updateStatus_steady ophAutoRetry env wf n _).rigid)

end Release

/-! ## Flow control -/

section Flow

variable {wf₀ wf : Workflow}

theorem reaches_of_mem (h : Layout wf₀ wf) {a b : Nat} (hb : b ∈ (wf.tasks a).dependentsIndexes) :
    Reaches wf₀.tasks a b := by
  rcases ((h.task a).ranged b hb).2 with hd | ⟨-, hr⟩
  · exact .single hd
  · exact hr

theorem selection_gparentOf (h₀ : wf₀.Submittable) (h : Layout wf₀ wf) {k : Nat}
    (hk : (wf₀.tasks k).operator.isSelection) {g : Nat} (hg : gparentOf wf k = g) :
    (wf₀.tasks g).operator.isSelection ∧ Reaches wf₀.tasks g k := by
  have hlast (fuel k : Nat) (hk : (wf₀.tasks k).operator.isSelection) :
      (wf₀.tasks (lastParent wf fuel k)).operator.isSelection ∧ Reaches wf₀.tasks (lastParent wf fuel k) k := by
    induction fuel generalizing k with
    | zero => exact ⟨hk, .refl⟩
    | succ fuel ih =>
      unfold lastParent
      split
      · exact ⟨hk, .refl⟩
      · have hp : (wf₀.tasks k).parent = (wf.tasks k).parent.toNat := by
          rw [← (h.task k).parent]
          omega
        obtain ⟨hs, hr⟩ := h₀.selection k hk _ hp
        obtain ⟨hs', hr'⟩ := ih _ hs
        exact ⟨hs', hr'.trans hr⟩
  unfold gparentOf at hg
  split at hg
  · omega
  · have hp : (wf₀.tasks k).parent = (wf.tasks k).parent.toNat := by
      rw [← (h.task k).parent]
      omega
    obtain ⟨hs, hr⟩ := h₀.selection k hk _ hp
    obtain ⟨hs', hr'⟩ := hlast wf.tasksNum _ hs
    rw [Int.natCast_inj] at hg
    exact hg ▸ ⟨hs', hr'.trans hr⟩

theorem countUnselected_steady (wf : Workflow) (i : Nat) : Steady wf (wf.countUnselected i) := by
  unfold Workflow.countUnselected
  split
  · exact .of_tasks rfl rfl rfl rfl id
  · exact .refl wf

theorem setSkipped_steady (wf : Workflow) (i : Nat) (skip : Bool) : Steady wf (wf.modify i (Task.setSkipped skip)) :=
  .modify rfl

theorem selectDependent_layout {next : Nat → Workflow → Workflow × Bool} {status : JobStatus} {parent : Nat}
    {skip : Bool} {taskIndex nk k : Nat} (h₀ : wf₀.Submittable) (hp : (wf₀.tasks parent).operator.isSelection)
    (hr : Reaches wf₀.tasks parent taskIndex) (hk : k < (wf₀.tasks taskIndex).dependentsIndexes.length)
    (hnext : ∀ i wf, Reaches wf₀.tasks parent i → Layout wf₀ wf → Layout wf₀ (next i wf).1) (h : Layout wf₀ wf) :
    Layout wf₀ (selectDependent next status parent skip taskIndex nk wf k).1 := by
  have hmem : (wf.tasks taskIndex).dependentsIndexes.getD k 0 ∈ (wf.tasks taskIndex).dependentsIndexes := by
    rw [← (h.task taskIndex).dependents] at hk
    rw [List.getD_eq_getElem?_getD, List.getElem?_eq_getElem hk, Option.getD_some]
    exact List.getElem_mem hk
  have hi : Reaches wf₀.tasks parent ((wf.tasks taskIndex).dependentsIndexes.getD k 0) :=
    hr.trans (reaches_of_mem h hmem)
  have hlt := ((h.task taskIndex).ranged _ hmem).1
  unfold selectDependent
  simp only
  generalize (wf.tasks taskIndex).dependentsIndexes.getD k 0 = i at hi hlt ⊢
  have hset {v m : Nat} (hv : wf₀.Allows m v) {wf : Workflow} (h : Layout wf₀ wf) :
      Layout wf₀ (wf.modify m (Task.setDependent nk v)) := h.modify ((h.task m).setDependent hv nk)
  have hdrop {a b : Nat} {wf : Workflow} (h : Layout wf₀ wf) :
      Layout wf₀ (wf.modify i fun t => (t.dropDep a).redirect a b) := h.modify (((h.task i).dropDep a).redirect a b)
  have hself : wf₀.Allows parent parent := by
    refine ⟨?_, .inr ⟨hp, .refl⟩⟩
    by_contra hn
    have hf := h₀.final parent (Nat.not_lt.mp hn)
    rw [Operator.isFlowControl_of_isSelection hp] at hf
    cases hf
  split_ifs with hparent hop hbranch hgp
  · exact h.rigid (setSkipped_steady wf i skip).rigid
  · exact hdrop (hset hself h)
  · have hd := hset (m := parent) ⟨hlt, .inr ⟨hp, hi⟩⟩ h
    exact hd.modify ((hd.task i).redirect _ _)
  · -- the end of the whole selection: its head is the parent of `i`
    have hge : gparentOf wf parent = (gparentOf wf parent).toNat := by
      have hpos := h₀.endif i ((h.task i).operator.symm.trans hgp.1)
      rw [← (h.task i).parent, hgp.2] at hpos
      omega
    obtain ⟨hs, hreach⟩ := selection_gparentOf h₀ h hp hge
    exact hdrop (hset ⟨hlt, .inr ⟨hs, hreach.trans hi⟩⟩ (hset ⟨hlt, .inr ⟨hp, hi⟩⟩ h))
  · exact h
  · exact hnext i _ hi (h.rigid ((countUnselected_steady wf i).trans (.setTaskStatus i status)).rigid)

theorem setStatusOfSelectionBlock_layout {status : JobStatus} {parent : Nat} {skip : Bool} {nk : Nat}
    (h₀ : wf₀.Submittable) (hp : (wf₀.tasks parent).operator.isSelection) (fuel taskIndex : Nat) (wf : Workflow)
    (hr : Reaches wf₀.tasks parent taskIndex) (h : Layout wf₀ wf) :
    Layout wf₀ (setStatusOfSelectionBlock status parent skip nk fuel taskIndex wf).1 := by
  induction fuel generalizing taskIndex wf with
  | zero => exact h
  | succ fuel ih =>
    unfold setStatusOfSelectionBlock
    refine Lib.foldWhile_induct (Layout wf₀) h fun k hk wf' h' => ?_
    rw [List.mem_range, (h.task taskIndex).dependents] at hk
    exact selectDependent_layout h₀ hp hr hk (fun i wf hi hwf => ih i wf hi hwf) h'

theorem skipBranch_layout {i : Nat} (h₀ : wf₀.Submittable) (hi : (wf₀.tasks i).operator.isSelection) (skip : Bool)
    (h : Layout wf₀ wf) : Layout wf₀ (skipBranch wf i skip) :=
  setStatusOfSelectionBlock_layout h₀ hi _ i wf .refl h

theorem ifImpl_layout {i : Nat} (h₀ : wf₀.Submittable) (hi : (wf₀.tasks i).operator.isSelection) (answer : Option Bool)
    (h : Layout wf₀ wf) : Layout wf₀ (ifImpl wf i answer).1 := by
  unfold ifImpl
  split
  · exact skipBranch_layout h₀ hi true h
  · split
    · exact h
    · exact (skipBranch_layout h₀ hi false (h.rigid (setSkipped_steady wf i true).rigid)).rigid (setSkipped_steady _ i false).rigid
    · refine h.rigid ⟨rfl, rfl, fun k => ?_⟩
      simp only
      split <;> rfl

theorem elseImpl_layout {i : Nat} (h₀ : wf₀.Submittable) (hi : (wf₀.tasks i).operator.isSelection)
    (h : Layout wf₀ wf) : Layout wf₀ (elseImpl wf i) := by
  unfold elseImpl
  split
  · exact skipBranch_layout h₀ hi false h
  · exact h

theorem insertVar_steady (wf : Workflow) (name : String) (v : Var) : Steady wf (wf.insertVar name v) :=
  .of_tasks rfl rfl rfl rfl id

theorem setVars_steady (wf : Workflow) (vars : List (String × Var)) : Steady wf (setVars wf vars) := by
  unfold setVars
  induction vars generalizing wf with
  | nil => exact .refl wf
  | cons p l ih => exact (insertVar_steady wf p.1 p.2).trans (ih _)

theorem waitImpl_steady (wf : Workflow) (i : Nat) (vars : List (String × Var)) : Steady wf (waitImpl wf i vars) := by
  have hvars : Steady wf (vars.foldl (fun wf p => if (wf.vars p.1).isSome then wf else wf.insertVar p.1 p.2) wf) := by
    induction vars generalizing wf with
    | nil => exact .refl wf
    | cons p l ih =>
      rw [List.foldl_cons]
      refine Steady.trans ?_ (ih _)
      split
      · exact .refl wf
      · exact insertVar_steady wf p.1 p.2
  exact hvars.trans ((Steady.setTaskStatus i .wait).trans (.raiseStatus _))

theorem inputAction_steady (wf : Workflow) (target : Option Nat) (action : JobStatus) :
    Steady wf (inputAction wf target action) := by
  unfold inputAction
  split
  · exact .refl wf
  · split
    · exact .setTaskStatus _ _
    · exact .refl wf

/-! ### Loops -/

theorem forImpl_layout {i : Nat} (hi : (wf₀.tasks i).operator = .for) (args : Option ForArgs) (h : Layout wf₀ wf) :
    Layout wf₀ (forImpl wf i args).1 := by
  have hsize (name : String) (m : Nat) : Layout wf₀ (insertSize wf name m) := by
    unfold insertSize
    split
    · exact h
    · exact h.rigid (insertVar_steady _ _ _).rigid
  unfold forImpl
  split
  · exact h
  case h_2 a =>
    split
    · exact h
    case h_2 name _ =>
      simp only
      split_ifs
      · exact h
      · exact h
      · exact hsize _ _
      · have hv := (hsize name a.valuesNum).rigid (insertVar_steady _ name (loopVar i a.svalues a.ivalues 0)).rigid
        refine ⟨hv.tasksNum, hv.task, fun f hf => ?_⟩
        rcases List.mem_cons.mp hf with rfl | hf
        · exact ⟨hi, fun k => (hv.task k).snapshot⟩
        · exact hv.frames f hf

theorem resetVisit_layout {frame : Frame} {s t : Workflow × Nat} {a : Nat} (h : Layout wf₀ s.1)
    (hf : (frame.tasks a).Fits (wf₀.Allows a) (wf₀.tasks a)) (hv : resetVisit frame s a = some t) : Layout wf₀ t.1 := by
  unfold resetVisit at hv
  split_ifs at hv
  cases hv
  exact (h.modify ((h.task a).reset hf)).rigid (.record _)

theorem resetBody_layout {p i : Nat} {frame : Frame} (h : Layout wf₀ wf)
    (hf : ∀ k, (frame.tasks k).Fits (wf₀.Allows k) (wf₀.tasks k)) : Layout wf₀ (resetBody wf p i frame) := by
  have hreset : Layout wf₀ (resetTask i frame (wf.tasksNum + 1) (wf.tasks p).dependentsIndexes (wf, 0)).1 := by
    unfold resetTask
    exact Lib.traverse_induct (fun s : Workflow × Nat => Layout wf₀ s.1) (fun s a t hs hv => resetVisit_layout hs (hf a) hv)
      _ _ h
  exact hreset.rigid (.of_tasks rfl rfl rfl)

theorem disableTask_layout {p k : Nat} (h : Layout wf₀ wf) : Layout wf₀ (disableTask wf p k) := by
  refine h.modify ((h.task k).residual_le ?_)
  generalize (wf.tasks k).residualDepsNum = r
  induction (wf.tasks k).deps generalizing r with
  | nil => exact le_rfl
  | cons d l ih =>
    rw [List.foldl_cons]
    refine (ih _).trans ?_
    split <;> omega

theorem disableBody_layout {p i : Nat} (h : Layout wf₀ wf) : Layout wf₀ (disableBody wf p i) := by
  refine Lib.traverse_induct (Layout wf₀) (fun wf a wf' hs hv => ?_) _ _ h
  unfold disableVisit at hv
  split_ifs at hv
  cases hv
  exact disableTask_layout hs

theorem newIteration_layout {p i : Nat} {frame : Frame} (h : Layout wf₀ wf)
    (hf : ∀ k, (frame.tasks k).Fits (wf₀.Allows k) (wf₀.tasks k)) : Layout wf₀ (newIteration wf p i frame) :=
  (disableBody_layout (resetBody_layout h hf)).rigid (.modify (f := Task.clearOutputs) rfl)

theorem mem_nextIndex {stack : List Frame} {caller : Nat} {f : Frame} (h : f ∈ nextIndex stack caller) :
    ∃ g ∈ stack, f.caller = g.caller ∧ f.tasks = g.tasks := by
  induction stack with
  | nil => exact absurd h List.not_mem_nil
  | cons g l ih =>
    unfold nextIndex at h
    split at h
    · rcases List.mem_cons.mp h with rfl | h
      · exact ⟨g, List.mem_cons_self, rfl, rfl⟩
      · exact ⟨f, List.mem_cons_of_mem _ h, rfl, rfl⟩
    · rcases List.mem_cons.mp h with rfl | h
      · exact ⟨f, List.mem_cons_self, rfl, rfl⟩
      · obtain ⟨g', hg', hrest⟩ := ih h
        exact ⟨g', List.mem_cons_of_mem _ hg', hrest⟩

theorem advance_layout (frame : Frame) (h : Layout wf₀ wf) : Layout wf₀ (advance wf frame) :=
  h.of_stack rfl rfl fun _ hf => mem_nextIndex hf

theorem rebind_layout (frame : Frame) (h : Layout wf₀ wf) : Layout wf₀ (rebind wf frame) :=
  (advance_layout frame h).rigid (insertVar_steady _ _ _).rigid

theorem findFrame_mem {caller : Int} {frame : Frame} (h : findFrame wf caller = some frame) :
    frame ∈ wf.stack ∧ (frame.caller : Int) = caller := by
  refine ⟨List.mem_of_find?_eq_some h, ?_⟩
  simpa using List.find?_some h

theorem endforImpl_layout (i : Nat) (h : Layout wf₀ wf) : Layout wf₀ (endforImpl wf i).1 := by
  unfold endforImpl
  split
  · exact h
  case h_2 frame hf =>
    have hfits := (h.frames frame (findFrame_mem hf).1).2
    have hadv := advance_layout frame h
    split_ifs
    · exact h.of_stack rfl rfl fun _ hf => mem_nextIndex hf
    · exact newIteration_layout (rebind_layout frame h) hfits
    · refine Layout.of_stack (hadv.rigid (.modify (i := i) (f := Task.setParallel) rfl)) rfl rfl fun f hf => ?_
      exact ⟨f, List.mem_of_mem_eraseP hf, rfl, rfl⟩

end Flow

/-! ## Runs -/

section Runs

variable {wf₀ wf : Workflow}

theorem serveOperator_layout (h₀ : wf₀.Submittable) (env : ServeEnv) (r : Request) (h : Layout wf₀ wf) :
    Layout wf₀ (serveOperator env wf r).1 := by
  have hsel (hop : (wf.tasks r.taskId).operator.isSelection) : (wf₀.tasks r.taskId).operator.isSelection := by
    rwa [(h.task r.taskId).operator] at hop
  unfold serveOperator
  simp only
  split
  · exact h
  · split
    case h_1 => exact h
    case h_2 =>
      split
      · exact h
      · exact h.rigid (setVars_steady wf env.vars).rigid
    case h_3 =>
      split
      · exact h
      · split
        · exact h.rigid (setVars_steady wf env.vars).rigid
        · exact h.rigid ((setVars_steady wf env.vars).trans (inputAction_steady _ _ _)).rigid
    case h_4 =>
      split
      · exact h
      · exact h.rigid (waitImpl_steady wf r.taskId env.vars).rigid
    case h_5 hop =>
      split
      · exact h
      · exact forImpl_layout ((h.task _).operator.symm.trans hop) env.forArgs h
    case h_6 =>
      have he := endforImpl_layout r.taskId h
      split
      case h_1 heq =>
        rw [heq] at he
        exact he
      case h_2 heq =>
        rw [heq] at he
        exact he
      case h_3 heq =>
        rw [heq] at he
        exact he
    case h_7 hop =>
      split
      · exact h
      · exact ifImpl_layout h₀ (hsel (by rw [hop]; rfl)) env.condition h
    case h_8 hop =>
      split
      · exact h
      · exact ifImpl_layout h₀ (hsel (by rw [hop]; rfl)) env.condition h
    case h_9 hop =>
      simp only
      split
      · exact h
      · exact elseImpl_layout h₀ (hsel (by rw [hop]; rfl)) h
    case h_10 => exact h

theorem serve_layout (h₀ : wf₀.Submittable) (env : ServeEnv) (r : Request) (h : Layout wf₀ wf) :
    Layout wf₀ (serve env r wf).1 := by
  have hs := serveOperator_layout h₀ env r h
  unfold serve
  split
  · exact h
  · generalize serveOperator env wf r = res at hs
    obtain ⟨wf', target, served⟩ := res
    cases served with
    | ok => exact hs
    | noResponse e =>
      simp only
      split <;> exact hs
    | failed =>
      simp only
      split <;> exact hs

theorem step_layout (h₀ : wf₀.Submittable) (ophAutoRetry : Nat) {s : Sys} (e : Event) (h : Layout wf₀ s.wf) :
    Layout wf₀ (s.step ophAutoRetry e).wf := by
  cases e with
  | external n env => exact notify_layout ophAutoRetry env n h
  | handle k env =>
    cases hk : s.todo[k]? with
    | none => rwa [Sys.step_handle_none ophAutoRetry hk]
    | some t =>
      rw [Sys.step_handle_some ophAutoRetry hk]
      cases t with
      | execute l => exact h.rigid (execute_rigid ophAutoRetry env.exec s.wf l)
      | serve r => exact serve_layout h₀ env.serve r h
      | special n => exact notify_layout ophAutoRetry env.notify n h
      | notify n => exact notify_layout ophAutoRetry env.notify n h

theorem run_layout (h₀ : wf₀.Submittable) (ophAutoRetry : Nat) {s : Sys} (es : List Event) (h : Layout wf₀ s.wf) :
    Layout wf₀ (s.run ophAutoRetry es).wf := by
  unfold Sys.run
  induction es generalizing s with
  | nil => exact h
  | cons e es ih => exact ih (step_layout h₀ ophAutoRetry e h)

theorem RunsTo.layout (h₀ : wf₀.Submittable) (h : RunsTo wf₀ wf) : Layout wf₀ wf := by
  obtain ⟨ophAutoRetry, tasksIndexes, es, rfl⟩ := h
  exact run_layout h₀ ophAutoRetry es (h₀.layout.rigid (.of_tasks rfl rfl rfl))

end Runs

end OphidiaWorkflow
