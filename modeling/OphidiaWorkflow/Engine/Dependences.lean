import OphidiaWorkflow.Engine.System
import OphidiaWorkflow.Setup.Topological

/-!
Dependences along a run without errors: `residual_deps_num` counts the dependences that are not marked yet, and a task
starts once, after all the tasks it depends on.
-/
namespace OphidiaWorkflow

/-- Number of entries of `deps` that are not marked as satisfied. -/
def Task.pendingDeps (t : Task) : Nat := t.deps.countP fun d => 0 ≤ d.taskIndex

namespace Entry

/-- The entries that tell when a task starts or that the counter of its dependences is wrong. -/
def Critical : Entry → Prop
  | started _ | tooDependencies _ => True
  | _ => False

end Entry

/-- A task that no error notification has reached: it has not been retried, and it has no light tasks if it can be. -/
structure Task.Calm (t : Task) : Prop where
  isMarkedForAutoRetry : t.isMarkedForAutoRetry = false
  residualRetryNum : t.residualRetryNum = t.retryNum ∨ (t.retryNum = 1 ∧ t.residualRetryNum = 0)
  lightTasksNum : 1 < t.retryNum → t.lightTasksNum = 0
  residualLightTasksNum : 1 < t.retryNum → t.residualLightTasksNum = 0

/-- What a task keeps while the engine does not look at its dependences. -/
structure Task.Kept (t t' : Task) : Prop where
  deps : t'.deps = t.deps
  residualDepsNum : t'.residualDepsNum = t.residualDepsNum
  operator : t'.operator = t.operator
  retryNum : t'.retryNum = t.retryNum
  status : t'.status = .unknown → t.status = .unknown
  calm : t.Calm → t'.Calm

/-- The fields that `Task.Kept` is about, the status apart. -/
def Task.depView (t : Task) :=
  (t.deps, t.residualDepsNum, t.operator, t.isMarkedForAutoRetry, t.residualRetryNum, t.retryNum, t.lightTasksNum,
    t.residualLightTasksNum)

namespace Task.Kept

variable {t t' t'' : Task}

theorem refl (t : Task) : t.Kept t := ⟨rfl, rfl, rfl, rfl, id, id⟩

theorem trans (h : t.Kept t') (h' : t'.Kept t'') : t.Kept t'' :=
  ⟨h'.deps.trans h.deps, h'.residualDepsNum.trans h.residualDepsNum, h'.operator.trans h.operator,
    h'.retryNum.trans h.retryNum, fun hs => h.status (h'.status hs), fun hc => h'.calm (h.calm hc)⟩

theorem of_view (h : t'.depView = t.depView) (hs : t'.status = .unknown → t.status = .unknown) : t.Kept t' := by
  simp only [depView, Prod.mk.injEq] at h
  obtain ⟨hd, hr, ho, hm, hrr, hrn, hl, hrl⟩ := h
  refine ⟨hd, hr, ho, hrn, hs, fun hc => ⟨?_, ?_, ?_, ?_⟩⟩
  · rw [hm]; exact hc.isMarkedForAutoRetry
  · rw [hrr, hrn]; exact hc.residualRetryNum
  · rw [hl, hrn]; exact hc.lightTasksNum
  · rw [hrl, hrn]; exact hc.residualLightTasksNum

end Task.Kept

/-- The steps of the engine that neither start a task nor release one. -/
structure Later (wf wf' : Workflow) : Prop where
  tasksNum : wf'.tasksNum = wf.tasksNum
  task : ∀ i, (wf.tasks i).Kept (wf'.tasks i)
  trace : ∃ l, wf'.trace = l ++ wf.trace ∧ ∀ e ∈ l, ¬ e.Critical

namespace Later

variable {wf wf' wf'' : Workflow}

theorem refl (wf : Workflow) : Later wf wf :=
  ⟨rfl, fun _ => .refl _, [], rfl, fun _ he => absurd he List.not_mem_nil⟩

theorem trans (h : Later wf wf') (h' : Later wf' wf'') : Later wf wf'' := by
  refine ⟨h'.tasksNum.trans h.tasksNum, fun i => (h.task i).trans (h'.task i), ?_⟩
  obtain ⟨l, hl, hc⟩ := h.trace
  obtain ⟨l', hl', hc'⟩ := h'.trace
  refine ⟨l' ++ l, by rw [hl', hl, List.append_assoc], fun e he => ?_⟩
  rcases List.mem_append.mp he with he | he
  · exact hc' e he
  · exact hc e he

theorem of_tasks (h : wf'.tasks = wf.tasks) (hn : wf'.tasksNum = wf.tasksNum) (ht : wf'.trace = wf.trace) :
    Later wf wf' :=
  ⟨hn, fun i => by rw [h]; exact .refl _, [], ht, fun _ he => absurd he List.not_mem_nil⟩

theorem modify {i : Nat} {f : Task → Task} (hf : (wf.tasks i).Kept (f (wf.tasks i))) : Later wf (wf.modify i f) := by
  refine ⟨rfl, fun k => ?_, [], rfl, fun _ he => absurd he List.not_mem_nil⟩
  rw [Workflow.modify_tasks]
  split_ifs with hk
  · exact hk ▸ hf
  · exact .refl _

theorem setTaskStatus {i : Nat} {s : JobStatus} (hs : s ≠ .unknown) : Later wf (wf.setTaskStatus i s) :=
  modify (.of_view rfl fun h => absurd h hs)

theorem record {e : Entry} (he : ¬ e.Critical) : Later wf (wf.record e) :=
  ⟨rfl, fun _ => .refl _, [e], rfl, fun e' he' => by rwa [List.mem_singleton.mp he']⟩

theorem countEnded (i : Nat) : Later wf (wf.countEnded i) :=
  ⟨rfl, fun _ => .refl _, [.ended i], rfl, fun e' he' => by rw [List.mem_singleton.mp he']; exact id⟩

theorem raiseStatus (s : JobStatus) : Later wf (raiseStatus wf s) := by
  unfold OphidiaWorkflow.raiseStatus
  split_ifs
  · exact of_tasks rfl rfl rfl
  · exact refl wf

end Later

/-! ## Status propagation -/

theorem setStatus_later {target : JobStatus} (ht : target ≠ .unknown) (fuel : Nat) (dependents : List Nat)
    (wf : Workflow) : Later wf (setStatus target fuel dependents wf).1 := by
  induction fuel generalizing dependents wf with
  | zero => exact .refl wf
  | succ fuel ih =>
    unfold setStatus
    refine Lib.foldWhile_induct (Later wf) (.refl wf) fun i _ wf' h => h.trans ?_
    simp only
    split_ifs
    · exact .refl _
    · exact .refl _
    · exact (Later.countEnded i).trans ((Later.setTaskStatus ht).trans (ih _ _))
    · exact (Later.setTaskStatus ht).trans (ih _ _)

theorem abortDependents_later (wf : Workflow) (i : Nat) : Later wf (abortDependents wf i).1 :=
  setStatus_later (by decide) _ _ wf

/-! ## Submission -/

section Submission

variable (ophAutoRetry : Nat) (env : ExecEnv) (i j : Nat) (retry : Bool) (wf : Workflow)

theorem submissionFailed_later :
    Later wf (submissionFailed wf i).1 ∧ ((submissionFailed wf i).1.tasks i).status ≠ .unknown := by
  have h1 : Later wf (wf.setTaskStatus i .error) := .setTaskStatus (by decide)
  have h2 := abortDependents_later (wf.setTaskStatus i .error) i
  refine ⟨h1.trans h2, fun h => ?_⟩
  have h3 := (h2.task i).status h
  simp [Workflow.setTaskStatus] at h3

theorem lightFailed_later : Later wf (lightFailed wf i j).1 := by
  simp only [lightFailed]
  apply Later.modify
  exact .of_view rfl id

theorem executeLight_later : Later wf (executeLight env i retry wf j).1 := by
  have hmark (m : Int) : Later wf (wf.modify i fun t => t.modifyLight j fun l => { l with markerid := m }) :=
    .modify (.of_view rfl id)
  unfold executeLight
  simp only
  split
  · split
    · exact .refl wf
    · exact lightFailed_later i j wf
  · split
    · exact lightFailed_later i j wf
    · split
      · exact (hmark _).trans (lightFailed_later i j _)
      · split
        · exact (hmark _).trans (lightFailed_later i j _)
        · exact (hmark _).trans (Later.trans (.modify (.of_view rfl id)) (.record id))

theorem executeLights_later : Later wf (executeLights env i retry wf).1 := by
  unfold executeLights
  refine Lib.foldOut_induct (fun wf' _ => Later wf wf') (.refl wf) fun j _ wf' _ h => ?_
  exact h.trans (executeLight_later env i j retry wf')

theorem finishMassive_later {s : JobStatus} (hs : s ≠ .unknown) :
    Later wf (finishMassive env wf i s).1 ∧ ((finishMassive env wf i s).1.tasks i).status ≠ .unknown := by
  unfold finishMassive
  split
  · exact ⟨.setTaskStatus hs, by simpa [Workflow.setTaskStatus] using hs⟩
  · refine ⟨?_, by simpa using hs⟩
    simp only
    apply Later.modify
    exact .of_view rfl fun h => absurd h hs

theorem submitTask_later (remake : Bool) :
    Later wf (submitTask ophAutoRetry env wf i remake).1 ∧
      ((submitTask ophAutoRetry env wf i remake).1.tasks i).status ≠ .unknown := by
  unfold submitTask
  split
  · exact submissionFailed_later i wf
  case h_2 id _ =>
    have hid : Later wf (wf.modify i fun t => { t with idjob := (id : Nat) }) := .modify (.of_view rfl fun h => h)
    simp only
    split
    · obtain ⟨h1, h2⟩ := submissionFailed_later i (wf.modify i fun t => { t with idjob := (id : Nat) })
      exact ⟨hid.trans h1, h2⟩
    · split
      · refine ⟨hid.trans (Later.trans (executeLights_later env i _ _) (.setTaskStatus ?_)), ?_⟩
        · split <;> decide
        · simp only [Workflow.setTaskStatus, Workflow.modify_tasks_self]
          split <;> decide
      · exact ⟨hid.trans (.setTaskStatus (by decide)), by simp [Workflow.setTaskStatus]⟩

theorem prepare_kept (markerid : Option Int) (t : Task) : t.Kept (t.prepare markerid) := by
  unfold Task.prepare
  simp only
  split
  · split
    · exact .of_view rfl id
    · exact .of_view rfl id
  · exact .of_view rfl id

theorem checkForMassiveOperation_kept (answer : MassiveAnswer) (t : Task) :
    t.Kept (checkForMassiveOperation ophAutoRetry answer t).1 := by
  unfold checkForMassiveOperation
  split
  · refine ⟨rfl, rfl, rfl, rfl, id, fun h => ⟨h.1, h.2, h.3, fun hr => ?_⟩⟩
    simpa using h.lightTasksNum hr
  · case isFalse hretry =>
    split
    · exact .refl t
    · split
      · exact .refl t
      · -- light tasks are created only for a task that is not retried by hand
        have hnum : t.Calm → ¬ 1 < t.retryNum := by
          intro h hr
          have hm : t.manualRetry = false := by
            cases hmr : t.manualRetry with
            | false => rfl
            | true => simp [hmr] at hretry
          rcases h.residualRetryNum with h2 | h2
          · simp [Task.manualRetry, h2] at hm
            omega
          · omega
        split
        · exact .refl t
        · exact .of_view rfl id
        · exact ⟨rfl, rfl, rfl, rfl, id, fun h => ⟨h.1, h.2, fun hr => absurd hr (hnum h),
            fun hr => absurd hr (hnum h)⟩⟩
        · exact .refl t
        · exact .refl t

theorem submitMassive_later :
    Later wf (submitMassive ophAutoRetry env wf i).1 ∧
      ((submitMassive ophAutoRetry env wf i).1.tasks i).status ≠ .unknown := by
  have hcheck : Later wf (wf.modify i fun _ =>
      (checkForMassiveOperation ophAutoRetry (env.massive i) (wf.tasks i)).1) :=
    .modify (checkForMassiveOperation_kept ophAutoRetry (env.massive i) (wf.tasks i))
  unfold submitMassive
  simp only
  split
  · obtain ⟨h1, h2⟩ := submitTask_later ophAutoRetry env i (wf.modify i fun _ => _) _
    exact ⟨hcheck.trans h1, h2⟩
  · obtain ⟨h1, h2⟩ := finishMassive_later env i (wf.modify i fun _ => _) (s := .completed) (by decide)
    exact ⟨hcheck.trans h1, h2⟩
  · obtain ⟨h1, h2⟩ := finishMassive_later env i (wf.modify i fun _ => _) (s := .error) (by decide)
    exact ⟨hcheck.trans h1, h2⟩

theorem startTask_later :
    Later (wf.record (.started i)) (startTask ophAutoRetry env wf i).1 ∧
      ((startTask ophAutoRetry env wf i).1.tasks i).status ≠ .unknown := by
  have hprep : Later (wf.record (.started i))
      ((wf.record (.started i)).modify i (Task.prepare (env.markerid i none))) := .modify (prepare_kept _ _)
  have after {wf' : Workflow} (h : Later ((wf.record (.started i)).modify i (Task.prepare (env.markerid i none))) wf' ∧
      (wf'.tasks i).status ≠ .unknown) :
      Later (wf.record (.started i)) wf' ∧ (wf'.tasks i).status ≠ .unknown := ⟨hprep.trans h.1, h.2⟩
  unfold startTask
  simp only
  split_ifs
  · exact after (submissionFailed_later i _)
  · exact after (submissionFailed_later i _)
  · exact after (submitMassive_later ophAutoRetry env i _)
  · exact after (submitTask_later ophAutoRetry env i _ _)

end Submission

/-! ## The invariant -/

/-- The dependences of a task now, against those it was accepted with: a mark stands for a task that has completed. -/
def Marked (trace : List Entry) (deps₀ deps : List Dep) : Prop :=
  List.Forall₂ (fun d₀ d : Dep => d.taskIndex = d₀.taskIndex ∨
    (d.taskIndex = -1 ∧ ∀ a : Nat, d₀.taskIndex = (a : Int) → Entry.completed a ∈ trace)) deps₀ deps

/-- A task starts after the tasks it depends on have completed. -/
def StartsAfterDeps (w : AcceptedWorkflow) (trace : List Entry) : Prop :=
  ∀ l₁ l₂ i, trace = l₁ ++ Entry.started i :: l₂ →
    ∀ d ∈ (w.tasks i).deps, ∀ a : Nat, d.taskIndex = (a : Int) → Entry.completed a ∈ l₂

structure DepInv (w : AcceptedWorkflow) (wf : Workflow) : Prop where
  operator : ∀ i, (wf.tasks i).operator = (w.tasks i).operator
  calm : ∀ i, (wf.tasks i).Calm
  residual : ∀ i, (wf.tasks i).residualDepsNum = (wf.tasks i).pendingDeps
  marked : ∀ i, Marked wf.trace (w.tasks i).deps (wf.tasks i).deps
  waiting : ∀ i, (wf.tasks i).status = .unknown → Entry.started i ∉ wf.trace
  once : ∀ i, wf.trace.count (.started i) ≤ 1
  after : StartsAfterDeps w wf.trace
  noTooDependencies : ∀ i, Entry.tooDependencies i ∉ wf.trace

theorem Marked.mono {t t' : List Entry} {deps₀ deps : List Dep} (h : Marked t deps₀ deps) (ht : t ⊆ t') :
    Marked t' deps₀ deps := by
  refine List.Forall₂.imp (fun d₀ d hd => ?_) h
  rcases hd with hd | ⟨hd, hc⟩
  · exact .inl hd
  · exact .inr ⟨hd, fun a ha => ht (hc a ha)⟩

/-- An entry that does not tell of a start leaves the starts of the trace where they were. -/
theorem StartsAfterDeps.append {w : AcceptedWorkflow} {l t : List Entry} (h : StartsAfterDeps w t)
    (hl : ∀ e ∈ l, ¬ e.Critical) : StartsAfterDeps w (l ++ t) := by
  intro l₁ l₂ i heq d hd a ha
  rcases List.append_eq_append_iff.mp heq with ⟨m, hm, ht⟩ | ⟨m, hm, ht⟩
  · exact h m l₂ i ht d hd a ha
  · cases m with
    | nil => exact h [] l₂ i (by simpa using ht.symm) d hd a ha
    | cons e m =>
      have he : Entry.started i = e := by
        simp only [List.cons_append, List.cons.injEq] at ht
        exact ht.1
      have hmem : Entry.started i ∈ l := by
        rw [hm, he]
        simp
      exact absurd trivial (hl _ hmem)

namespace DepInv

variable {w : AcceptedWorkflow} {wf wf' : Workflow}

theorem later (hI : DepInv w wf) (h : Later wf wf') : DepInv w wf' := by
  obtain ⟨l, hl, hc⟩ := h.trace
  have hsub : wf.trace ⊆ wf'.trace := by
    rw [hl]
    exact List.subset_append_right _ _
  have hold {e : Entry} (he : e.Critical) (hm : e ∈ wf'.trace) : e ∈ wf.trace := by
    rw [hl] at hm
    rcases List.mem_append.mp hm with hm | hm
    · exact absurd he (hc e hm)
    · exact hm
  refine ⟨fun i => (h.task i).operator.trans (hI.operator i), fun i => (h.task i).calm (hI.calm i), fun i => ?_,
    fun i => ?_, fun i hs hm => ?_, fun i => ?_, ?_, fun i hm => hI.noTooDependencies i (hold trivial hm)⟩
  · rw [(h.task i).residualDepsNum, hI.residual i, Task.pendingDeps, Task.pendingDeps, (h.task i).deps]
  · rw [(h.task i).deps]
    exact (hI.marked i).mono hsub
  · exact hI.waiting i ((h.task i).status hs) (hold trivial hm)
  · have hzero : l.count (.started i) = 0 := List.count_eq_zero.mpr fun hm => hc _ hm trivial
    rw [hl, List.count_append, hzero, Nat.zero_add]
    exact hI.once i
  · rw [hl]
    exact hI.after.append hc

/-- The start test lets a task through only if all its dependences are marked. -/
theorem completed_of_startTest (hI : DepInv w wf) {i : Nat} (hs : startTest wf i = true) :
    ∀ d ∈ (w.tasks i).deps, ∀ a : Nat, d.taskIndex = (a : Int) → Entry.completed a ∈ wf.trace := by
  intro d₀ hd₀ a ha
  have hzero : (wf.tasks i).pendingDeps = 0 := by
    have hr := hI.residual i
    simp only [startTest, Bool.and_eq_true, decide_eq_true_eq] at hs
    omega
  obtain ⟨m, hm, rfl⟩ := List.getElem_of_mem hd₀
  have hlen := (hI.marked i).length_eq
  have hrel := (List.forall₂_iff_get.mp (hI.marked i)).2 m hm (by omega)
  rcases hrel with hrel | ⟨-, hrel⟩
  · have hneg := List.countP_eq_zero.mp hzero _ (List.get_mem (wf.tasks i).deps ⟨m, by omega⟩)
    rw [hrel] at hneg
    simp only [List.get_eq_getElem, ha, decide_eq_true_eq] at hneg
    omega
  · exact hrel a ha

theorem started (hI : DepInv w wf) {i : Nat} (hs : startTest wf i = true) (h : Later (wf.record (.started i)) wf')
    (hne : (wf'.tasks i).status ≠ .unknown) : DepInv w wf' := by
  have hdone := hI.completed_of_startTest hs
  have hunknown : (wf.tasks i).status = .unknown := by
    simp only [startTest, Bool.and_eq_true, decide_eq_true_eq] at hs
    exact hs.2
  obtain ⟨l, hl, hc⟩ := h.trace
  have hl' : wf'.trace = (l ++ [.started i]) ++ wf.trace := by
    rw [hl]
    simp [Workflow.record]
  have hsub : wf.trace ⊆ wf'.trace := by
    rw [hl']
    exact List.subset_append_right _ _
  have hold {e : Entry} (he : e.Critical) (hei : e ≠ .started i) (hm : e ∈ wf'.trace) : e ∈ wf.trace := by
    rw [hl'] at hm
    rcases List.mem_append.mp hm with hm | hm
    · rcases List.mem_append.mp hm with hm | hm
      · exact absurd he (hc e hm)
      · exact absurd (List.mem_singleton.mp hm) hei
    · exact hm
  refine ⟨fun k => (h.task k).operator.trans (hI.operator k), fun k => (h.task k).calm (hI.calm k), fun k => ?_,
    fun k => ?_, fun k hk hm => ?_, fun k => ?_, ?_, fun k hm => hI.noTooDependencies k (hold trivial (by simp) hm)⟩
  · have hr := (h.task k).residualDepsNum
    have hd := (h.task k).deps
    simp only [Workflow.record] at hr hd
    rw [hr, hI.residual k, Task.pendingDeps, Task.pendingDeps, hd]
  · have hd := (h.task k).deps
    simp only [Workflow.record] at hd
    rw [hd]
    exact (hI.marked k).mono hsub
  · have hki : k ≠ i := fun hki => hne (hki ▸ hk)
    have hst : (wf.tasks k).status = .unknown := (h.task k).status hk
    refine hI.waiting k hst (hold trivial ?_ hm)
    rintro ⟨⟩
    exact hki rfl
  · have hzero : l.count (.started k) = 0 := List.count_eq_zero.mpr fun hm => hc _ hm trivial
    rw [hl', List.count_append, List.count_append, hzero, Nat.zero_add]
    by_cases hki : k = i
    · subst hki
      rw [List.count_eq_zero.mpr (hI.waiting k hunknown)]
      simp
    · have hnone : List.count (Entry.started k) [Entry.started i] = 0 := by
        simp [Ne.symm hki]
      rw [hnone, Nat.zero_add]
      exact hI.once k
  · rw [hl', List.append_assoc]
    refine StartsAfterDeps.append ?_ hc
    intro l₁ l₂ k heq d hd a ha
    cases l₁ with
    | nil =>
      simp only [List.cons_append, List.nil_append, List.cons.injEq, Entry.started.injEq] at heq
      obtain ⟨rfl, rfl⟩ := heq
      exact hdone d hd a ha
    | cons e l₁ =>
      simp only [List.cons_append, List.nil_append, List.cons.injEq] at heq
      exact hI.after l₁ l₂ k heq.2 d hd a ha

end DepInv

/-! ## Release of the dependents -/

theorem pendingDeps_setTaskIndex {t : Task} {j : Nat} (hj : j < t.deps.length) (hd : 0 ≤ t.deps[j].taskIndex) :
    (t.setTaskIndex j (-1)).pendingDeps + 1 = t.pendingDeps := by
  simp only [Task.pendingDeps, Task.setTaskIndex]
  rw [List.modify_eq_set_getElem? , List.getElem?_eq_getElem hj]
  exact Lib.countP_set_of_pos_of_neg hj (by simpa using hd) (by simp)

theorem DepInv.mark {w : AcceptedWorkflow} {wf : Workflow} {src dst j : Nat} (hI : DepInv w wf)
    (hc : Entry.completed src ∈ wf.trace) (hj : j < (wf.tasks dst).deps.length)
    (hd : (wf.tasks dst).deps[j].taskIndex = (src : Int)) :
    DepInv w (wf.modify dst (Task.markDep j)) := by
  have hcalm : ∀ i, ((wf.modify dst (Task.markDep j)).tasks i).Calm := by
    intro i
    rw [Workflow.modify_tasks]
    split_ifs with hi
    · have h := hI.calm dst
      exact ⟨h.1, h.2, h.3, h.4⟩
    · exact hI.calm i
  refine ⟨fun i => ?_, hcalm, fun i => ?_, fun i => ?_, fun i hs => ?_, hI.once, hI.after, hI.noTooDependencies⟩
  · rw [Workflow.modify_tasks]
    split_ifs with hi
    · rw [hi, ← hI.operator dst]
      rfl
    · exact hI.operator i
  · rw [Workflow.modify_tasks]
    split_ifs with hi
    · have hr := hI.residual dst
      have hp := pendingDeps_setTaskIndex hj (by omega)
      have he : ((wf.tasks dst).markDep j).pendingDeps = ((wf.tasks dst).setTaskIndex j (-1)).pendingDeps := rfl
      have hr' : ((wf.tasks dst).markDep j).residualDepsNum = (wf.tasks dst).residualDepsNum - 1 := rfl
      omega
    · exact hI.residual i
  · rw [Workflow.modify_tasks]
    split_ifs with hi
    · subst hi
      have hm := List.forall₂_iff_get.mp (hI.marked i)
      refine List.forall₂_iff_get.mpr ⟨by simpa [Task.markDep, Task.setTaskIndex] using hm.1, fun m h₁ h₂ => ?_⟩
      have hm' := hm.2 m h₁ (by simpa [Task.markDep, Task.setTaskIndex] using h₂)
      by_cases hmj : m = j
      · subst hmj
        refine .inr ⟨by simp [Task.markDep, Task.setTaskIndex], fun a ha => ?_⟩
        rcases hm' with hm' | ⟨hm', -⟩
        · have : (src : Int) = a := by
            rw [← hd, ← ha]
            exact hm'
          rw [Int.natCast_inj.mp this] at hc
          exact hc
        · simp only [List.get_eq_getElem, hd] at hm'
          omega
      · simpa [Task.markDep, Task.setTaskIndex, List.getElem_modify, Ne.symm hmj] using hm'
    · exact hI.marked i
  · rw [Workflow.modify_tasks] at hs
    split_ifs at hs with hi
    · exact hi ▸ hI.waiting dst hs
    · exact hI.waiting i hs

section Release

variable {w : AcceptedWorkflow} {src dst : Nat}

/-- What the loops over the dependences of `dst` on `src` rely on. -/
def Releasing (w : AcceptedWorkflow) (src : Nat) (wf : Workflow) : Prop :=
  DepInv w wf ∧ Entry.completed src ∈ wf.trace

theorem Releasing.later {wf wf' : Workflow} (h : Releasing w src wf) (hl : Later wf wf') : Releasing w src wf' := by
  refine ⟨h.1.later hl, ?_⟩
  obtain ⟨l, hl, -⟩ := hl.trace
  rw [hl]
  exact List.mem_append_right _ h.2

theorem addArgument_kept (t : Task) (key order object : String) : t.Kept (t.addArgument key order object) := by
  unfold Task.addArgument
  split
  · exact .of_view rfl id
  · exact .of_view rfl id

theorem feedArgument_later (d : Dep) (st : DepLoop) : Later st.wf (feedArgument src dst d st).wf := by
  have habort : Later st.wf (abortDependents (st.wf.setTaskStatus dst .aborted) dst).1 :=
    Later.trans (.setTaskStatus (by decide)) (abortDependents_later _ dst)
  rcases feedArgument_wf src dst d st with h | h | h | ⟨object, h⟩
  · exact h ▸ .refl _
  · exact h ▸ habort
  · exact h ▸ habort.trans (.of_tasks rfl rfl rfl)
  · exact h ▸ .modify (addArgument_kept _ _ _ _)

theorem satisfyDep_releasing {st : DepLoop} {j : Nat} (h : Releasing w src st.wf) (hj : j < (w.tasks dst).deps.length) :
    Releasing w src (satisfyDep src dst st j).1.wf := by
  have hlen : j < (st.wf.tasks dst).deps.length := (h.1.marked dst).length_eq ▸ hj
  have hget : (st.wf.tasks dst).deps.getD j default = (st.wf.tasks dst).deps[j] := by simp [hlen]
  unfold satisfyDep
  rw [hget]
  simp only
  split
  · exact h
  case isFalse hsrc =>
    have hl := @feedArgument_later src dst (st.wf.tasks dst).deps[j] st
    have h' := h.later hl
    have hdeps := (hl.task dst).deps
    have hj' : j < ((feedArgument src dst (st.wf.tasks dst).deps[j] st).wf.tasks dst).deps.length := by rwa [hdeps]
    have hd : ((feedArgument src dst (st.wf.tasks dst).deps[j] st).wf.tasks dst).deps[j].taskIndex = (src : Int) := by
      simpa [hdeps] using hsrc
    split
    · exact h'
    · split
      · exact h'
      · split
        case isTrue hzero =>
          have hpos : 0 < ((feedArgument src dst (st.wf.tasks dst).deps[j] st).wf.tasks dst).pendingDeps :=
            List.countP_pos_iff.mpr ⟨_, List.getElem_mem hj', by simp [hd]⟩
          have hr := h'.1.residual dst
          omega
        · exact ⟨h'.1.mark h'.2 hj' hd, h'.2⟩

theorem releaseDependents_releasing {wf : Workflow} (h : Releasing w src wf) :
    Releasing w src (releaseDependents wf src).wf := by
  unfold releaseDependents
  refine Lib.foldWhile_induct (fun st : DepLoop => Releasing w src st.wf) h fun dst _ st hst => ?_
  unfold satisfyDeps
  split
  · refine Lib.foldWhile_induct (fun st : DepLoop => Releasing w src st.wf) hst fun j hj st' hst' => ?_
    refine satisfyDep_releasing hst' ?_
    rw [(hst.1.marked dst).length_eq]
    exact List.mem_range.mp hj
  · exact hst

end Release

/-! ## Notifications -/

section Notifications

variable {w : AcceptedWorkflow} {wf : Workflow} {n : Notification} {status : JobStatus} (ophAutoRetry : Nat)
  (env : NotifyEnv)

theorem ne_unknown_of_notified (h : n.status.notified = some status) : n.status ≠ .unknown := by
  intro hu
  simp [hu, JobStatus.notified] at h

theorem ne_startError_of_notified (h : n.status.notified = some status) (hne : status ≠ .error) :
    n.status ≠ .startError := by
  intro hu
  rw [hu] at h
  exact hne (Option.some.inj h).symm

theorem saveResponse_later (wf : Workflow) (i : Nat) (json : String) : Later wf (saveResponse wf i json) := by
  unfold saveResponse
  split
  · exact .modify (.of_view rfl id)
  · exact .refl wf

theorem notifyTask_later (h : n.status.notified = some status) (hne : status ≠ .error)
    (hc : (wf.tasks n.taskIndex).Calm) :
    Later wf (notifyTask ophAutoRetry env wf n status).wf ∧
      ∀ s ∈ (notifyTask ophAutoRetry env wf n status).isOver, s = .completed := by
  have hmark : markAutoRetry ophAutoRetry n.status { wf.tasks n.taskIndex with status := n.status } =
      ({ wf.tasks n.taskIndex with status := n.status, residualAutoRetryNum := 0 }, false) := by
    unfold markAutoRetry
    rw [if_neg]
    rintro (hm | hm)
    · exact Bool.noConfusion (hc.isMarkedForAutoRetry.symm.trans hm)
    · exact ne_startError_of_notified h hne hm
  have hlater : Later wf (wf.modify n.taskIndex fun _ =>
      { wf.tasks n.taskIndex with status := n.status, residualAutoRetryNum := 0 }) :=
    .modify (.of_view rfl fun hs => absurd hs (ne_unknown_of_notified h))
  unfold notifyTask
  simp only [hmark]
  split
  · exact ⟨hlater, fun s hs => by simp at hs⟩
  · split
    case isTrue hover =>
      refine ⟨hlater, fun s hs => ?_⟩
      rcases hover with hover | hover
      · rw [← hover]
        exact (Option.some.inj hs).symm
      · exact absurd hover hne
    · split
      · exact ⟨hlater.trans (.raiseStatus _), fun s hs => by simp at hs⟩
      · exact ⟨hlater, fun s hs => by simp at hs⟩

theorem lightOver_later (i j : Nat) (outputs : List (String × String)) (hc : (wf.tasks i).Calm) :
    Later wf (lightOver wf i j status outputs).wf ∧
      ∀ s ∈ (lightOver wf i j status outputs).isOver, s = .completed ∨ ¬ 1 < (wf.tasks i).retryNum := by
  unfold lightOver
  split
  · exact ⟨.refl wf, fun s hs => by simp at hs⟩
  case isFalse hres =>
    have hretry : ¬ 1 < (wf.tasks i).retryNum := fun hr => hres (hc.residualLightTasksNum hr)
    have hcount : Later wf ((wf.modify i (Task.countLight status outputs)).record (.endedLight i j)) := by
      refine Later.trans (.modify ⟨rfl, rfl, rfl, rfl, id, fun h => ⟨h.1, h.2, h.3, fun hr => ?_⟩⟩) (.record id)
      exact absurd hr hretry
    simp only
    split
    · refine ⟨hcount.trans ?_, fun s _ => .inr hretry⟩
      apply Later.setTaskStatus
      split <;> decide
    · exact ⟨hcount, fun s hs => by simp at hs⟩

theorem toRunning_kept (t : Task) : t.Kept t.toRunning := by
  unfold Task.toRunning
  split
  · exact .of_view rfl fun hs => by simp at hs
  · exact .refl t

theorem notifyLight_later (j : Nat) (h : n.status.notified = some status) (hne : status ≠ .error)
    (hc : (wf.tasks n.taskIndex).Calm) :
    Later wf (notifyLight ophAutoRetry env wf n j status).wf ∧
      ∀ s ∈ (notifyLight ophAutoRetry env wf n j status).isOver,
        s = .completed ∨ ¬ 1 < (wf.tasks n.taskIndex).retryNum := by
  have hstart := ne_startError_of_notified h hne
  have hset : Later wf (writeLight ophAutoRetry wf n j) := by
    unfold writeLight
    rw [if_neg hstart]
    exact .modify (.of_view rfl id)
  unfold notifyLight
  simp only [hstart, ↓reduceIte, false_and]
  split
  · have hc' := (hset.task n.taskIndex).calm hc
    obtain ⟨h1, h2⟩ := @lightOver_later _ status n.taskIndex j n.outputs hc'
    refine ⟨hset.trans h1, fun s hs => ?_⟩
    rw [← (hset.task n.taskIndex).retryNum]
    exact h2 s hs
  · split
    · exact ⟨(hset.trans (.modify (toRunning_kept _))).trans (.raiseStatus _), fun s hs => by simp at hs⟩
    · exact ⟨hset, fun s hs => by simp at hs⟩

theorem checkEnd_later (wf : Workflow) : Later wf (checkEnd wf).wf := by
  unfold checkEnd
  split
  · exact .refl wf
  · split
    · exact .raiseStatus _
    · exact .refl wf

theorem unselect_kept (t : Task) : t.Kept t.unselect := by
  unfold Task.unselect
  split
  · exact .of_view rfl fun hs => by simp at hs
  · exact .refl t

theorem takeOutputs_kept (outputs : List (String × String)) (t : Task) : t.Kept (t.takeOutputs outputs) := by
  unfold Task.takeOutputs
  split
  · exact .of_view rfl id
  · exact .refl t

theorem skip_kept (t : Task) : t.Kept t.skip := by
  unfold Task.skip
  split
  · exact .of_view rfl fun hs => by simp at hs
  · exact .refl t

theorem accountCompleted_inv (i : Nat) (outputs : List (String × String)) (h : DepInv w wf) :
    DepInv w (accountCompleted env wf i outputs).wf := by
  have hlater : Later wf (((wf.modify i Task.unselect).countEnded i).record (.completed i)) :=
    (Later.modify (unselect_kept _)).trans ((Later.countEnded i).trans (.record id))
  have hrel : Releasing w i (((wf.modify i Task.unselect).countEnded i).record (.completed i)) :=
    ⟨h.later hlater, List.mem_cons_self⟩
  have hdone := releaseDependents_releasing (hrel.later (.modify (i := i) (takeOutputs_kept outputs _)))
  unfold accountCompleted
  simp only
  split
  · exact hrel.1
  · split
    · exact hdone.1
    · have hexit (wf : Workflow) : Later wf (addExitObject env wf) := .of_tasks rfl rfl rfl
      exact (hdone.1.later (hexit _)).later (checkEnd_later _)

theorem accountContinue_later (wf : Workflow) (i : Nat) : Later wf (accountContinue wf i).wf := by
  have habort : Later wf (abortDependents (wf.countEnded i) i).1 :=
    (Later.countEnded i).trans (abortDependents_later (wf.countEnded i) i)
  unfold accountContinue
  simp only
  split
  · exact habort
  · split
    · exact habort.trans (.raiseStatus _)
    · exact habort

/-- A task that no error notification has reached is not retried when its light tasks fail. -/
theorem accountRetry_later (i : Nat) (hc : (wf.tasks i).Calm) (hr : ¬ 1 < (wf.tasks i).retryNum)
    (h1 : ¬ (wf.tasks i).retryNum < 0) (h0 : (wf.tasks i).retryNum ≠ 0)
    (hres : (wf.tasks i).residualRetryNum ≠ 0) : Later wf (accountRetry ophAutoRetry wf i).wf := by
  have hone : (wf.tasks i).retryNum = 1 := by omega
  have hres1 : (wf.tasks i).residualRetryNum = 1 := by
    rcases hc.residualRetryNum with h | h
    · omega
    · omega
  have hauto : autoRetryUpdate ophAutoRetry (wf.tasks i) = (wf.tasks i, false) := by
    unfold autoRetryUpdate
    rw [if_neg]
    rintro ⟨-, hm, -⟩
    exact Bool.noConfusion (hc.isMarkedForAutoRetry.symm.trans hm)
  have hsame : (wf.modify i fun _ => wf.tasks i) = wf := by
    simp [Workflow.modify]
  have hzero : (wf.tasks i).countRetry.residualRetryNum = 0 := by
    simp [Task.countRetry, hres1]
  have hdec : Later wf (wf.modify i Task.countRetry) := by
    apply Later.modify
    exact ⟨rfl, rfl, rfl, rfl, id, fun h => ⟨h.1, .inr ⟨hone, hzero⟩, h.3, h.4⟩⟩
  unfold accountRetry
  simp only [hauto, hsame, Bool.false_eq_true, ↓reduceIte, Workflow.modify_tasks_self]
  rw [if_neg (not_not.mpr hzero)]
  exact (hdec.trans (.countEnded i)).trans (.of_tasks rfl rfl rfl)

theorem account_inv (n : Notification) (outputs : List (String × String)) (s : JobStatus) (h : DepInv w wf)
    (hs : s = .completed ∨ ¬ 1 < (wf.tasks n.taskIndex).retryNum) :
    DepInv w (account ophAutoRetry env n outputs wf s).wf := by
  have hsave := saveResponse_later wf n.taskIndex n.outputJson
  have hskip : Later wf ((saveResponse wf n.taskIndex n.outputJson).modify n.taskIndex Task.skip) :=
    hsave.trans (.modify (skip_kept _))
  have hI := h.later hskip
  have hretry : (((saveResponse wf n.taskIndex n.outputJson).modify n.taskIndex Task.skip).tasks n.taskIndex).retryNum =
      (wf.tasks n.taskIndex).retryNum := (hskip.task n.taskIndex).retryNum
  unfold account
  simp only
  split
  · exact h
  · split
    · exact h
    · split
      · exact accountCompleted_inv env n.taskIndex outputs hI
      case isFalse hover =>
        rw [not_or] at hover
        split
        · exact hI.later (accountContinue_later _ _)
        · split
          · exact hI
          · refine hI.later (accountRetry_later ophAutoRetry n.taskIndex (hI.calm _) ?_ hover.2 ‹_› ‹_›)
            rw [hretry]
            exact hs.resolve_left hover.1

theorem finalise_later (wf : Workflow) : Later wf (finalise wf) := by
  unfold finalise
  split
  · exact .of_tasks rfl rfl rfl
  · exact .of_tasks rfl rfl rfl

theorem conclude_later (i : Nat) (v : Verdict) : Later v.wf (conclude env i v).1 := by
  unfold conclude
  split
  · exact .refl _
  · split
    · exact finalise_later _
    · split_ifs
      all_goals exact .refl _

/-- A task may turn out to have failed, but then it cannot be retried. -/
theorem settle_inv {u : Update} (h : DepInv w wf) (hu : Later wf u.wf)
    (hover : ∀ s ∈ u.isOver, s = .completed ∨ ¬ 1 < (wf.tasks n.taskIndex).retryNum) :
    DepInv w (settle ophAutoRetry env n u).1 := by
  have hI := h.later hu
  unfold settle
  split
  · exact hI
  · split
    · exact hI
    case h_2 s hs =>
      refine DepInv.later (account_inv ophAutoRetry env n u.outputs s hI ?_) (conclude_later env _ _)
      rw [(hu.task n.taskIndex).retryNum]
      exact hover s hs

theorem updateStatus_later (hc : (wf.tasks n.taskIndex).Calm) (hn : n.status.notified = some status)
    (hne : status ≠ .error) :
    Later wf (updateStatus ophAutoRetry env n wf status).wf ∧
      ∀ s ∈ (updateStatus ophAutoRetry env n wf status).isOver,
        s = .completed ∨ ¬ 1 < (wf.tasks n.taskIndex).retryNum := by
  unfold updateStatus
  split
  · exact notifyLight_later ophAutoRetry env _ hn hne hc
  · obtain ⟨hl, ho⟩ := notifyTask_later ophAutoRetry env hn hne hc
    exact ⟨hl, fun s hs => .inl (ho s hs)⟩

theorem notify_inv (h : DepInv w wf) (hn : n.status.notified ≠ some .error) :
    DepInv w (notify ophAutoRetry env n wf).1 := by
  unfold notify
  split
  · exact h
  case h_2 status hs =>
    have hne : status ≠ .error := fun he => hn (he ▸ hs)
    split_ifs
    · exact h
    · have hresp : Later wf (internalResponse wf n status) := .modify (.of_view rfl id)
      exact h.later hresp
    · exact h
    · exact h.later (.of_tasks rfl rfl rfl)
    · exact h
    · obtain ⟨hl, ho⟩ := updateStatus_later ophAutoRetry env (h.calm n.taskIndex) hs hne
      exact settle_inv ophAutoRetry env h hl ho

end Notifications

/-! ## Runs -/

section Runs

variable {w : AcceptedWorkflow} {wf : Workflow} (ophAutoRetry : Nat)

theorem execute_inv (env : ExecEnv) (tasksIndexes : List Nat) (h : DepInv w wf) :
    DepInv w (execute ophAutoRetry env tasksIndexes wf).1 := by
  unfold execute
  split
  · refine Lib.foldOut_induct (fun wf' _ => DepInv w wf') h fun i _ wf' _ h' => ?_
    unfold executeTask
    split
    case isTrue hs =>
      obtain ⟨hl, hne⟩ := startTask_later ophAutoRetry env i wf'
      exact h'.started hs hl hne
    · exact h'
  · exact h

theorem serve_wf (env : ServeEnv) (r : Request) (h : (wf.tasks r.taskId).operator.isFlowControl = false) :
    (serve env r wf).1 = wf := by
  have hop : serveOperator env wf r = (wf, r, env.served) := by
    unfold serveOperator
    cases hcase : (wf.tasks r.taskId).operator with
    | other name => simp [Operator.isFlowControl, hcase]
    | _ => simp [hcase, Operator.isFlowControl] at h
  unfold serve
  split
  · rfl
  · rw [hop]
    cases env.served with
    | ok => rfl
    | noResponse e =>
      simp only
      split <;> rfl
    | failed =>
      simp only
      split <;> rfl

/-- The notification that an event delivers. -/
def Sys.delivered (s : Sys) : Event → Option Notification
  | .external n _ => some n
  | .handle k _ =>
    match s.todo[k]? with
    | some (.special n) | some (.notify n) => some n
    | _ => none

/-- No error is notified. -/
def Smooth (s : Sys) (e : Event) : Prop := ∀ n ∈ s.delivered e, n.status.notified ≠ some .error

instance (s : Sys) (e : Event) : Decidable (Smooth s e) :=
  inferInstanceAs (Decidable (∀ n ∈ s.delivered e, n.status.notified ≠ some .error))

theorem step_depInv (hw : w.Plain) {s : Sys} {e : Event} (h : DepInv w s.wf) (he : Smooth s e) :
    DepInv w (s.step ophAutoRetry e).wf := by
  cases e with
  | external n env => exact notify_inv ophAutoRetry env h (he n rfl)
  | handle k env =>
    cases hk : s.todo[k]? with
    | none => rwa [Sys.step_handle_none ophAutoRetry hk]
    | some t =>
      rw [Sys.step_handle_some ophAutoRetry hk]
      cases t with
      | execute l => exact execute_inv ophAutoRetry env.exec l h
      | serve r =>
        have hop : (s.wf.tasks r.taskId).operator.isFlowControl = false := by
          rw [h.operator]
          exact hw _
        have hwf : (Todo.handle ophAutoRetry env s.wf (.serve r)).1 = s.wf := serve_wf env.serve r hop
        rwa [hwf]
      | special n => exact notify_inv ophAutoRetry env.notify h (he n (by simp [Sys.delivered, hk]))
      | notify n => exact notify_inv ophAutoRetry env.notify h (he n (by simp [Sys.delivered, hk]))

/-- When a workflow has been indexed each task waits for all its dependences. -/
theorem residualDepsNum_of_indexing {loaded : LoadedWorkflow} {tasks : Nat → Task}
    (h : indexing loaded.tasks loaded.tasksNum = .ok tasks) (i : Nat) :
    (tasks i).residualDepsNum = (tasks i).pendingDeps := by
  obtain ⟨hindexed, hskel⟩ := indexing_indexed loaded.fresh h
  have hres : (tasks i).residualDepsNum = (loaded.tasks i).residualDepsNum :=
    congrArg (fun t => t.residualDepsNum) (hskel i)
  have hlen : (tasks i).deps.length = (loaded.tasks i).deps.length := Task.deps_length_of_skeleton (hskel i)
  have hall : (tasks i).pendingDeps = (tasks i).deps.length := by
    refine List.countP_eq_length.mpr fun d hd => ?_
    by_cases hi : i < loaded.tasksNum
    · obtain ⟨k, -, hk, -⟩ := hindexed.resolved i hi d hd
      simp [hk]
    · rw [List.eq_nil_of_length_eq_zero (hlen.trans (by simp [loaded.deps_final i (by omega)]))] at hd
      exact absurd hd List.not_mem_nil
  rw [hres, hall, hlen]
  exact (loaded.fresh i).residualDepsNum

theorem init_depInv (w : AcceptedWorkflow) : DepInv w w.init.wf := by
  obtain ⟨-, hskel⟩ := indexing_indexed w.loaded.fresh w.indexed
  have htrace : w.init.wf.trace = [] := w.loaded.trace_eq
  have hview (i : Nat) {α : Type} (f : Task → α) (hf : ∀ t : Task, f t.skeleton = f t) :
      f (w.tasks i) = f (w.loaded.tasks i) := by
    rw [← hf, hskel i, hf]
  refine ⟨fun _ => rfl, fun i => ?_, fun i => ?_, fun i => ?_, fun i _ => by simp [htrace], fun i => by simp [htrace],
    fun l₁ l₂ i h => ?_, fun i => by simp [htrace]⟩
  · have hfresh := w.loaded.fresh i
    have hretry : (w.tasks i).retryNum = (w.loaded.tasks i).retryNum := hview i (fun t => t.retryNum) fun _ => rfl
    refine ⟨?_, .inl ?_, fun _ => ?_, fun _ => ?_⟩
    · exact (hview i (fun t => t.isMarkedForAutoRetry) fun _ => rfl).trans hfresh.isMarkedForAutoRetry
    · have hres : (w.tasks i).residualRetryNum = (w.loaded.tasks i).residualRetryNum :=
        hview i (fun t => t.residualRetryNum) fun _ => rfl
      show (w.tasks i).residualRetryNum = (w.tasks i).retryNum
      rw [hres, hretry]
      exact hfresh.residualRetryNum
    · exact (hview i (fun t => t.lightTasksNum) fun _ => rfl).trans hfresh.lightTasksNum
    · exact (hview i (fun t => t.residualLightTasksNum) fun _ => rfl).trans hfresh.residualLightTasksNum
  · exact residualDepsNum_of_indexing w.indexed i
  · exact List.forall₂_same.mpr fun d _ => .inl rfl
  · rw [htrace] at h
    simp at h

/--
Along every run of a workflow without flow control operators in which no error is notified, however many notifications
come and in whatever order: `residual_deps_num` is the number of dependences that are not marked yet, a task starts only
after the tasks it depends on have completed, it starts at most once, and the counter never falls short.
-/
theorem dependences_of_run (ophAutoRetry : Nat) (w : AcceptedWorkflow) (hw : w.Plain) (es : List Event)
    (hes : Lib.Along (Sys.step ophAutoRetry) Smooth w.init es) :
    (∀ i, ((w.init.run ophAutoRetry es).wf.tasks i).residualDepsNum =
        ((w.init.run ophAutoRetry es).wf.tasks i).pendingDeps) ∧
      StartsAfterDeps w (w.init.run ophAutoRetry es).wf.trace ∧
      (∀ i, (w.init.run ophAutoRetry es).wf.trace.count (.started i) ≤ 1) ∧
      ∀ i, Entry.tooDependencies i ∉ (w.init.run ophAutoRetry es).wf.trace := by
  have h : DepInv w (w.init.run ophAutoRetry es).wf :=
    hes.run_induct (fun s => DepInv w s.wf) (init_depInv w) fun s e hs he => step_depInv ophAutoRetry hw hs he
  exact ⟨h.residual, h.after, h.once, h.noTooDependencies⟩

/-- The workflow of `doubleEdgeRequest`: task 1 depends on task 0 twice. -/
def doubleEdge : AcceptedWorkflow := ⟨doubleEdgeRequest, _, rfl, 2, rfl⟩

/-- An environment in which everything succeeds and no operation is massive. -/
def ExecEnv.plain : ExecEnv where
  markerid := fun _ _ => some 1
  submissionString := fun _ _ => true
  createJob := fun i _ => some ⟨i + 1, i.succ_pos⟩
  massive := fun _ => .single none
  remadeString := fun _ => true

/-- Task 0 is submitted, it completes, task 1 is submitted. -/
def doubleEdgeRun : List Event :=
  [.handle 0 { exec := .plain }, .handle 0 { exec := .plain },
    .external { jobid := 1, status := .completed, taskIndex := 0 } {}, .handle 0 { exec := .plain }]

theorem dependences_of_run_doubleEdge :
    Entry.started 1 ∈ (doubleEdge.init.run 0 doubleEdgeRun).wf.trace ∧
      (doubleEdge.init.run 0 doubleEdgeRun).wf.trace.count (.started 1) ≤ 1 := by
  have hplain : doubleEdge.Plain := by
    intro i
    match i with
    | 0 => rfl
    | 1 => rfl
    | _ + 2 => rfl
  exact ⟨by decide, (dependences_of_run 0 doubleEdge hplain doubleEdgeRun (by decide)).2.2.1 1⟩

end Runs

end OphidiaWorkflow
