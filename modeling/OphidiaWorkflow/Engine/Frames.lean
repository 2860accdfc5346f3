import OphidiaWorkflow.Engine.Notify

/-!
What the submission of a task and the bookkeeping of `oph_workflow_notify` leave alone: only the release of dependences
goes further.
-/
namespace OphidiaWorkflow

/-- The data of a task that no change of its status, of its outputs or of its retries concerns. -/
def Task.core (t : Task) :=
  (t.name, t.operator, t.arguments, t.deps, t.residualDepsNum, t.dependentsIndexes, t.lightTasksNum, t.retryNum,
    t.parent)

theorem Task.core_eq_iff {t t' : Task} : t'.core = t.core ↔ t'.name = t.name ∧ t'.operator = t.operator ∧
    t'.arguments = t.arguments ∧ t'.deps = t.deps ∧ t'.residualDepsNum = t.residualDepsNum ∧
    t'.dependentsIndexes = t.dependentsIndexes ∧ t'.lightTasksNum = t.lightTasksNum ∧ t'.retryNum = t.retryNum ∧
    t'.parent = t.parent := by
  simp only [Task.core, Prod.mk.injEq]

/-- The steps that leave the core of all the tasks alone: none is started, and a workflow that is over stays so. -/
structure Steady (wf wf' : Workflow) : Prop where
  tasksNum : wf'.tasksNum = wf.tasksNum
  stack : wf'.stack = wf.stack
  task : ∀ i, (wf'.tasks i).core = (wf.tasks i).core
  active : wf'.status < .completed → wf.status < .completed
  trace : ∃ l, wf'.trace = l ++ wf.trace ∧ ∀ i, .started i ∉ l

namespace Steady

variable {wf wf' wf'' : Workflow}

theorem refl (wf : Workflow) : Steady wf wf := ⟨rfl, rfl, fun _ => rfl, id, [], rfl, fun _ => List.not_mem_nil⟩

theorem trans (h : Steady wf wf') (h' : Steady wf' wf'') : Steady wf wf'' := by
  refine ⟨h'.tasksNum.trans h.tasksNum, h'.stack.trans h.stack, fun i => (h'.task i).trans (h.task i),
    fun ha => h.active (h'.active ha), ?_⟩
  obtain ⟨l, hl, hc⟩ := h.trace
  obtain ⟨l', hl', hc'⟩ := h'.trace
  refine ⟨l' ++ l, by rw [hl', hl, List.append_assoc], fun i hi => ?_⟩
  rcases List.mem_append.mp hi with hi | hi
  · exact hc' i hi
  · exact hc i hi

theorem of_tasks (ht : wf'.tasks = wf.tasks) (hn : wf'.tasksNum = wf.tasksNum) (hs : wf'.stack = wf.stack)
    (htr : wf'.trace = wf.trace) (ha : wf'.status < .completed → wf.status < .completed) : Steady wf wf' :=
  ⟨hn, hs, fun i => by rw [ht], ha, [], htr, fun _ => List.not_mem_nil⟩

theorem modify {i : Nat} {f : Task → Task} (hf : (f (wf.tasks i)).core = (wf.tasks i).core) :
    Steady wf (wf.modify i f) := by
  refine ⟨rfl, rfl, fun k => ?_, id, [], rfl, fun _ => List.not_mem_nil⟩
  rw [Workflow.modify_tasks]
  split_ifs with hk
  · rw [hk, hf]
  · rfl

theorem setTaskStatus (i : Nat) (s : JobStatus) : Steady wf (wf.setTaskStatus i s) := modify rfl

theorem record {e : Entry} (he : ∀ i, e ≠ .started i) : Steady wf (wf.record e) :=
  ⟨rfl, rfl, fun _ => rfl, id, [e], rfl, fun i hi => he i (List.mem_singleton.mp hi).symm⟩

theorem countEnded (i : Nat) : Steady wf (wf.countEnded i) :=
  ⟨rfl, rfl, fun _ => rfl, id, [.ended i], rfl, by simp⟩

theorem raiseStatus (s : JobStatus) : Steady wf (raiseStatus wf s) := by
  unfold OphidiaWorkflow.raiseStatus
  split
  case isTrue hlt => exact of_tasks rfl rfl rfl rfl fun ha => Nat.lt_trans hlt ha
  · exact refl wf

end Steady

theorem setStatus_steady (target : JobStatus) (fuel : Nat) (dependents : List Nat) (wf : Workflow) :
    Steady wf (setStatus target fuel dependents wf).1 := by
  induction fuel generalizing dependents wf with
  | zero => exact .refl wf
  | succ fuel ih =>
    unfold setStatus
    refine Lib.foldWhile_induct (Steady wf) (.refl wf) fun i _ wf' h => h.trans ?_
    simp only
    split_ifs
    · exact .refl _
    · exact .refl _
    · exact (Steady.countEnded i).trans ((Steady.setTaskStatus i target).trans (ih _ _))
    · exact (Steady.setTaskStatus i target).trans (ih _ _)

theorem abortDependents_steady (wf : Workflow) (i : Nat) : Steady wf (abortDependents wf i).1 :=
  setStatus_steady .aborted _ _ wf

/-! ## Submission -/

theorem modifyLight_steady (i j : Nat) (wf : Workflow) (f : LightTask → LightTask) :
    Steady wf (wf.modify i fun t => t.modifyLight j f) :=
  .modify rfl

section Submission

variable (ophAutoRetry : Nat) (env : ExecEnv) (i j : Nat) (retry : Bool) (wf : Workflow)

theorem submissionFailed_steady : Steady wf (submissionFailed wf i).1 :=
  (Steady.setTaskStatus i .error).trans (abortDependents_steady _ i)

theorem lightFailed_steady : Steady wf (lightFailed wf i j).1 := modifyLight_steady i j wf _

theorem executeLight_steady : Steady wf (executeLight env i retry wf j).1 := by
  unfold executeLight
  simp only
  split
  · split
    · exact .refl wf
    · exact lightFailed_steady i j wf
  · split
    · exact lightFailed_steady i j wf
    · have hmark := modifyLight_steady i j wf
      split
      · exact (hmark _).trans (lightFailed_steady i j _)
      · split
        · exact (hmark _).trans (lightFailed_steady i j _)
        · exact (hmark _).trans ((modifyLight_steady i j _ _).trans (.record nofun))

theorem executeLights_steady : Steady wf (executeLights env i retry wf).1 := by
  unfold executeLights
  refine Lib.foldOut_induct (fun wf' _ => Steady wf wf') (.refl wf) fun j _ wf' _ h => ?_
  exact h.trans (executeLight_steady env i j retry wf')

theorem finishMassive_steady (s : JobStatus) : Steady wf (finishMassive env wf i s).1 := by
  unfold finishMassive
  split
  · exact .setTaskStatus i s
  · simp only
    apply Steady.modify
    rfl

theorem submitTask_steady (remake : Bool) : Steady wf (submitTask ophAutoRetry env wf i remake).1 := by
  unfold submitTask
  split
  · exact submissionFailed_steady i wf
  case h_2 id _ =>
    have hid : Steady wf (wf.modify i fun t => { t with idjob := (id : Nat) }) := .modify rfl
    simp only
    split
    · exact hid.trans (submissionFailed_steady i _)
    · split
      · exact hid.trans ((executeLights_steady env i _ _).trans (.setTaskStatus i _))
      · exact hid.trans (.setTaskStatus i _)

end Submission

/-! ## Notifications -/

section Notifications

variable (ophAutoRetry : Nat) (env : NotifyEnv) (wf : Workflow) (n : Notification) (status : JobStatus)

theorem saveResponse_steady (i : Nat) (json : String) : Steady wf (saveResponse wf i json) := by
  unfold saveResponse
  split
  · exact .modify rfl
  · exact .refl wf

theorem checkEnd_steady : Steady wf (checkEnd wf).wf := by
  unfold checkEnd
  split
  · exact .refl wf
  · split
    · exact .raiseStatus _
    · exact .refl wf

theorem unselect_core (t : Task) : t.unselect.core = t.core := by
  unfold Task.unselect
  split <;> rfl

theorem takeOutputs_core (outputs : List (String × String)) (t : Task) :
    (t.takeOutputs outputs).core = t.core := by
  unfold Task.takeOutputs
  split <;> rfl

theorem skip_core (t : Task) : t.skip.core = t.core := by
  unfold Task.skip
  split <;> rfl

theorem toRunning_core (t : Task) : t.toRunning.core = t.core := by
  unfold Task.toRunning
  split <;> rfl

theorem markForAutoRetry_core (t : Task) : (t.markForAutoRetry ophAutoRetry).core = t.core := by
  unfold Task.markForAutoRetry
  split <;> rfl

theorem autoRetryUpdate_core (t : Task) : (autoRetryUpdate ophAutoRetry t).1.core = t.core := by
  unfold autoRetryUpdate
  split_ifs <;> rfl

theorem markAutoRetry_core (s : JobStatus) (t : Task) : (markAutoRetry ophAutoRetry s t).1.core = t.core := by
  unfold markAutoRetry
  split_ifs <;> rfl

theorem accountContinue_steady (i : Nat) : Steady wf (accountContinue wf i).wf := by
  have habort : Steady wf (abortDependents (wf.countEnded i) i).1 :=
    (Steady.countEnded i).trans (abortDependents_steady _ i)
  unfold accountContinue
  simp only
  split
  · exact habort
  · split
    · exact habort.trans (.raiseStatus _)
    · exact habort

theorem accountRetry_steady (i : Nat) : Steady wf (accountRetry ophAutoRetry wf i).wf := by
  have hauto : Steady wf (wf.modify i fun _ => (autoRetryUpdate ophAutoRetry (wf.tasks i)).1) :=
    .modify (autoRetryUpdate_core ophAutoRetry (wf.tasks i))
  have hcount (wf : Workflow) : Steady wf (wf.modify i Task.countRetry) := .modify rfl
  unfold accountRetry
  simp only
  split_ifs
  · exact hauto.trans (.setTaskStatus i _)
  · exact hauto.trans ((hcount _).trans (.setTaskStatus i _))
  · exact hauto.trans ((hcount _).trans ((Steady.countEnded i).trans (.of_tasks rfl rfl rfl rfl nofun)))

theorem lightOver_steady (i j : Nat) (outputs : List (String × String)) :
    Steady wf (lightOver wf i j status outputs).wf := by
  have hcount : Steady wf ((wf.modify i (Task.countLight status outputs)).record (.endedLight i j)) :=
    Steady.trans (.modify rfl) (.record nofun)
  unfold lightOver
  split
  · exact .refl wf
  · simp only
    split
    · exact hcount.trans (.setTaskStatus i _)
    · exact hcount

theorem writeLight_steady (j : Nat) : Steady wf (writeLight ophAutoRetry wf n j) := by
  have hset := modifyLight_steady n.taskIndex j wf fun l => { l with status := n.status }
  unfold writeLight
  simp only
  split
  · refine hset.trans (Steady.trans ?_ (.raiseStatus _))
    exact Steady.trans (.modify (markForAutoRetry_core _ _)) (.modify (toRunning_core _))
  · exact hset

theorem updateStatus_steady : Steady wf (updateStatus ophAutoRetry env n wf status).wf := by
  unfold updateStatus
  split
  case h_1 j _ =>
    have hwrite := writeLight_steady ophAutoRetry wf n j
    unfold notifyLight
    simp only
    split
    · exact hwrite
    · split
      · exact hwrite.trans (lightOver_steady _ status n.taskIndex j n.outputs)
      · split
        · exact hwrite.trans (Steady.trans (.modify (toRunning_core _)) (.raiseStatus _))
        · exact hwrite
  · have hset : Steady wf (wf.modify n.taskIndex fun _ =>
        (markAutoRetry ophAutoRetry n.status { wf.tasks n.taskIndex with status := n.status }).1) :=
      .modify (markAutoRetry_core _ _ _)
    unfold notifyTask
    simp only
    split
    · exact hset
    · split
      · exact hset
      · split
        · exact hset.trans (.raiseStatus _)
        · exact hset

theorem internalResponse_steady : Steady wf (internalResponse wf n status) := .modify rfl

theorem conclude_steady (i : Nat) (v : Verdict) : Steady v.wf (conclude env i v).1 := by
  unfold conclude finalise
  split_ifs
  all_goals first | exact .refl _ | exact .of_tasks rfl rfl rfl rfl id

end Notifications

end OphidiaWorkflow
