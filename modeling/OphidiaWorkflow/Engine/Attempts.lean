import OphidiaWorkflow.Engine.AtMostOnce
import OphidiaWorkflow.Engine.Layout

/-!
The attempts of a task: only its own submission, its own failures and a loop that resets it touch them. Any other step
leaves the status of the task alone or ends the task.
-/
namespace OphidiaWorkflow

/-- How many times task `i` has been executed since the beginning of the run, or since its last reset by a loop. -/
def Workflow.attempts (wf : Workflow) (i : Nat) : Nat :=
  Lib.countSince (BEq.beq (Entry.reset i)) (BEq.beq (Entry.started i)) wf.trace

/-- `retry_num`, the counters of the retries and `light_tasks_num`. -/
def Task.counters (t : Task) :=
  (t.retryNum, t.residualRetryNum, t.residualAutoRetryNum, t.isMarkedForAutoRetry, t.lightTasksNum)

theorem Task.counters_eq_iff {t t' : Task} : t'.counters = t.counters ↔ t'.retryNum = t.retryNum ∧
    t'.residualRetryNum = t.residualRetryNum ∧ t'.residualAutoRetryNum = t.residualAutoRetryNum ∧
    t'.isMarkedForAutoRetry = t.isMarkedForAutoRetry ∧ t'.lightTasksNum = t.lightTasksNum := by
  simp only [Task.counters, Prod.mk.injEq]

theorem raiseStatus_tasks (wf : Workflow) (s : JobStatus) : (raiseStatus wf s).tasks = wf.tasks := by
  unfold raiseStatus
  split <;> rfl

/-- The attempts of task `i` are not touched. Unless `own` holds, its status is left alone or becomes terminal, and its
counters are left alone. -/
structure Spared (own : Prop) (i : Nat) (wf wf' : Workflow) : Prop where
  residualRetryNum : (wf'.tasks i).residualRetryNum = (wf.tasks i).residualRetryNum
  status : own ∨ (wf'.tasks i).status = (wf.tasks i).status ∨ (wf'.tasks i).status.Terminal
  counters : own ∨ (wf'.tasks i).counters = (wf.tasks i).counters
  attempts : wf'.attempts i = wf.attempts i

namespace Spared

variable {own : Prop} {i k : Nat} {wf wf' wf'' : Workflow}

theorem refl (own : Prop) (i : Nat) (wf : Workflow) : Spared own i wf wf := ⟨rfl, .inr (.inl rfl), .inr rfl, rfl⟩

theorem trans (h : Spared own i wf wf') (h' : Spared own i wf' wf'') : Spared own i wf wf'' := by
  refine ⟨h'.residualRetryNum.trans h.residualRetryNum, ?_, ?_, h'.attempts.trans h.attempts⟩
  · rcases h'.status with ho | hs | ht
    · exact .inl ho
    · rw [hs]
      exact h.status
    · exact .inr (.inr ht)
  · rcases h'.counters with ho | hc
    · exact .inl ho
    · exact h.counters.imp_right hc.trans

theorem of_tasks (h : wf'.tasks = wf.tasks) (ht : wf'.trace = wf.trace) : Spared own i wf wf' :=
  ⟨by rw [h], .inr (.inl (by rw [h])), .inr (by rw [h]), by rw [Workflow.attempts, ht]; rfl⟩

theorem modify {f : Task → Task} (hc : (f (wf.tasks k)).counters = (wf.tasks k).counters)
    (hs : k = i → own ∨ (f (wf.tasks k)).status = (wf.tasks k).status ∨ (f (wf.tasks k)).status.Terminal) :
    Spared own i wf (wf.modify k f) := by
  refine ⟨?_, ?_, .inr ?_, rfl⟩
  · rw [Workflow.modify_tasks]
    split_ifs with hi
    · rw [hi, (Task.counters_eq_iff.mp hc).2.1]
    · rfl
  · rw [Workflow.modify_tasks]
    split_ifs with hi
    · rw [hi]
      exact hs hi.symm
    · exact .inr (.inl rfl)
  · rw [Workflow.modify_tasks]
    split_ifs with hi
    · rw [hi, hc]
    · rfl

theorem modify_ne (h : k ≠ i) (f : Task → Task) : Spared own i wf (wf.modify k f) := by
  have htask : (wf.modify k f).tasks i = wf.tasks i := Workflow.modify_tasks_ne _ _ h.symm
  exact ⟨by rw [htask], .inr (.inl (by rw [htask])), .inr (by rw [htask]), rfl⟩

theorem modify_own {f : Task → Task} (hr : (f (wf.tasks k)).residualRetryNum = (wf.tasks k).residualRetryNum) :
    Spared (k = i) i wf (wf.modify k f) := by
  rcases eq_or_ne k i with rfl | hk
  · refine ⟨?_, .inl rfl, .inl rfl, rfl⟩
    rw [Workflow.modify_tasks_self, hr]
  · exact modify_ne hk f

theorem setTaskStatus {s : JobStatus} (hs : s.Terminal) : Spared own i wf (wf.setTaskStatus k s) :=
  modify rfl fun _ => .inr (.inr hs)

theorem setTaskStatus_own (s : JobStatus) : Spared (k = i) i wf (wf.setTaskStatus k s) := modify_own rfl

theorem record {e : Entry} (hr : .reset i ≠ e) (hs : .started i ≠ e) : Spared own i wf (wf.record e) := by
  refine ⟨rfl, .inr (.inl rfl), .inr rfl, ?_⟩
  refine (Lib.countSince_cons (beq_eq_false_iff_ne.mpr hr)).trans ?_
  rw [beq_eq_false_iff_ne.mpr hs]
  rfl

theorem countEnded (k : Nat) : Spared own i wf (wf.countEnded k) := by
  have hcount : Spared own i wf { wf with residualTasksNum := wf.residualTasksNum - 1 } := of_tasks rfl rfl
  exact hcount.trans (record Entry.noConfusion Entry.noConfusion)

theorem raiseStatus (s : JobStatus) : Spared own i wf (raiseStatus wf s) := by
  unfold OphidiaWorkflow.raiseStatus
  split
  · exact of_tasks rfl rfl
  · exact refl own i wf

theorem mono {own' : Prop} (h : Spared own i wf wf') (ho : own → own') : Spared own' i wf wf' :=
  ⟨h.residualRetryNum, h.status.imp_left ho, h.counters.imp_left ho, h.attempts⟩

end Spared

section Release

variable {own : Prop} {i : Nat}

theorem setStatus_spared {target : JobStatus} (ht : target.Terminal) (fuel : Nat) (dependents : List Nat)
    (wf : Workflow) : Spared own i wf (setStatus target fuel dependents wf).1 := by
  induction fuel generalizing dependents wf with
  | zero => exact .refl own i wf
  | succ fuel ih =>
    unfold setStatus
    refine Lib.foldWhile_induct (Spared own i wf) (.refl own i wf) fun k _ wf' h => h.trans ?_
    simp only
    split_ifs
    · exact .refl own i wf'
    · exact .refl own i wf'
    · exact (Spared.countEnded k).trans ((Spared.setTaskStatus ht).trans (ih _ _))
    · exact (Spared.setTaskStatus ht).trans (ih _ _)

theorem abortDependents_spared (wf : Workflow) (k : Nat) : Spared own i wf (abortDependents wf k).1 :=
  setStatus_spared (by decide) _ _ wf

theorem addArgument_spared (wf : Workflow) (k : Nat) (key order object : String) :
    Spared own i wf (wf.modify k fun t => t.addArgument key order object) := by
  refine .modify ?_ fun _ => .inr (.inl ?_)
  all_goals
    unfold Task.addArgument
    split <;> rfl

theorem feedArgument_spared (src dst : Nat) (d : Dep) (st : DepLoop) :
    Spared own i st.wf (feedArgument src dst d st).wf := by
  have habort : Spared own i st.wf (abortDependents (st.wf.setTaskStatus dst .aborted) dst).1 :=
    (Spared.setTaskStatus (by decide)).trans (abortDependents_spared _ dst)
  rcases feedArgument_wf src dst d st with h | h | h | ⟨object, h⟩
  · exact h ▸ .refl own i _
  · exact h ▸ habort
  · exact h ▸ habort.trans (.of_tasks rfl rfl)
  · exact h ▸ addArgument_spared _ _ _ _ _

theorem satisfyDep_spared (src dst : Nat) (st : DepLoop) (j : Nat) :
    Spared own i st.wf (satisfyDep src dst st j).1.wf := by
  have hfeed : Spared own i st.wf (feedArgument src dst ((st.wf.tasks dst).deps.getD j default) st).wf :=
    feedArgument_spared src dst _ st
  unfold satisfyDep
  simp only
  split
  · exact .refl own i _
  · split
    · exact hfeed
    · split
      · exact hfeed
      · split
        · exact hfeed.trans (.record Entry.noConfusion Entry.noConfusion)
        · exact hfeed.trans (.modify rfl fun _ => .inr (.inl rfl))

theorem releaseDependents_spared (wf : Workflow) (src : Nat) : Spared own i wf (releaseDependents wf src).wf := by
  unfold releaseDependents
  refine Lib.foldWhile_induct (fun st : DepLoop => Spared own i wf st.wf) (.refl own i wf) fun dst _ st h => ?_
  unfold satisfyDeps
  split
  · refine Lib.foldWhile_induct (fun st : DepLoop => Spared own i wf st.wf) h fun j _ st' h' => ?_
    exact h'.trans (satisfyDep_spared src dst st' j)
  · exact h

end Release

/-! ## Accounting -/

section Account

variable {own : Prop} {i : Nat} (env : NotifyEnv) (ophAutoRetry : Nat) (n : Notification) (k : Nat) (wf : Workflow)

theorem unselect_spared : Spared own i wf (wf.modify k Task.unselect) := by
  have hr : (wf.tasks k).unselect.counters = (wf.tasks k).counters := by
    unfold Task.unselect
    split <;> rfl
  refine .modify hr fun _ => .inr ?_
  unfold Task.unselect
  split
  · exact .inr (by decide : JobStatus.unselected.Terminal)
  · exact .inl rfl

theorem takeOutputs_spared (outputs : List (String × String)) :
    Spared own i wf (wf.modify k (Task.takeOutputs outputs)) := by
  refine .modify ?_ fun _ => .inr (.inl ?_)
  all_goals
    unfold Task.takeOutputs
    split <;> rfl

theorem skip_spared : Spared own i wf (wf.modify k Task.skip) := by
  have hr : (wf.tasks k).skip.counters = (wf.tasks k).counters := by
    unfold Task.skip
    split <;> rfl
  refine .modify hr fun _ => .inr ?_
  unfold Task.skip
  split
  · exact .inr (by decide : JobStatus.skipped.Terminal)
  · exact .inl rfl

theorem saveResponse_spared (json : String) : Spared own i wf (saveResponse wf k json) := by
  unfold saveResponse
  split
  · exact .modify rfl fun _ => .inr (.inl rfl)
  · exact .refl own i wf

theorem checkEnd_spared : Spared own i wf (checkEnd wf).wf := by
  unfold checkEnd
  split
  · exact .refl own i wf
  · split
    · exact .raiseStatus _
    · exact .refl own i wf

theorem accountCompleted_spared (outputs : List (String × String)) :
    Spared own i wf (accountCompleted env wf k outputs).wf := by
  have hcount : Spared own i wf (((wf.modify k Task.unselect).countEnded k).record (.completed k)) :=
    (unselect_spared k wf).trans ((Spared.countEnded k).trans (.record Entry.noConfusion Entry.noConfusion))
  have hrel (wf' : Workflow) : Spared own i wf' (releaseDependents (wf'.modify k (Task.takeOutputs outputs)) k).wf :=
    (takeOutputs_spared k wf' outputs).trans (releaseDependents_spared _ k)
  have hexit (wf' : Workflow) : Spared own i wf' (addExitObject env wf') := .of_tasks rfl rfl
  unfold accountCompleted
  simp only
  split
  · exact hcount
  · split
    · exact hcount.trans (hrel _)
    · exact (hcount.trans (hrel _)).trans ((hexit _).trans (checkEnd_spared _))

theorem accountContinue_spared : Spared own i wf (accountContinue wf k).wf := by
  have habort : Spared own i wf (abortDependents (wf.countEnded k) k).1 :=
    (Spared.countEnded k).trans (abortDependents_spared _ k)
  unfold accountContinue
  simp only
  split
  · exact habort
  · split
    · exact habort.trans (.raiseStatus _)
    · exact habort

variable {k} in
theorem accountRetry_spared (h : k ≠ i) : Spared own i wf (accountRetry ophAutoRetry wf k).wf := by
  have hmod (wf : Workflow) (f : Task → Task) : Spared own i wf (wf.modify k f) := .modify_ne h f
  have hset (wf : Workflow) (s : JobStatus) : Spared own i wf (wf.setTaskStatus k s) := hmod wf _
  unfold accountRetry
  simp only
  split
  · exact (hmod _ _).trans (hset _ _)
  · split
    · exact ((hmod _ _).trans (hmod _ _)).trans (hset _ _)
    · exact ((hmod _ _).trans (hmod _ _)).trans ((Spared.countEnded k).trans (.of_tasks rfl rfl))

theorem beforeAccount_spared : Spared own i wf ((saveResponse wf k n.outputJson).modify k Task.skip) :=
  (saveResponse_spared k wf _).trans (skip_spared k _)

variable {n} in
theorem account_spared (outputs : List (String × String)) (s : JobStatus) (h : n.taskIndex ≠ i) :
    Spared own i wf (account ophAutoRetry env n outputs wf s).wf := by
  have hskip : Spared own i wf _ := beforeAccount_spared n n.taskIndex wf
  unfold account
  simp only
  split
  · exact .refl own i wf
  · split
    · exact .refl own i wf
    · split
      · exact hskip.trans (accountCompleted_spared env _ _ outputs)
      · split
        · exact hskip.trans (accountContinue_spared _ _)
        · split
          · exact hskip
          · exact hskip.trans (accountRetry_spared ophAutoRetry _ h)

theorem conclude_spared (v : Verdict) : Spared own i v.wf (conclude env k v).1 := by
  unfold conclude finalise
  split_ifs
  all_goals first
    | exact .refl own i _
    | exact .of_tasks rfl rfl

end Account

/-! ## Notifications -/

section Notify

variable {own : Prop} {i : Nat} (ophAutoRetry : Nat) (env : NotifyEnv) (n : Notification) (wf : Workflow)
  (status : JobStatus)

theorem lightOver_spared (k j : Nat) (outputs : List (String × String)) :
    Spared (k = i) i wf (lightOver wf k j status outputs).wf := by
  have hcount : Spared (k = i) i wf ((wf.modify k (Task.countLight status outputs)).record (.endedLight k j)) :=
    (Spared.modify_own rfl).trans (.record Entry.noConfusion Entry.noConfusion)
  unfold lightOver
  split
  · exact .refl _ i wf
  · simp only
    split
    · exact hcount.trans (.setTaskStatus_own _)
    · exact hcount

theorem toRunning_spared (k : Nat) : Spared (k = i) i wf (wf.modify k Task.toRunning) := by
  refine .modify_own ?_
  unfold Task.toRunning
  split <;> rfl

theorem writeLight_spared (j : Nat) : Spared (n.taskIndex = i) i wf (writeLight ophAutoRetry wf n j) := by
  have hset : Spared (n.taskIndex = i) i wf
      (wf.modify n.taskIndex fun t => t.modifyLight j fun l => { l with status := n.status }) := .modify_own rfl
  have hmark (wf' : Workflow) :
      Spared (n.taskIndex = i) i wf' (wf'.modify n.taskIndex (Task.markForAutoRetry ophAutoRetry)) := by
    refine .modify_own ?_
    unfold Task.markForAutoRetry
    split <;> rfl
  unfold writeLight
  split
  · exact hset.trans ((hmark _).trans ((toRunning_spared _ _).trans (.raiseStatus _)))
  · exact hset

theorem markAutoRetry_residualRetryNum (s : JobStatus) (t : Task) :
    (markAutoRetry ophAutoRetry s t).1.residualRetryNum = t.residualRetryNum := by
  unfold markAutoRetry
  split_ifs <;> rfl

theorem updateStatus_spared : Spared (n.taskIndex = i) i wf (updateStatus ophAutoRetry env n wf status).wf := by
  unfold updateStatus
  split
  case h_1 j _ =>
    have hwrite : Spared (n.taskIndex = i) i wf (writeLight ophAutoRetry wf n j) :=
      writeLight_spared ophAutoRetry n wf j
    unfold notifyLight
    simp only
    split
    · exact hwrite
    · split
      · exact hwrite.trans (lightOver_spared _ status _ j n.outputs)
      · split
        · exact hwrite.trans ((toRunning_spared _ _).trans (.raiseStatus _))
        · exact hwrite
  · have hset : Spared (n.taskIndex = i) i wf (wf.modify n.taskIndex fun _ =>
        (markAutoRetry ophAutoRetry n.status { wf.tasks n.taskIndex with status := n.status }).1) :=
      .modify_own (markAutoRetry_residualRetryNum ophAutoRetry n.status _)
    unfold notifyTask
    simp only
    split
    · exact hset
    · split
      · exact hset
      · split
        · exact hset.trans (.raiseStatus _)
        · exact hset

/-- A notification that is refused or neglected at most saves a response or drops the workflow. -/
theorem notify_of_not_processed {n : Notification} {wf : Workflow} (h : n.processed wf = none) :
    (notify ophAutoRetry env n wf).2 = [] ∧
      ((notify ophAutoRetry env n wf).1 = wf ∨ (∃ s, (notify ophAutoRetry env n wf).1 = internalResponse wf n s) ∨
        (notify ophAutoRetry env n wf).1 = { wf with dropped := true }) := by
  unfold Notification.processed at h
  unfold notify
  cases hn : n.status.notified with
  | none => exact ⟨rfl, .inl rfl⟩
  | some s =>
    rw [hn] at h
    simp only at h ⊢
    split at h
    case isFalse hpass => cases h
    case isTrue hrefused =>
      split
      · exact ⟨rfl, .inl rfl⟩
      · split
        · exact ⟨rfl, .inr (.inl ⟨s, rfl⟩)⟩
        · split
          · split
            · exact ⟨rfl, .inl rfl⟩
            · exact ⟨rfl, .inr (.inr rfl)⟩
          · split
            · exact ⟨rfl, .inl rfl⟩
            case isFalse hd hr hc he =>
              rcases hrefused with hd' | hr' | hc' | he'
              · exact absurd hd' hd
              · exact absurd hr' hr
              · exact absurd hc' hc
              · exact absurd he' he

theorem notify_spared_of_not_processed {n : Notification} {wf : Workflow} (h : n.processed wf = none) :
    Spared own i wf (notify ophAutoRetry env n wf).1 := by
  obtain ⟨-, hwf | ⟨s, hwf⟩ | hwf⟩ := notify_of_not_processed ophAutoRetry env h
  · rw [hwf]
    exact .refl own i wf
  · rw [hwf]
    exact .modify rfl fun _ => .inr (.inl rfl)
  · rw [hwf]
    exact .of_tasks rfl rfl

variable {n} in
theorem notify_spared (h : n.taskIndex ≠ i) : Spared own i wf (notify ophAutoRetry env n wf).1 := by
  cases hp : n.processed wf with
  | none => exact notify_spared_of_not_processed ophAutoRetry env hp
  | some status =>
    rcases notify_cases ophAutoRetry env wf n with ⟨s, -, -, heq⟩ | ⟨hnone, -, -⟩
    · have hu : Spared own i wf (updateStatus ophAutoRetry env n wf s).wf :=
        (updateStatus_spared ophAutoRetry env n wf s).mono fun hi => absurd hi h
      rw [heq]
      unfold settle
      split
      · exact hu
      · split
        · exact hu
        · exact hu.trans ((account_spared env ophAutoRetry _ _ _ h).trans (conclude_spared env _ _))
    · rw [hp] at hnone
      cases hnone

end Notify

/-! ## Execution -/

section Execution

variable {i : Nat} (ophAutoRetry : Nat) (env : ExecEnv) (k : Nat) (wf : Workflow)

theorem submissionFailed_spared {own : Prop} : Spared own i wf (submissionFailed wf k).1 :=
  (Spared.setTaskStatus (by decide)).trans (abortDependents_spared _ k)

theorem executeLight_spared (retry : Bool) (j : Nat) : Spared (k = i) i wf (executeLight env k retry wf j).1 := by
  have hlight (wf : Workflow) (f : LightTask → LightTask) :
      Spared (k = i) i wf (wf.modify k fun t => t.modifyLight j f) := .modify_own rfl
  have hfail (wf : Workflow) : Spared (k = i) i wf (lightFailed wf k j).1 := hlight wf _
  unfold executeLight
  simp only
  split
  · split
    · exact .refl _ i wf
    · exact hfail wf
  · split
    · exact hfail wf
    · split
      · exact (hlight wf _).trans (hfail _)
      · split
        · exact (hlight wf _).trans (hfail _)
        · exact ((hlight wf _).trans (hlight _ _)).trans (.record Entry.noConfusion Entry.noConfusion)

theorem executeLights_spared (retry : Bool) : Spared (k = i) i wf (executeLights env k retry wf).1 := by
  unfold executeLights
  refine Lib.foldOut_induct (fun wf' _ => Spared (k = i) i wf wf') (.refl _ i wf) fun j _ wf' _ h => ?_
  exact h.trans (executeLight_spared env k wf' retry j)

theorem finishMassive_spared (s : JobStatus) : Spared (k = i) i wf (finishMassive env wf k s).1 := by
  unfold finishMassive
  split
  · exact .setTaskStatus_own s
  · simp only
    apply Spared.modify_own
    rfl

theorem submitTask_spared (remake : Bool) : Spared (k = i) i wf (submitTask ophAutoRetry env wf k remake).1 := by
  unfold submitTask
  split
  · exact submissionFailed_spared k wf
  case h_2 id _ =>
    have hid : Spared (k = i) i wf (wf.modify k fun t => { t with idjob := (id : Nat) }) := .modify_own rfl
    simp only
    split
    · exact hid.trans (submissionFailed_spared k _)
    · split
      · exact (hid.trans (executeLights_spared env k _ _)).trans (.setTaskStatus_own _)
      · exact hid.trans (.setTaskStatus_own _)

theorem submitMassive_spared : Spared (k = i) i wf (submitMassive ophAutoRetry env wf k).1 := by
  have hcheck : Spared (k = i) i wf (wf.modify k fun _ =>
      (checkForMassiveOperation ophAutoRetry (env.massive k) (wf.tasks k)).1) := by
    refine .modify_own ?_
    unfold checkForMassiveOperation
    split_ifs
    · rfl
    · rfl
    · rfl
    · split <;> rfl
  unfold submitMassive
  simp only
  split
  · exact hcheck.trans (submitTask_spared ophAutoRetry env k _ _)
  · exact hcheck.trans (finishMassive_spared env k _ _)
  · exact hcheck.trans (finishMassive_spared env k _ _)

/-- Apart from its start, which is recorded first. -/
theorem startTask_spared : Spared (k = i) i (wf.record (.started k)) (startTask ophAutoRetry env wf k).1 := by
  have hprep : Spared (k = i) i (wf.record (.started k))
      ((wf.record (.started k)).modify k (Task.prepare (env.markerid k none))) := by
    refine .modify_own ?_
    unfold Task.prepare
    simp only
    split
    · split <;> rfl
    · rfl
  unfold startTask
  simp only
  split
  · exact hprep.trans (submissionFailed_spared k _)
  · split
    · exact hprep.trans (submissionFailed_spared k _)
    · split
      · exact hprep.trans (submitMassive_spared ophAutoRetry env k _)
      · exact hprep.trans (submitTask_spared ophAutoRetry env k _ _)

/-- The counters of a task without light tasks are left alone. -/
def CountersKept (i : Nat) (wf wf' : Workflow) : Prop :=
  (wf'.tasks i).lightTasksNum = 0 → (wf'.tasks i).counters = (wf.tasks i).counters

theorem CountersKept.trans {wf wf' wf'' : Workflow} (h : CountersKept i wf wf') (h' : CountersKept i wf' wf'') :
    CountersKept i wf wf'' := by
  intro hn
  have hc := h' hn
  exact hc.trans (h ((Task.counters_eq_iff.mp hc).2.2.2.2 ▸ hn))

theorem CountersKept.modify {wf : Workflow} {f : Task → Task}
    (hf : (f (wf.tasks i)).lightTasksNum = 0 → (f (wf.tasks i)).counters = (wf.tasks i).counters) :
    CountersKept i wf (wf.modify i f) := by
  unfold CountersKept
  rw [Workflow.modify_tasks_self]
  exact hf

theorem CountersKept.setTaskStatus (s : JobStatus) : CountersKept i wf (wf.setTaskStatus i s) := modify fun _ => rfl

theorem Spared.countersKept {wf wf' : Workflow} (h : Spared False i wf wf') : CountersKept i wf wf' :=
  fun _ => h.counters.resolve_left id

theorem finishMassive_countersKept (s : JobStatus) : CountersKept i wf (finishMassive env wf i s).1 := by
  unfold finishMassive
  split
  · exact .setTaskStatus wf s
  · simp only
    apply CountersKept.modify
    exact fun _ => rfl

theorem submitTask_countersKept (remake : Bool) : CountersKept i wf (submitTask ophAutoRetry env wf i remake).1 := by
  unfold submitTask
  split
  · exact (submissionFailed_spared i wf).countersKept
  case h_2 id _ =>
    have hid : CountersKept i wf (wf.modify i fun t => { t with idjob := (id : Nat) }) := .modify fun _ => rfl
    simp only
    split
    · exact hid.trans (submissionFailed_spared i _).countersKept
    · split
      case isTrue hlights =>
        -- a massive operation: its light tasks stay
        intro hn
        have hsteady := (executeLights_steady env i ((((wf.modify i fun t => { t with idjob := (id : Nat) }).tasks
          i).autoRetry ophAutoRetry) || ((wf.modify i fun t => { t with idjob := (id : Nat) }).tasks i).manualRetry)
          (wf.modify i fun t => { t with idjob := (id : Nat) })).task i
        have hkept := (Task.core_eq_iff.mp hsteady).2.2.2.2.2.2.1
        rw [Workflow.setTaskStatus, Workflow.modify_tasks_self] at hn
        exact absurd (hkept.symm.trans hn) hlights
      · exact hid.trans (.setTaskStatus _ _)

theorem submitMassive_countersKept : CountersKept i wf (submitMassive ophAutoRetry env wf i).1 := by
  have hcheck : CountersKept i wf (wf.modify i fun _ =>
      (checkForMassiveOperation ophAutoRetry (env.massive i) (wf.tasks i)).1) := by
    refine .modify ?_
    unfold checkForMassiveOperation
    split_ifs with hretry hlights hsome
    · exact fun _ => rfl
    · exact fun _ => rfl
    · exact fun _ => rfl
    · rw [not_ne_iff] at hlights
      split
      · exact fun _ => rfl
      · exact fun _ => rfl
      · intro hn
        simp only [Task.counters, hlights] at hn ⊢
        rw [hn]
      · exact fun _ => rfl
      · exact fun _ => rfl
  unfold submitMassive
  simp only
  split
  · exact hcheck.trans (submitTask_countersKept ophAutoRetry env _ _)
  · exact hcheck.trans (finishMassive_countersKept env _ _)
  · exact hcheck.trans (finishMassive_countersKept env _ _)

theorem startTask_countersKept : CountersKept i wf (startTask ophAutoRetry env wf i).1 := by
  have hprep : CountersKept i wf ((wf.record (.started i)).modify i (Task.prepare (env.markerid i none))) := by
    refine .modify fun _ => ?_
    unfold Task.prepare
    simp only
    split
    · split <;> rfl
    · rfl
  unfold startTask
  simp only
  split
  · exact hprep.trans (submissionFailed_spared i _).countersKept
  · split
    · exact hprep.trans (submissionFailed_spared i _).countersKept
    · split
      · exact hprep.trans (submitMassive_countersKept ophAutoRetry env _)
      · exact hprep.trans (submitTask_countersKept ophAutoRetry env _ _)

end Execution

/-! ## Flow control -/

section Flow

variable {own : Prop} {i : Nat} {wf wf' wf'' : Workflow}

/-- The fields of a task that its retries are about. -/
def Task.retryView (t : Task) := (t.counters, t.status)

theorem Task.retryView_eq_iff {t t' : Task} :
    t'.retryView = t.retryView ↔ t'.counters = t.counters ∧ t'.status = t.status := by
  simp only [Task.retryView, Prod.mk.injEq]

/-- The counters of a task that has not been executed yet. -/
def Task.freshCounters (t : Task) := (t.retryNum, t.retryNum, (0 : Int), false, 0)

/-- A new iteration gives task `i` all its attempts back. -/
structure Refilled (i : Nat) (wf wf' : Workflow) : Prop where
  status : (wf.tasks i).status ≠ .unknown
  view : (wf'.tasks i).retryView = ((wf.tasks i).freshCounters, .unknown)
  attempts : wf'.attempts i = 0

/-- What the operator that closes a loop may do to task `i`. -/
def RefilledOr (i : Nat) (wf wf' : Workflow) : Prop :=
  ((wf'.tasks i).retryView = (wf.tasks i).retryView ∧ wf'.attempts i = wf.attempts i) ∨ Refilled i wf wf'

namespace RefilledOr

theorem of_tasks (h : wf'.tasks = wf.tasks) (ht : wf'.trace = wf.trace) : RefilledOr i wf wf' :=
  .inl ⟨by rw [h], by rw [Workflow.attempts, ht]; rfl⟩

theorem modify {k : Nat} {f : Task → Task} (hf : (f (wf.tasks k)).retryView = (wf.tasks k).retryView) :
    RefilledOr i wf (wf.modify k f) := by
  refine .inl ⟨?_, rfl⟩
  rw [Workflow.modify_tasks]
  split_ifs with hi
  · rw [hi, hf]
  · rfl

theorem trans (h : RefilledOr i wf wf') (h' : RefilledOr i wf' wf'') : RefilledOr i wf wf'' := by
  rcases h with ⟨hv, ha⟩ | hr
  · obtain ⟨hc, hs⟩ := Task.retryView_eq_iff.mp hv
    have hn := (Task.counters_eq_iff.mp hc).1
    rcases h' with ⟨hv', ha'⟩ | hr'
    · exact .inl ⟨hv'.trans hv, ha'.trans ha⟩
    · exact .inr ⟨hs ▸ hr'.status, by rw [hr'.view, Task.freshCounters, hn, Task.freshCounters], hr'.attempts⟩
  · rcases h' with ⟨hv', ha'⟩ | hr'
    · exact .inr ⟨hr.status, hv'.trans hr.view, ha'.trans hr.attempts⟩
    · exact absurd (congrArg Prod.snd hr.view) hr'.status

end RefilledOr

theorem resetVisit_refilledOr {frame : Frame} {s t : Workflow × Nat} {k : Nat} (h : resetVisit frame s k = some t) :
    RefilledOr i s.1 t.1 := by
  unfold resetVisit at h
  split at h
  · cases h
  case isFalse hk =>
    cases h
    rcases eq_or_ne k i with rfl | hki
    · refine .inr ⟨hk, ?_, Lib.countSince_cons_boundary (beq_self_eq_true _)⟩
      simp [Workflow.record, Task.retryView, Task.counters, Task.freshCounters, Task.reset]
    · have hrec : Spared False i (s.1.modify k (Task.reset (frame.tasks k)))
          ((s.1.modify k (Task.reset (frame.tasks k))).record (.reset k)) :=
        .record (by simpa using hki.symm) Entry.noConfusion
      refine .inl ⟨?_, hrec.attempts⟩
      simp [Workflow.record, hki.symm]

theorem newIteration_refilledOr (wf : Workflow) (p k : Nat) (frame : Frame) :
    RefilledOr i wf (newIteration wf p k frame) := by
  have htasks : RefilledOr i wf (resetTask k frame (wf.tasksNum + 1) (wf.tasks p).dependentsIndexes (wf, 0)).1 := by
    unfold resetTask
    refine Lib.traverse_induct (fun t : Workflow × Nat => RefilledOr i wf t.1) (fun t a u ht hu => ?_) _ _
      (.of_tasks rfl rfl)
    exact ht.trans (resetVisit_refilledOr hu)
  have hreset : RefilledOr i wf (resetBody wf p k frame) := htasks.trans (.of_tasks rfl rfl)
  have hdisable : RefilledOr i (resetBody wf p k frame) (disableBody (resetBody wf p k frame) p k) := by
    refine Lib.traverse_induct (RefilledOr i (resetBody wf p k frame)) (fun wf' a wf'' h hv => h.trans ?_) _ _
      (.of_tasks rfl rfl)
    unfold disableVisit at hv
    split at hv
    · cases hv
    · cases hv
      exact .modify rfl
  exact (hreset.trans hdisable).trans (.modify rfl)

theorem endforImpl_refilledOr (wf : Workflow) (k : Nat) : RefilledOr i wf (endforImpl wf k).1 := by
  unfold endforImpl
  split
  · exact .of_tasks rfl rfl
  case h_2 frame _ =>
    have hadv : RefilledOr i wf (advance wf frame) := .of_tasks rfl rfl
    have hbind : RefilledOr i wf (rebind wf frame) := .of_tasks rfl rfl
    have hleave : RefilledOr i wf (leaveLoop wf k frame) :=
      (hadv.trans (.modify rfl : RefilledOr i _ ((advance wf frame).modify k Task.setParallel))).trans
        (.of_tasks rfl rfl)
    split
    · exact .of_tasks rfl rfl
    · split
      · exact hbind.trans (newIteration_refilledOr _ frame.caller k frame)
      · exact hleave

theorem selectDependent_spared {rec : Nat → Workflow → Workflow × Bool} {status : JobStatus} (hs : status.Terminal)
    (hrec : ∀ k wf, Spared own i wf (rec k wf).1) (parent : Nat) (skipTheNext : Bool) (taskIndex nk : Nat)
    (wf : Workflow) (k : Nat) :
    Spared own i wf (selectDependent rec status parent skipTheNext taskIndex nk wf k).1 := by
  have hmod (wf : Workflow) (m : Nat) {f : Task → Task} (hf : ∀ t : Task, (f t).retryView = t.retryView) :
      Spared own i wf (wf.modify m f) := by
    obtain ⟨hc, hs⟩ := Task.retryView_eq_iff.mp (hf (wf.tasks m))
    exact .modify hc fun _ => .inr (.inl hs)
  have hdep (wf : Workflow) (m v : Nat) : Spared own i wf (wf.modify m (Task.setDependent nk v)) :=
    hmod _ _ fun _ => rfl
  have hdrop (t : Task) (a b : Nat) : ((t.dropDep a).redirect a b).retryView = t.retryView := by
    unfold Task.dropDep
    split <;> rfl
  have hcount (wf : Workflow) (m : Nat) : Spared own i wf (wf.countUnselected m) := by
    unfold Workflow.countUnselected
    split
    · exact .of_tasks rfl rfl
    · exact .refl own i wf
  unfold selectDependent
  simp only
  split
  · split
    · exact hmod _ _ fun _ => rfl
    · split
      · exact (hdep _ _ _).trans (hmod _ _ fun t => hdrop t _ _)
      · exact (hdep _ _ _).trans (hmod _ _ fun _ => rfl)
  · split
    · exact ((hdep _ _ _).trans (hdep _ _ _)).trans (hmod _ _ fun t => hdrop t _ _)
    · split
      · exact .refl own i wf
      · exact ((hcount _ _).trans (.setTaskStatus hs)).trans (hrec _ _)

theorem skipBranch_spared (wf : Workflow) (k : Nat) (skipTheNext : Bool) :
    Spared own i wf (skipBranch wf k skipTheNext) := by
  have hblock (fuel taskIndex : Nat) (wf : Workflow) : Spared own i wf
      (setStatusOfSelectionBlock .unselected k skipTheNext 0 fuel taskIndex wf).1 := by
    induction fuel generalizing taskIndex wf with
    | zero => exact .refl own i wf
    | succ fuel ih =>
      unfold setStatusOfSelectionBlock
      refine Lib.foldWhile_induct (Spared own i wf) (.refl own i wf) fun m _ wf' h => h.trans ?_
      exact selectDependent_spared (by decide) ih k skipTheNext taskIndex 0 wf' m
  exact hblock _ k wf

theorem ifImpl_spared (wf : Workflow) (k : Nat) (answer : Option Bool) : Spared own i wf (ifImpl wf k answer).1 := by
  have hskip (wf' : Workflow) (b : Bool) : Spared own i wf' (wf'.modify k (Task.setSkipped b)) :=
    .modify rfl fun _ => .inr (.inl rfl)
  unfold ifImpl
  split
  · exact skipBranch_spared wf k true
  · split
    · exact .refl own i wf
    · exact ((hskip _ _).trans (skipBranch_spared _ _ _)).trans (hskip _ _)
    · refine ⟨?_, .inr (.inl ?_), .inr ?_, rfl⟩
      all_goals
        simp only
        split <;> rfl

theorem elseImpl_spared (wf : Workflow) (k : Nat) : Spared own i wf (elseImpl wf k) := by
  unfold elseImpl
  split
  · exact skipBranch_spared wf k false
  · exact .refl own i wf

theorem forImpl_spared (wf : Workflow) (k : Nat) (args : Option ForArgs) : Spared own i wf (forImpl wf k args).1 := by
  have hsize (name : String) (n : Nat) : Spared own i wf (insertSize wf name n) := by
    unfold insertSize
    split
    · exact .refl own i wf
    · exact .of_tasks rfl rfl
  unfold forImpl
  split
  · exact .refl own i wf
  · split
    · exact .refl own i wf
    · split
      · exact .refl own i wf
      · split
        · exact .refl own i wf
        · simp only
          split
          · exact hsize _ _
          · exact (hsize _ _).trans (.of_tasks rfl rfl)

theorem setVars_spared (wf : Workflow) (vars : List (String × Var)) : Spared own i wf (setVars wf vars) := by
  unfold setVars
  induction vars generalizing wf with
  | nil => exact .refl own i wf
  | cons p l ih =>
    have hins : Spared own i wf (wf.insertVar p.1 p.2) := .of_tasks rfl rfl
    exact hins.trans (ih _)

/-- The task whose status is written by a WAIT operator, or by an input for it. -/
def ServeEnv.writes (env : ServeEnv) (wf : Workflow) (r : Request) : Option Nat :=
  match (wf.tasks r.taskId).operator with
  | .wait => some r.taskId
  | .input => env.waitTarget
  | _ => none

/-- The status of task `i` has been written, and nothing else of it: it is not `UNKNOWN`. -/
structure Written (i : Nat) (wf wf' : Workflow) : Prop where
  spared : Spared True i wf wf'
  status : (wf'.tasks i).status ≠ .unknown
  counters : (wf'.tasks i).counters = (wf.tasks i).counters

theorem waitImpl_written (wf : Workflow) (k : Nat) (vars : List (String × Var)) :
    Spared False i wf (waitImpl wf k vars) ∨ (k = i ∧ Written i wf (waitImpl wf k vars)) := by
  have hvars (own : Prop) :
      Spared own i wf (vars.foldl (fun wf p => if (wf.vars p.1).isSome then wf else wf.insertVar p.1 p.2) wf) := by
    induction vars generalizing wf with
    | nil => exact .refl own i wf
    | cons p l ih =>
      refine Spared.trans ?_ (ih _)
      simp only
      split
      · exact .refl own i wf
      · exact .of_tasks rfl rfl
  rcases eq_or_ne k i with rfl | hk
  · refine .inr ⟨rfl, ((hvars True).trans (.modify rfl fun _ => .inl trivial)).trans (.raiseStatus _), ?_, ?_⟩
    · rw [waitImpl, raiseStatus_tasks, Workflow.setTaskStatus, Workflow.modify_tasks_self]
      exact JobStatus.noConfusion
    · rw [waitImpl, raiseStatus_tasks, Workflow.setTaskStatus, Workflow.modify_tasks_self]
      exact (hvars False).counters.resolve_left id
  · exact .inl (((hvars False).trans (.modify_ne hk _)).trans (.raiseStatus _))

theorem inputAction_written (wf : Workflow) (target : Option Nat) (action : JobStatus) :
    Spared False i wf (inputAction wf target action) ∨
      (target = some i ∧ Written i wf (inputAction wf target action)) := by
  unfold inputAction
  split
  · exact .inl (.refl False i wf)
  case h_2 k =>
    split
    case isFalse h => exact .inl (.refl False i wf)
    case isTrue h =>
      rcases eq_or_ne k i with rfl | hk
      · refine .inr ⟨rfl, .modify rfl fun _ => .inl trivial, fun hu => ?_, ?_⟩
        · rw [Workflow.setTaskStatus, Workflow.modify_tasks_self] at hu
          subst hu
          exact absurd h.2 (Nat.not_lt_zero _)
        · rw [Workflow.setTaskStatus, Workflow.modify_tasks_self]
          rfl
      · exact .inl (.modify_ne hk _)

theorem serve_attempts (env : ServeEnv) (r : Request) (wf : Workflow) :
    Spared False i wf (serve env r wf).1 ∨ Refilled i wf (serve env r wf).1 ∨
      (env.writes wf r = some i ∧ Written i wf (serve env r wf).1) := by
  rcases serve_fst env r wf with hs | hs
  · rw [hs]
    exact .inl (.refl False i wf)
  rw [hs]
  have hrefill {wf' : Workflow} (h : RefilledOr i wf wf') : Spared False i wf wf' ∨ Refilled i wf wf' ∨
      (env.writes wf r = some i ∧ Written i wf wf') := by
    rcases h with ⟨hv, ha⟩ | hr
    · obtain ⟨hc, hs⟩ := Task.retryView_eq_iff.mp hv
      exact .inl ⟨(Task.counters_eq_iff.mp hc).2.1, .inr (.inl hs), .inr hc, ha⟩
    · exact .inr (.inl hr)
  unfold serveOperator
  simp only
  split
  · exact .inl (.refl False i wf)
  · split
    · exact .inl (.refl False i wf)
    · split
      · exact .inl (.refl False i wf)
      · exact .inl (setVars_spared wf _)
    case h_3 hop =>
      split
      · exact .inl (.refl False i wf)
      · have hset (own : Prop) : Spared own i wf (setVars wf env.vars) := setVars_spared wf env.vars
        split
        · exact .inl (hset False)
        · rcases inputAction_written (setVars wf env.vars) env.waitTarget env.waitAction with h | ⟨ht, hw, hne, hc⟩
          · exact .inl ((hset False).trans h)
          · exact .inr (.inr ⟨by simp [ServeEnv.writes, hop, ht], (hset True).trans hw, hne,
              hc.trans ((hset False).counters.resolve_left id)⟩)
    case h_4 hop =>
      split
      · exact .inl (.refl False i wf)
      · rcases waitImpl_written wf r.taskId env.vars with h | ⟨hk, hw⟩
        · exact .inl h
        · refine .inr (.inr ⟨?_, hw⟩)
          simp only [ServeEnv.writes, hop]
          exact congrArg some hk
    · split
      · exact .inl (.refl False i wf)
      · exact .inl (forImpl_spared wf _ _)
    · have hend : RefilledOr i wf (endforImpl wf r.taskId).1 := endforImpl_refilledOr wf r.taskId
      split
      case h_1 heq =>
        rw [heq] at hend
        exact hrefill hend
      case h_2 heq =>
        rw [heq] at hend
        exact hrefill hend
      case h_3 heq =>
        rw [heq] at hend
        exact hrefill hend
    · split
      · exact .inl (.refl False i wf)
      · exact .inl (ifImpl_spared wf _ _)
    · split
      · exact .inl (.refl False i wf)
      · exact .inl (ifImpl_spared wf _ _)
    · split
      · exact .inl (.refl False i wf)
      · exact .inl (elseImpl_spared wf _)
    · exact .inl (.refl False i wf)

end Flow

end OphidiaWorkflow
