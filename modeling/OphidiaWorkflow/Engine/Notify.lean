import OphidiaWorkflow.Engine.Execute

/-!
`oph_workflow_notify`: the status of a task or of a light task is updated and, when a task is over, its dependents are
released, the task is retried or the workflow is ended.
-/
namespace OphidiaWorkflow

/-- Answers to `oph_workflow_notify`: a JSON Response that is missing and cannot be saved, an unreachable OphidiaDB, an
output that the exit action of the task selects for the final operation. -/
structure NotifyEnv where
  saveFails : Bool := false
  dbFails : Bool := false
  exitObject : Bool := false
  deriving DecidableEq, Repr

/-- The new status for the workflow; `none` for a wrong status code. -/
def JobStatus.notified : JobStatus → Option JobStatus
  | pending => some pending
  | running | start | setEnv | init | distribute | execute | reduce | destroy | unsetEnv | wait => some running
  | completed | unselected => some completed
  | unknown => none
  | _ => some error

/-- Option 'file' has the priority: the value of 'cube' is overwritten, or added. -/
def fileAsCube (outputs : List (String × String)) : List (String × String) :=
  match outputs.find? fun p => p.1 == "file" with
  | none => outputs
  | some p =>
    match outputs.findIdx? fun q => q.1 == "cube" with
    | none => outputs ++ [("cube", p.2)]
    | some j => outputs.modify j fun q => (q.1, p.2)

/-- The outputs of a child are appended to those of the task. -/
def mergeOutputs (old new : List (String × String)) : List (String × String) :=
  if old.isEmpty then new
  else if old.length ≠ new.length then old
  else List.zipWith (fun o p => if o.1 = p.1 then (o.1, o.2 ++ "|" ++ p.2) else o) old new

/-! ## Dependences -/

/-- `oph_workflow_add_to_list` -/
def addToList (key object : String) : List (String × String) → List (String × String)
  | [] => [(key, object)]
  | c :: l => if key < c.1 then (key, object) :: c :: l else c :: addToList key object l

/-- An output of a parent is queued for the argument of a dependent task, which is added to the others if it is missing. -/
def Task.addArgument (t : Task) (key order object : String) : Task :=
  match t.arguments.findIdx? fun a => a.key == key with
  | none => { t with arguments := t.arguments ++ [{ key := key, list := [(order, object)] }] }
  | some k =>
    { t with arguments := t.arguments.modify k fun a => { a with list := addToList order object a.list } }

/-- State of the loop over the dependences: `constraint` is `check_for_constraint`. -/
structure DepLoop where
  wf : Workflow
  constraint : Bool := false
  failed : Bool := false

/-- The task `src` completed by the notification has more outputs than a dependence of type `single` admits. -/
def violatesSingle (wf : Workflow) (src dst : Nat) (d : Dep) : Bool :=
  (wf.tasks src).lightTasksNum > 1 && d.type = .single && !(wf.tasks dst).retryNum < 0

/-- The output that dependence `d` asks for is queued for the argument of `dst`, unless the dependence does not admit
it. -/
def feedArgument (src dst : Nat) (d : Dep) (st : DepLoop) : DepLoop :=
  if d.type = .embedded then st
  else
    match (st.wf.tasks src).outputs.find? fun p => p.1 == d.outputArgument with
    | none => st
    | some p =>
      if violatesSingle st.wf src dst d then
        let (wf, ok) := abortDependents (st.wf.setTaskStatus dst .aborted) dst
        if ok then { wf := { wf with status := .error }, constraint := true, failed := false }
        else { wf := wf, constraint := st.constraint, failed := true }
      -- `oph_realloc_vector` refuses a vector that has not been allocated
      else if (st.wf.tasks dst).arguments = [] then { st with failed := true }
      else { st with wf := st.wf.modify dst fun t => t.addArgument d.argument d.order p.2 }

theorem feedArgument_wf (src dst : Nat) (d : Dep) (st : DepLoop) :
    (feedArgument src dst d st).wf = st.wf ∨
      (feedArgument src dst d st).wf = (abortDependents (st.wf.setTaskStatus dst .aborted) dst).1 ∨
      (feedArgument src dst d st).wf =
        { (abortDependents (st.wf.setTaskStatus dst .aborted) dst).1 with status := .error } ∨
      ∃ object, (feedArgument src dst d st).wf =
        st.wf.modify dst fun t => t.addArgument d.argument d.order object := by
  unfold feedArgument
  split
  · exact .inl rfl
  · split
    · exact .inl rfl
    · split
      · simp only
        split
        · exact .inr (.inr (.inl rfl))
        · exact .inr (.inl rfl)
      · split
        · exact .inl rfl
        · exact .inr (.inr (.inr ⟨_, rfl⟩))

/-- The dependence is marked as satisfied. -/
def Task.markDep (j : Nat) (t : Task) : Task := { t.setTaskIndex j (-1) with residualDepsNum := t.residualDepsNum - 1 }

/-- Dependence `j` of task `dst` on the completed task `src`; answers `false` to leave the inner loop. -/
def satisfyDep (src dst : Nat) (st : DepLoop) (j : Nat) : DepLoop × Bool :=
  let d := (st.wf.tasks dst).deps.getD j default
  if d.taskIndex ≠ (src : Int) then (st, true)
  else
    let st := feedArgument src dst d st
    if st.failed then (st, false)
    else if d.type ≠ .embedded ∧ st.constraint then (st, false)
    else if (st.wf.tasks dst).residualDepsNum = 0 then
      ({ st with wf := st.wf.record (.tooDependencies dst), failed := true }, false)
    else ({ st with wf := st.wf.modify dst (Task.markDep j) }, true)

/-- The inner loop; a return of the whole function ends the outer one too. -/
def satisfyDeps (src : Nat) (st : DepLoop) (dst : Nat) : DepLoop × Bool :=
  if dst < st.wf.tasksNum then
    let st := (Lib.foldWhile (satisfyDep src dst) (List.range (st.wf.tasks dst).deps.length) st).1
    (st, !st.failed)
  else (st, true)

/-- The dependents of the completed task `src`. -/
def releaseDependents (wf : Workflow) (src : Nat) : DepLoop :=
  (Lib.foldWhile (satisfyDeps src) (wf.tasks src).dependentsIndexes { wf := wf }).1

/-! ## Accounting -/

/-- What the accounting decided. `stop` stands for a return before the end of the function. -/
structure Verdict where
  wf : Workflow
  stop : Bool := false
  final : Bool := false
  taskCompleted : Bool := false
  retry : Bool := false

/-- A task is submitted and not over. -/
def activeTask (wf : Workflow) : Bool :=
  (List.range wf.tasksNum).any fun i => .unknown < (wf.tasks i).status ∧ (wf.tasks i).status < .completed

/-- The JSON Response is kept if an operator that could read it depends on the task. -/
def saveResponse (wf : Workflow) (i : Nat) (json : String) : Workflow :=
  if (wf.tasks i).dependentsIndexes.any fun k => (wf.tasks k).operator = .for ∨ (wf.tasks k).operator = .set then
    wf.modify i fun t => { t with response := some json }
  else wf

def raiseStatus (wf : Workflow) (s : JobStatus) : Workflow := if wf.status < s then { wf with status := s } else wf

/-- The end of the workflow after a task has completed. -/
def checkEnd (wf : Workflow) : Verdict :=
  if wf.status = .error then
    { wf := wf, final := wf.residualTasksNum = 0 || !activeTask wf, taskCompleted := true }
  else if wf.residualTasksNum = 0 then { wf := raiseStatus wf .completed, final := true, taskCompleted := true }
  else { wf := wf, taskCompleted := true }

/-- A task of a branch that is not selected. -/
def Task.unselect (t : Task) : Task :=
  if t.isSkipped ∧ t.status ≤ .completed then { t with status := .unselected } else t

/-- The outputs of the notification become the outputs of a task that has none. -/
def Task.takeOutputs (outputs : List (String × String)) (t : Task) : Task :=
  if t.outputs.isEmpty then { t with outputs := fileAsCube outputs } else t

/-- Outputs that a task could not have before it completes. -/
def Task.hasEarlyOutputs (t : Task) : Bool :=
  !t.outputs.isEmpty && (!t.parallelMode && (t.lightTasksNum = 0 || t.residualLightTasksNum ≠ 0))

/-- An output of a completed task may be an object of the final operation. -/
def addExitObject (env : NotifyEnv) (wf : Workflow) : Workflow :=
  { wf with exitObjects := wf.exitObjects || env.exitObject }

/-- The branch of a completed task. -/
def accountCompleted (env : NotifyEnv) (wf : Workflow) (i : Nat) (outputs : List (String × String)) : Verdict :=
  let wf := ((wf.modify i Task.unselect).countEnded i).record (.completed i)
  if (wf.tasks i).hasEarlyOutputs then { wf := wf, stop := true, taskCompleted := true }
  else
    let st := releaseDependents (wf.modify i (Task.takeOutputs outputs)) i
    if st.failed then { wf := st.wf, stop := true, taskCompleted := true }
    else checkEnd (addExitObject env st.wf)

/-- The branch of a task with no retry policy: it is skipped and its dependents are aborted. -/
def accountContinue (wf : Workflow) (i : Nat) : Verdict :=
  let (wf, ok) := abortDependents (wf.countEnded i) i
  if !ok then { wf := wf, stop := true }
  else if wf.residualTasksNum = 0 then { wf := raiseStatus wf .completed, final := true }
  else { wf := wf, final := wf.status = .error && !activeTask wf }

/-- Auto-retry of a task marked for it: the update of `residual_auto_retry_num` and whether the task is re-executed. -/
def autoRetryUpdate (ophAutoRetry : Nat) (t : Task) : Task × Bool :=
  if ophAutoRetry ≠ 0 ∧ t.isMarkedForAutoRetry ∧ t.retryNum = 1 then
    if t.residualAutoRetryNum = 0 then ({ t with residualAutoRetryNum := 1 + ophAutoRetry }, true)
    else if t.residualAutoRetryNum > 1 then ({ t with residualAutoRetryNum := t.residualAutoRetryNum - 1 }, true)
    else (t, false)
  else (t, false)

def Task.countRetry (t : Task) : Task := { t with residualRetryNum := t.residualRetryNum - 1 }

/-- The branch of a task that may be retried. -/
def accountRetry (ophAutoRetry : Nat) (wf : Workflow) (i : Nat) : Verdict :=
  let (t, auto) := autoRetryUpdate ophAutoRetry (wf.tasks i)
  let wf := wf.modify i fun _ => t
  if auto then { wf := wf.setTaskStatus i .unknown, retry := true }
  else
    let wf := wf.modify i Task.countRetry
    if (wf.tasks i).residualRetryNum ≠ 0 then { wf := wf.setTaskStatus i .unknown, retry := true }
    else
      let wf := { wf.countEnded i with status := .error }
      { wf := wf, final := !activeTask wf }

/-- A task that failed and may be neglected. -/
def Task.skip (t : Task) : Task :=
  if t.retryNum < 0 ∧ .completed < t.status ∧ t.status < .skipped then { t with status := .skipped } else t

/-- The accounting of a task that is over: `status` is `COMPLETED` or `ERROR`. -/
def account (ophAutoRetry : Nat) (env : NotifyEnv) (n : Notification) (outputs : List (String × String))
    (wf : Workflow) (status : JobStatus) : Verdict :=
  let i := n.taskIndex
  if wf.finalTask then { wf := wf, final := true }
  else if wf.residualTasksNum = 0 then { wf := wf, stop := true }
  else
    let wf := (saveResponse wf i n.outputJson).modify i Task.skip
    if status = .completed ∨ (wf.tasks i).retryNum < 0 then accountCompleted env wf i outputs
    else if (wf.tasks i).retryNum = 0 then accountContinue wf i
    else if (wf.tasks i).residualRetryNum = 0 then { wf := wf, stop := true }
    else accountRetry ophAutoRetry wf i

/-! ## Status updates -/

/-- What the update of a status leads to: `over` is the status to be accounted for, if the task is over. -/
structure Update where
  wf : Workflow
  stop : Bool := false
  isOver : Option JobStatus := none
  outputs : List (String × String) := []

def allLightCompleted (t : Task) : Bool :=
  (List.range t.lightTasksNum).all fun j => (t.lightTask j).status ≤ .completed

/-- A massive operation is running as soon as one of its children is. -/
def Task.toRunning (t : Task) : Task := if t.status < .running then { t with status := .running } else t

/-- A massive operation will be retried automatically. -/
def Task.markForAutoRetry (ophAutoRetry : Nat) (t : Task) : Task :=
  if ophAutoRetry ≠ 0 ∧ t.retryNum = 1 ∧ t.residualAutoRetryNum ≠ 1 then { t with isMarkedForAutoRetry := true } else t

/-- A child of a massive operation failed to start. -/
def lightStartError (ophAutoRetry : Nat) (wf : Workflow) (i : Nat) : Workflow :=
  raiseStatus ((wf.modify i (Task.markForAutoRetry ophAutoRetry)).modify i Task.toRunning) .running

/-- One child less to wait for; its outputs are kept if it has completed. -/
def Task.countLight (status : JobStatus) (outputs : List (String × String)) (t : Task) : Task :=
  { t with
    residualLightTasksNum := t.residualLightTasksNum - 1
    outputs := if status = .completed ∧ !outputs.isEmpty then mergeOutputs t.outputs (fileAsCube outputs)
      else t.outputs }

/-- A child of a massive operation is over. -/
def lightOver (wf : Workflow) (i j : Nat) (status : JobStatus) (outputs : List (String × String)) : Update :=
  if (wf.tasks i).residualLightTasksNum = 0 then { wf := wf, stop := true }
  else
    let wf := (wf.modify i (Task.countLight status outputs)).record (.endedLight i j)
    if (wf.tasks i).residualLightTasksNum = 0 then
      let s : JobStatus := if allLightCompleted (wf.tasks i) then .completed else .error
      { wf := wf.setTaskStatus i s, isOver := some s, outputs := if status = .completed then [] else outputs }
    else { wf := wf }

/-- The status of the notification is written into the light task. -/
def writeLight (ophAutoRetry : Nat) (wf : Workflow) (n : Notification) (j : Nat) : Workflow :=
  let wf := wf.modify n.taskIndex fun t => t.modifyLight j fun l => { l with status := n.status }
  if n.status = .startError then lightStartError ophAutoRetry wf n.taskIndex else wf

/-- The status of a light task is updated. -/
def notifyLight (ophAutoRetry : Nat) (env : NotifyEnv) (wf : Workflow) (n : Notification) (j : Nat)
    (status : JobStatus) : Update :=
  let i := n.taskIndex
  let wf := writeLight ophAutoRetry wf n j
  if n.status = .startError ∧ i < wf.tasksNum ∧ env.saveFails then { wf := wf, stop := true }
  else if status = .completed ∨ status = .error then lightOver wf i j status n.outputs
  else if status = .running then
    { wf := raiseStatus (wf.modify i Task.toRunning) .running }
  else { wf := wf }

/-- The update of `residual_auto_retry_num` when a task is notified, and whether its JSON Response has to be saved. -/
def markAutoRetry (ophAutoRetry : Nat) (status : JobStatus) (t : Task) : Task × Bool :=
  if t.isMarkedForAutoRetry ∨ status = .startError then
    if ophAutoRetry ≠ 0 ∧ t.retryNum = 1 then
      if t.residualAutoRetryNum = 0 then
        ({ t with residualAutoRetryNum := 1 + ophAutoRetry, isMarkedForAutoRetry := true }, false)
      else if t.residualAutoRetryNum > 1 then ({ t with residualAutoRetryNum := t.residualAutoRetryNum - 1 }, false)
      else (t, true)
    else (t, true)
  else ({ t with residualAutoRetryNum := 0 }, false)

/-- The status of a task is updated. -/
def notifyTask (ophAutoRetry : Nat) (env : NotifyEnv) (wf : Workflow) (n : Notification) (status : JobStatus) :
    Update :=
  let i := n.taskIndex
  let (t, save) := markAutoRetry ophAutoRetry n.status { wf.tasks i with status := n.status }
  let wf := wf.modify i fun _ => t
  if save && decide (i < wf.tasksNum) && env.saveFails then { wf := wf, stop := true }
  else if status = .completed ∨ status = .error then { wf := wf, isOver := some status, outputs := n.outputs }
  else if status = .running then { wf := raiseStatus wf .running }
  else { wf := wf }

/-! ## The whole function -/

/-- An internal operation is waiting for a response. -/
def internalResponse (wf : Workflow) (n : Notification) (status : JobStatus) : Workflow :=
  wf.modify n.taskIndex fun t => { t with
    response := if status = .completed then some n.outputJson else if status = .error then some "" else none }

/-- The status the notification refers to. -/
def targetStatus (wf : Workflow) (n : Notification) : JobStatus :=
  match n.lightTaskIndex with
  | some j => ((wf.tasks n.taskIndex).lightTask j).status
  | none => (wf.tasks n.taskIndex).status

/-- The final operation is built, or the workflow is dropped from the job list. -/
def finalise (wf : Workflow) : Workflow :=
  if wf.exitObjects then { wf with finalTask := true, exitObjects := false } else { wf with dropped := true }

/-- What is done with the verdict, and what is executed next. -/
def conclude (env : NotifyEnv) (i : Nat) (v : Verdict) : Workflow × List Todo :=
  if v.stop then (v.wf, [])
  else if v.final then
    (finalise v.wf, if v.wf.exitObjects && !env.dbFails then [.execute [v.wf.tasksNum]] else [])
  else if env.dbFails then (v.wf, [])
  else if v.retry then (v.wf, [.execute [i]])
  else if v.taskCompleted then (v.wf, [.execute (v.wf.tasks i).dependentsIndexes])
  else (v.wf, [])

/-- The status of the task or of the light task is updated. -/
def updateStatus (ophAutoRetry : Nat) (env : NotifyEnv) (n : Notification) (wf : Workflow) (status : JobStatus) :
    Update :=
  match n.lightTaskIndex with
  | some j => notifyLight ophAutoRetry env wf n j status
  | none => notifyTask ophAutoRetry env wf n status

/-- A task that is over is accounted for. -/
def settle (ophAutoRetry : Nat) (env : NotifyEnv) (n : Notification) (u : Update) : Workflow × List Todo :=
  if u.stop then (u.wf, [])
  else
    match u.isOver with
    | none => (u.wf, [])
    | some s => conclude env n.taskIndex (account ophAutoRetry env n u.outputs u.wf s)

/-- `oph_workflow_notify`, until it releases the lock. -/
def notify (ophAutoRetry : Nat) (env : NotifyEnv) (n : Notification) (wf : Workflow) : Workflow × List Todo :=
  match n.status.notified with
  | none => (wf, [])
  | some status =>
    if wf.dropped then (wf, [])
    else if n.jobid = 0 ∧ (wf.tasks n.taskIndex).idjob = 0 ∧ (wf.tasks n.taskIndex).status < .error then
      (internalResponse wf n status, [])
    else if wf.isClosed ∨ .aborted ≤ wf.status then
      if n.jobid ≠ wf.idjob then (wf, []) else ({ wf with dropped := true }, [])
    else if status = .error ∧ (targetStatus wf n = .unknown ∨ .completed ≤ targetStatus wf n) then (wf, [])
    else settle ophAutoRetry env n (updateStatus ophAutoRetry env n wf status)

end OphidiaWorkflow
