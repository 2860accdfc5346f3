import Mathlib.Data.PNat.Notation
import OphidiaWorkflow.Engine.SetStatus

/-!
`oph_workflow_execute`: the tasks of a list that are ready are prepared for submission.

Everything the function learns from outside the workflow (markers, submission strings, rows of the OphidiaDB, the
filter of a massive operation) is an answer of the environment. The section under the global lock is `execute`; what it
leaves to be done once the lock is released is a list of `Todo`s.
-/
namespace OphidiaWorkflow

/-- A notification string, parsed. `lightTaskIndex` is `none` for `-1`. -/
structure Notification where
  jobid : Int
  status : JobStatus
  taskIndex : Nat
  lightTaskIndex : Option Nat := none
  outputs : List (String × String) := []
  outputJson : String := ""
  deriving DecidableEq, Repr

/-- An entry of `request_data` with `serve_request = 1`. -/
structure Request where
  taskId : Nat
  lightTaskId : Option Nat
  jobid : Int
  run : Bool
  deriving DecidableEq, Repr

/-- Work left after the global lock is released: `special` is an entry of `request_data` with `serve_request = 0`, whose
notification has been built with the status that the task or the light task already has. -/
inductive Todo
  | execute (tasksIndexes : List Nat)
  | serve (r : Request)
  | special (n : Notification)
  | notify (n : Notification)
  deriving DecidableEq, Repr

/-- How `oph_check_for_massive_operation` reads the arguments of a task that has no light tasks yet: `remake` is the
argument that the files it stands for are written into. -/
inductive MassiveAnswer
  | single (remake : Option (Nat × String))
  | light (number : Nat)
  | noResponse
  | error
  deriving DecidableEq, Repr

/-- Answers to `oph_workflow_execute`, for each task or light task. -/
structure ExecEnv where
  markerid : Nat → Option Nat → Option Int
  submissionString : Nat → Option Nat → Bool
  createJob : Nat → Option Nat → Option ℕ+
  massive : Nat → MassiveAnswer
  remadeString : Nat → Bool

namespace Task

/-- The light task `j`; the array is read through its pointer. -/
def lightTask (t : Task) (j : Nat) : LightTask := (t.lightTasks.getD []).getD j {}

def modifyLight (t : Task) (j : Nat) (f : LightTask → LightTask) : Task :=
  { t with lightTasks := t.lightTasks.map fun l => l.modify j f }

/-- `oph_auto_retry && residual_auto_retry_num && (retry_num == 1)` -/
def autoRetry (t : Task) (ophAutoRetry : Nat) : Bool :=
  ophAutoRetry ≠ 0 && t.residualAutoRetryNum ≠ 0 && t.retryNum = 1

/-- `residual_retry_num && (retry_num > 1)` -/
def manualRetry (t : Task) : Bool := t.residualRetryNum ≠ 0 && t.retryNum > 1

end Task

/-- `oph_workflow_print_list` -/
def printList (value : Option String) (list : List (String × String)) : Option String :=
  list.foldl (fun v p => match v with
    | some s => some (s ++ "|" ++ p.2)
    | none => some p.2) value

/-- The ordered lists of a task are moved into its arguments. -/
def Task.printLists (t : Task) : Task :=
  { t with arguments := t.arguments.map fun a => { a with value := printList a.value a.list, list := [] } }

/-- `arguments_values[k] = value` -/
def Task.setArgument (t : Task) (k : Nat) (value : String) : Task :=
  { t with arguments := t.arguments.modify k fun a => { a with value := some value } }

/-- A failed light task is put back to be submitted again. -/
def LightTask.retry (autoRetry manualRetry : Bool) (l : LightTask) : LightTask :=
  if (autoRetry ∧ l.status = .startError) ∨ (manualRetry ∧ .completed < l.status) then
    { l with markerid := 0, status := .unknown, idjob := 0 }
  else l

inductive MassiveResult
  | ok | noResponse | systemError
  deriving DecidableEq, Repr

/-- `oph_check_for_massive_operation`, with the flag `remake_submission_string`. -/
def checkForMassiveOperation (ophAutoRetry : Nat) (answer : MassiveAnswer) (t : Task) : Task × MassiveResult × Bool :=
  if t.autoRetry ophAutoRetry || t.manualRetry then
    ({ t with
        lightTasks := t.lightTasks.map fun l => l.map (LightTask.retry (t.autoRetry ophAutoRetry) t.manualRetry)
        residualLightTasksNum := t.lightTasksNum }, .ok, false)
  else if t.lightTasksNum ≠ 0 then (t, .noResponse, false)
  else if t.lightTasks.isSome then (t, .systemError, false)
  else
    match answer with
    | .single none => (t, .ok, false)
    | .single (some (k, value)) => (t.setArgument k value, .ok, true)
    | .light number =>
      ({ t with
          lightTasks := some (List.replicate number {})
          lightTasksNum := number
          residualLightTasksNum := number }, .ok, false)
    | .noResponse => (t, .noResponse, false)
    | .error => (t, .systemError, false)

/-- A task that cannot be submitted: its status is `ERROR`, its dependents are aborted and a notification is sent. -/
def submissionFailed (wf : Workflow) (i : Nat) : Workflow × List Todo :=
  let wf := (abortDependents (wf.setTaskStatus i .error) i).1
  (wf, [.special { jobid := (wf.tasks i).idjob, status := (wf.tasks i).status, taskIndex := i }])

/-- The status of light task `j` becomes `ERROR` and a notification with that status is sent. -/
def lightFailed (wf : Workflow) (i j : Nat) : Workflow × List Todo :=
  let wf := wf.modify i fun t => t.modifyLight j fun l => { l with status := .error }
  (wf, [.special { jobid := ((wf.tasks i).lightTask j).idjob, status := .error, taskIndex := i, lightTaskIndex := j }])

/-- One light task of a massive operation. -/
def executeLight (env : ExecEnv) (i : Nat) (retry : Bool) (wf : Workflow) (j : Nat) : Workflow × List Todo :=
  let light := (wf.tasks i).lightTask j
  if light.status ≠ .unknown then
    if retry then
      (wf, [.special { jobid := light.idjob, status := light.status, taskIndex := i, lightTaskIndex := j }])
    else lightFailed wf i j
  else
    match env.markerid i j with
    | none => lightFailed wf i j
    | some markerid =>
      let wf := wf.modify i fun t => t.modifyLight j fun l => { l with markerid := markerid }
      if !env.submissionString i j then lightFailed wf i j
      else
        match env.createJob i j with
        | none => lightFailed wf i j
        | some id =>
          let wf := wf.modify i fun t => t.modifyLight j fun l => { l with idjob := (id : Nat), status := .pending }
          (wf.record (.submittedLight i j),
            [.serve { taskId := i, lightTaskId := j, jobid := (id : Nat), run := (wf.tasks i).run }])

/-- All the light tasks of task `i`. -/
def executeLights (env : ExecEnv) (i : Nat) (retry : Bool) (wf : Workflow) : Workflow × List Todo :=
  Lib.foldOut (executeLight env i retry) (List.range (wf.tasks i).lightTasksNum) wf

/-- The end of a massive operation that has nothing to submit. -/
def finishMassive (env : ExecEnv) (wf : Workflow) (i : Nat) (status : JobStatus) : Workflow × List Todo :=
  match env.createJob i none with
  | none => (wf.setTaskStatus i status, [.special { jobid := 0, status := status, taskIndex := i }])
  | some id =>
    (wf.modify i fun t => { t with idjob := (id : Nat), status := status },
      [.special { jobid := (id : Nat), status := status, taskIndex := i }])

/-- From the row in the OphidiaDB on: light tasks or the task itself are handed to the resource manager. -/
def submitTask (ophAutoRetry : Nat) (env : ExecEnv) (wf : Workflow) (i : Nat) (remake : Bool) : Workflow × List Todo :=
  match env.createJob i none with
  | none => submissionFailed wf i
  | some id =>
    let wf := wf.modify i fun t => { t with idjob := (id : Nat) }
    if remake && !env.remadeString i then submissionFailed wf i
    else if (wf.tasks i).lightTasksNum ≠ 0 then
      let retry := (wf.tasks i).autoRetry ophAutoRetry || (wf.tasks i).manualRetry
      let (wf, todo) := executeLights env i retry wf
      (wf.setTaskStatus i (if retry then .running else .pending), todo)
    else
      (wf.setTaskStatus i .pending,
        [.serve { taskId := i, lightTaskId := none, jobid := (id : Nat), run := (wf.tasks i).run }])

/-- A task that is about to be submitted: its lists are printed and a normal task gets a marker, if it can be
created. -/
def Task.prepare (markerid : Option Int) (t : Task) : Task :=
  let t := t.printLists
  match markerid with
  | some m => if t.idjob = 0 ∧ t.markerid = 0 then { t with markerid := m } else t
  | none => t

/-- A task that is not part of a block may be a massive operation. -/
def submitMassive (ophAutoRetry : Nat) (env : ExecEnv) (wf : Workflow) (i : Nat) : Workflow × List Todo :=
  let (t, res, remake) := checkForMassiveOperation ophAutoRetry (env.massive i) (wf.tasks i)
  let wf := wf.modify i fun _ => t
  match res with
  | .ok => submitTask ophAutoRetry env wf i remake
  | .noResponse => finishMassive env wf i .completed
  | .systemError => finishMassive env wf i .error

/-- What follows the start test. -/
def startTask (ophAutoRetry : Nat) (env : ExecEnv) (wf : Workflow) (i : Nat) : Workflow × List Todo :=
  let wf := (wf.record (.started i)).modify i (Task.prepare (env.markerid i none))
  if (wf.tasks i).idjob = 0 ∧ env.markerid i none = none then submissionFailed wf i
  else if !env.submissionString i none then submissionFailed wf i
  else if (wf.tasks i).parent < 0 then submitMassive ophAutoRetry env wf i
  else submitTask ophAutoRetry env wf i false

/-- The start test of `oph_workflow_execute`, with the check of the index. -/
def startTest (wf : Workflow) (i : Nat) : Bool :=
  (i < wf.tasksNum || (i = wf.tasksNum && wf.finalTask)) &&
    (wf.tasks i).residualDepsNum = 0 && (wf.tasks i).status = .unknown

def executeTask (ophAutoRetry : Nat) (env : ExecEnv) (wf : Workflow) (i : Nat) : Workflow × List Todo :=
  if startTest wf i then startTask ophAutoRetry env wf i else (wf, [])

/-- `oph_workflow_execute`, until it releases the lock. -/
def execute (ophAutoRetry : Nat) (env : ExecEnv) (tasksIndexes : List Nat) (wf : Workflow) : Workflow × List Todo :=
  if wf.status < .completed ∨ tasksIndexes.head? = some wf.tasksNum then
    Lib.foldOut (executeTask ophAutoRetry env) tasksIndexes wf
  else (wf, [])

end OphidiaWorkflow
