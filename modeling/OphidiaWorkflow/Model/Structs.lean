import Mathlib.Logic.Function.Basic
import OphidiaWorkflow.Model.Status

/-!
The data model of `oph_workflow_structs.h`.

Arrays that always travel with their length (`deps`, `dependents_indexes`, the argument arrays, the outputs) are lists.
The array of tasks is a total function read below `tasksNum`; the slot `tasksNum` itself holds the final task.
-/
namespace OphidiaWorkflow

/-- `operator` of a task: the flow control operators the engine looks for, or any other name. -/
inductive Operator
  | set | for | endfor | if | elseif | else | endif | wait | input
  | other (name : String)
  deriving DecidableEq, Repr, Inhabited

namespace Operator

/-- `oph_is_flow_control_operator` -/
def isFlowControl : Operator → Bool
  | other _ => false
  | _ => true

end Operator

/-- `type` of a dependency, `OPH_WORKFLOW_TYPE_*`. -/
inductive DepType
  | all | single | embedded
  deriving DecidableEq, Repr, Inhabited

/-- `oph_workflow_dep` -/
structure Dep where
  argument : String := "cube"
  order : String := "0"
  taskName : String
  taskIndex : Int := -1
  type : DepType := .embedded
  outputArgument : String := "cube"
  deriving DecidableEq, Repr, Inhabited

/-- One entry of `arguments_keys`, `arguments_values` and `arguments_lists`. -/
structure Argument where
  key : String
  value : Option String := none
  list : List (String × String) := []
  deriving DecidableEq, Repr, Inhabited

/-- `oph_workflow_light_task` -/
structure LightTask where
  idjob : Int := 0
  markerid : Int := 0
  status : JobStatus := .unknown
  response : Option String := none
  deriving DecidableEq, Repr, Inhabited

/-- `oph_workflow_var` -/
structure Var where
  caller : Int
  svalue : String
  ivalue : Int
  deriving DecidableEq, Repr, Inhabited

/-- `oph_workflow_task` -/
structure Task where
  idjob : Int := 0
  markerid : Int := 0
  status : JobStatus := .unknown
  name : String := ""
  operator : Operator := .other ""
  arguments : List Argument := []
  deps : List Dep := []
  residualDepsNum : Int := 0
  dependentsIndexes : List Nat := []
  outputs : List (String × String) := []
  lightTasks : Option (List LightTask) := none
  lightTasksNum : Nat := 0
  residualLightTasksNum : Int := 0
  retryNum : Int := 1
  residualRetryNum : Int := 1
  residualAutoRetryNum : Int := 0
  isMarkedForAutoRetry : Bool := false
  response : Option String := none
  run : Bool := true
  parent : Int := -1
  child : Int := -1
  nestingLevel : Int := 0
  parallelMode : Bool := false
  isMarked : Bool := false
  vars : String → Option Var := fun _ => none
  isSkipped : Bool := false
  branchNum : Int := 0
  isMarkedToBeAborted : Bool := false

instance : Inhabited Task := ⟨{}⟩

/-- `deps[j].task_index = k` -/
def Task.setTaskIndex (t : Task) (j : Nat) (k : Int) : Task :=
  { t with deps := t.deps.modify j fun d => { d with taskIndex := k } }

/-- `oph_workflow_stack_task`: what a loop saves of each task. -/
structure StackTask where
  arguments : List Argument := []
  depsTaskIndex : List Int := []
  residualDepsNum : Int := 0
  dependentsIndexes : List Nat := []
  deriving DecidableEq, Repr, Inhabited

/-- `oph_workflow_stack` -/
structure Frame where
  caller : Nat
  index : Nat := 0
  tasks : Nat → StackTask
  name : String
  svalues : Option (List String)
  ivalues : Option (List Int)
  valuesNum : Nat

/-- What the engine did, latest entry first. It carries no behaviour: properties of runs are read off it. -/
inductive Entry
  | started (i : Nat)
  | completed (i : Nat)
  | submittedLight (i j : Nat)
  | ended (i : Nat)
  | endedLight (i j : Nat)
  | reset (i : Nat)
  | tooDependencies (i : Nat)
  deriving DecidableEq, Repr

/--
`oph_workflow`. `finalTask` tells whether the final task has been named, `exitObjects` whether `exit_cubes` or
`exit_containers` is allocated, `dropped` whether the workflow has left the job list.
-/
structure Workflow where
  idjob : Int := 1
  status : JobStatus := .unknown
  isClosed : Bool := false
  tasks : Nat → Task
  tasksNum : Nat
  residualTasksNum : Int
  vars : String → Option Var := fun _ => none
  stack : List Frame := []
  finalTask : Bool := false
  exitObjects : Bool := false
  dropped : Bool := false
  trace : List Entry := []

/-- Result codes of `oph_workflow_define.h`. -/
inductive ExitCode
  | success | badParamError | memoryError | taskNameError | genericError
  deriving DecidableEq, Repr

namespace Workflow

/-- `wf->tasks[i]` is rewritten by `f`. -/
def modify (wf : Workflow) (i : Nat) (f : Task → Task) : Workflow :=
  { wf with tasks := Function.update wf.tasks i (f (wf.tasks i)) }

variable (wf : Workflow) (i k : Nat) (f : Task → Task)

@[simp] theorem modify_tasksNum : (wf.modify i f).tasksNum = wf.tasksNum := rfl
@[simp] theorem modify_status : (wf.modify i f).status = wf.status := rfl
@[simp] theorem modify_isClosed : (wf.modify i f).isClosed = wf.isClosed := rfl
@[simp] theorem modify_residualTasksNum : (wf.modify i f).residualTasksNum = wf.residualTasksNum := rfl
@[simp] theorem modify_stack : (wf.modify i f).stack = wf.stack := rfl
@[simp] theorem modify_vars : (wf.modify i f).vars = wf.vars := rfl
@[simp] theorem modify_trace : (wf.modify i f).trace = wf.trace := rfl
@[simp] theorem modify_dropped : (wf.modify i f).dropped = wf.dropped := rfl
@[simp] theorem modify_finalTask : (wf.modify i f).finalTask = wf.finalTask := rfl
@[simp] theorem modify_tasks_self : (wf.modify i f).tasks i = f (wf.tasks i) := Function.update_self ..

theorem modify_tasks : (wf.modify i f).tasks k = if k = i then f (wf.tasks i) else wf.tasks k :=
  Function.update_apply ..

variable {i k} in
@[simp] theorem modify_tasks_ne (h : k ≠ i) : (wf.modify i f).tasks k = wf.tasks k := Function.update_of_ne h ..

/-- `wf->tasks[i].status = s` -/
def setTaskStatus (s : JobStatus) : Workflow := wf.modify i fun t => { t with status := s }

def record (e : Entry) : Workflow := { wf with trace := e :: wf.trace }

/-- `wf->residual_tasks_num--`, on behalf of task `i`. -/
def countEnded : Workflow := { wf with residualTasksNum := wf.residualTasksNum - 1 }.record (.ended i)

end Workflow

/-- The tasks of a request, as an array: the default task stands past its end. -/
def taskArray (ts : List Task) (i : Nat) : Task := ts.getD i {}

end OphidiaWorkflow
