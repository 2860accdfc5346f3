import OphidiaWorkflow.Engine.SetStatus
import OphidiaWorkflow.Lib.Traversal

/-!
Serial loops: `oph_for_impl`, `oph_endfor_impl`, the stack of the workflow, and the two functions that prepare the next
iteration, `oph_workflow_reset_task` and `oph_workflow_disable_deps`.
-/
namespace OphidiaWorkflow

/-- What `oph_workflow_push` saves of a task. -/
def Task.snapshot (t : Task) : StackTask where
  arguments := t.arguments
  depsTaskIndex := t.deps.map fun d => d.taskIndex
  residualDepsNum := t.residualDepsNum
  dependentsIndexes := t.dependentsIndexes

/-- `oph_workflow_push` -/
def push (wf : Workflow) (caller : Nat) (name : String) (svalues : Option (List String)) (ivalues : Option (List Int))
    (valuesNum : Nat) : Workflow :=
  { wf with stack :=
      { caller := caller, index := 0, tasks := fun i => (wf.tasks i).snapshot, name := name, svalues := svalues,
        ivalues := ivalues, valuesNum := valuesNum } :: wf.stack }

/-- The variable of a loop in the iteration `index`: the counter is `ivalues[index]`, or else `index + 1`, and the value
is `svalues[index]`, or else the counter. -/
def loopVar (caller : Nat) (svalues : Option (List String)) (ivalues : Option (List Int)) (index : Nat) : Var :=
  let ivalue : Int := match ivalues with
    | some l => l.getD index 0
    | none => 1 + index
  { caller := caller
    ivalue := ivalue
    svalue := match svalues with
      | some l => l.getD index ""
      | none => toString ivalue }

/-- The arguments of a loop, parsed: `name` is `none` when the key is not a valid one. -/
structure ForArgs where
  name : Option String
  svalues : Option (List String)
  ivalues : Option (List Int)
  parallel : Bool

/-- `svalues_num`, once the arguments are checked: one loop is executed by default. -/
def ForArgs.valuesNum (a : ForArgs) : Nat :=
  if (a.svalues.getD []).length ≠ 0 then (a.svalues.getD []).length
  else if (a.ivalues.getD []).length ≠ 0 then (a.ivalues.getD []).length
  else 1

/-- `svalues` and `ivalues` have the same size, if both are given. -/
def ForArgs.sizesAgree (a : ForArgs) : Bool :=
  (a.svalues.getD []).length = 0 || (a.ivalues.getD []).length = 0 ||
    (a.svalues.getD []).length = (a.ivalues.getD []).length

def Workflow.insertVar (wf : Workflow) (name : String) (v : Var) : Workflow :=
  { wf with vars := Function.update wf.vars name (some v) }

def Workflow.removeVar (wf : Workflow) (name : String) : Workflow :=
  { wf with vars := Function.update wf.vars name none }

/-- The number of loops is inserted only once and outlives the loop. -/
def insertSize (wf : Workflow) (name : String) (valuesNum : Nat) : Workflow :=
  if (wf.vars (name ++ "_size")).isSome then wf
  else wf.insertVar (name ++ "_size") { caller := -1, svalue := toString valuesNum, ivalue := 1 }

/-- `oph_for_impl`, which answers whether it succeeded; `args` is `none` when the arguments cannot be parsed. -/
def forImpl (wf : Workflow) (i : Nat) (args : Option ForArgs) : Workflow × Bool :=
  match args with
  | none => (wf, false)
  | some a =>
    match a.name with
    | none => (wf, false)
    | some name =>
      if a.parallel then (wf, true)
      else if !a.sizesAgree then (wf, false)
      else
        let wf := insertSize wf name a.valuesNum
        if (wf.vars name).isSome then (wf, false)
        else
          let wf := wf.insertVar name (loopVar i a.svalues a.ivalues 0)
          (push wf i name a.svalues a.ivalues a.valuesNum, true)

/-! ## Reset -/

/-- The fields of a task that `oph_workflow_reset_task` rewrites. Light tasks are freed but their pointer is kept. -/
def Task.reset (saved : StackTask) (t : Task) : Task :=
  { t with
    idjob := 0
    markerid := 0
    status := .unknown
    isSkipped := false
    residualRetryNum := t.retryNum
    residualAutoRetryNum := 0
    isMarkedForAutoRetry := false
    isMarkedToBeAborted := false
    arguments := saved.arguments
    deps := List.zipWith (fun d k => { d with taskIndex := k }) t.deps saved.depsTaskIndex
    residualDepsNum := saved.residualDepsNum
    dependentsIndexes := List.zipWith (fun _ k => k) t.dependentsIndexes saved.dependentsIndexes
    outputs := []
    lightTasksNum := 0
    residualLightTasksNum := 0
    response := none }

/-- Task `i` is brought back to the state saved in the frame and counted. -/
def resetVisit (frame : Frame) (s : Workflow × Nat) (i : Nat) : Option (Workflow × Nat) :=
  if (s.1.tasks i).status = .unknown then none
  else some ((s.1.modify i (Task.reset (frame.tasks i))).record (.reset i), s.2 + 1)

/-- The recursion stops at the end of the loop. -/
def nextTasks (lastTask : Nat) (wf : Workflow) (i : Nat) : List Nat :=
  if i = lastTask then [] else (wf.tasks i).dependentsIndexes

/-- `oph_workflow_reset_task`, with the number of tasks it has reset. -/
def resetTask (lastTask : Nat) (frame : Frame) : Nat → List Nat → Workflow × Nat → Workflow × Nat :=
  Lib.traverse (resetVisit frame) fun s i => nextTasks lastTask s.1 i

/-- A dependence that `oph_workflow_disable_deps` considers as satisfied. -/
def satisfiedDep (wf : Workflow) (firstTask : Nat) (d : Dep) : Bool :=
  0 ≤ d.taskIndex && d.taskIndex ≠ firstTask && .completed ≤ (wf.tasks d.taskIndex.toNat).status

/-- The loop over the dependences of one task. -/
def disableTask (wf : Workflow) (firstTask i : Nat) : Workflow :=
  wf.modify i fun t => { t with
    residualDepsNum := t.deps.foldl (fun r d => if satisfiedDep wf firstTask d then r - 1 else r) t.residualDepsNum }

def disableVisit (firstTask : Nat) (wf : Workflow) (i : Nat) : Option Workflow :=
  if (wf.tasks i).status ≠ .unknown then none else some (disableTask wf firstTask i)

/-- `oph_workflow_disable_deps` -/
def disableDeps (firstTask lastTask : Nat) : Nat → List Nat → Workflow → Workflow :=
  Lib.traverse (disableVisit firstTask) (nextTasks lastTask)

/-! ## End of an iteration -/

/-- The frame pushed by task `caller`: the first one of the stack that names it. -/
def findFrame (wf : Workflow) (caller : Int) : Option Frame := wf.stack.find? fun f => (f.caller : Int) == caller

/-- `tmp->index++` -/
def nextIndex (stack : List Frame) (caller : Nat) : List Frame :=
  match stack with
  | [] => []
  | f :: l => if f.caller = caller then { f with index := f.index + 1 } :: l else f :: nextIndex l caller

/-- The tasks between `p` and `i` are reset and counted again among those to be completed. -/
def resetBody (wf : Workflow) (p i : Nat) (frame : Frame) : Workflow :=
  let s := resetTask i frame (wf.tasksNum + 1) (wf.tasks p).dependentsIndexes (wf, 0)
  { s.1 with residualTasksNum := s.1.residualTasksNum + s.2 }

/-- The dependences of the tasks between `p` and `i` that are satisfied already are not waited for. -/
def disableBody (wf : Workflow) (p i : Nat) : Workflow :=
  disableDeps p i (wf.tasksNum + 1) (wf.tasks p).dependentsIndexes wf

def Task.clearOutputs (t : Task) : Task := { t with outputs := [] }

/-- The body of the loop that starts at task `p` and ends at task `i` is made ready for a new iteration. -/
def newIteration (wf : Workflow) (p i : Nat) (frame : Frame) : Workflow :=
  (disableBody (resetBody wf p i frame) p i).modify p Task.clearOutputs

/-- The index of the frame is updated and the variable of the loop is dropped. -/
def advance (wf : Workflow) (frame : Frame) : Workflow :=
  { wf with stack := nextIndex wf.stack frame.caller }.removeVar frame.name

/-- The index of the frame is updated and the variable of the loop gets its next value. -/
def rebind (wf : Workflow) (frame : Frame) : Workflow :=
  (advance wf frame).insertVar frame.name (loopVar frame.caller frame.svalues frame.ivalues (frame.index + 1))

/-- `parallel_mode = 1` -/
def Task.setParallel (t : Task) : Task := { t with parallelMode := true }

/-- `oph_workflow_pop`, after the last iteration; the end of the loop becomes a massive operator. -/
def leaveLoop (wf : Workflow) (i : Nat) (frame : Frame) : Workflow :=
  { (advance wf frame).modify i Task.setParallel with
    stack := (advance wf frame).stack.eraseP fun f => f.caller == frame.caller }

/-- Answers of `oph_endfor_impl`. -/
inductive EndforResult
  | ok | noResponse | systemError
  deriving DecidableEq, Repr

/-- `oph_endfor_impl` -/
def endforImpl (wf : Workflow) (i : Nat) : Workflow × EndforResult :=
  match findFrame wf (wf.tasks i).parent with
  | none => (wf, .ok)
  | some frame =>
    if (wf.vars frame.name).isNone then ({ wf with stack := nextIndex wf.stack frame.caller }, .systemError)
    else if frame.index + 1 < frame.valuesNum then
      (newIteration (rebind wf frame) frame.caller i frame, .noResponse)
    else (leaveLoop wf i frame, .ok)

end OphidiaWorkflow
