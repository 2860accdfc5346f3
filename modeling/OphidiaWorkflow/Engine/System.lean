import OphidiaWorkflow.Engine.Notify
import OphidiaWorkflow.Flow.Loop
import OphidiaWorkflow.Flow.Selection
import OphidiaWorkflow.Lib.Runs
import OphidiaWorkflow.Setup.Validate

/-!
The engine as a system: a workflow and the work its threads have not done yet.

The sections under the global lock are atomic, and they may follow each other in any order: any pending piece of work
may be done next, and notifications from remote jobs may come in between.
-/
namespace OphidiaWorkflow

/-! ## Requests -/

/-- Result of `oph_serve_request`. -/
inductive Served
  | ok
  | noResponse (exitCode : JobStatus)
  | failed
  deriving DecidableEq, Repr

/-- Answers to `oph_serve_request`: the arguments of a flow control operator, once parsed, what goes wrong in reporting
its outcome, and the result of any other operator. -/
structure ServeEnv where
  served : Served := .ok
  forArgs : Option ForArgs := none
  condition : Option Bool := none
  vars : List (String × Var) := []
  argsFail : Bool := false
  waitTarget : Option Nat := none
  waitAction : JobStatus := .running
  jsonFails : Bool := false
  odbFails : Bool := false
  outputs : List (String × String) := []
  outputJson : String := ""

/-- The variables of `oph_set_impl`: a previous value is dropped. -/
def setVars (wf : Workflow) (vars : List (String × Var)) : Workflow :=
  vars.foldl (fun wf p => wf.insertVar p.1 p.2) wf

/-- The task that an input is for goes on, keeps waiting or fails. -/
def inputAction (wf : Workflow) (target : Option Nat) (action : JobStatus) : Workflow :=
  match target with
  | none => wf
  | some k =>
    if (wf.tasks k).operator = .wait ∧ (wf.tasks k).status < action then wf.setTaskStatus k action else wf

/-- `oph_wait_impl`: a variable is added only if it does not exist. -/
def waitImpl (wf : Workflow) (i : Nat) (vars : List (String × Var)) : Workflow :=
  let wf := vars.foldl (fun wf p => if (wf.vars p.1).isSome then wf else wf.insertVar p.1 p.2) wf
  raiseStatus (wf.setTaskStatus i .wait) .running

/-- `oph_finalize_known_operator` -/
def finalizeKnownOperator (env : ServeEnv) (success : Bool) (exitCode : JobStatus) : Served :=
  if env.odbFails then .failed
  else .noResponse (if env.jsonFails || !success then .error else exitCode)

/-- `oph_serve_flow_control_operator`, and `oph_serve_request` for the other operators. The task and the job of the
request are those to be notified. -/
def serveOperator (env : ServeEnv) (wf : Workflow) (r : Request) : Workflow × Request × Served :=
  let i := r.taskId
  if (wf.tasks i).operator.isFlowControl && (r.lightTaskId.isSome || wf.dropped) then (wf, r, .failed)
  else
    match (wf.tasks i).operator with
    | .other _ => (wf, r, env.served)
    | .set =>
      if env.jsonFails then (wf, r, finalizeKnownOperator env false .completed)
      else (setVars wf env.vars, r, finalizeKnownOperator env (!env.argsFail) .completed)
    | .input =>
      if env.jsonFails then (wf, r, finalizeKnownOperator env false .completed)
      else
        let wf := setVars wf env.vars
        if env.argsFail then (wf, r, finalizeKnownOperator env false .completed)
        else (inputAction wf env.waitTarget env.waitAction, r, finalizeKnownOperator env true .completed)
    | .wait =>
      if env.jsonFails || env.argsFail then (wf, r, finalizeKnownOperator env false .wait)
      else (waitImpl wf i env.vars, r, finalizeKnownOperator env true .wait)
    | .for =>
      if env.jsonFails then (wf, r, finalizeKnownOperator env false .completed)
      else
        let (wf, ok) := forImpl wf i env.forArgs
        (wf, r, finalizeKnownOperator env ok .completed)
    | .endfor =>
      match endforImpl wf i with
      | (wf, .ok) => (wf, r, finalizeKnownOperator env true .completed)
      | (wf, .noResponse) =>
        -- the notification goes to the head of the loop
        let p := (wf.tasks i).parent.toNat
        (wf, { r with taskId := p, jobid := (wf.tasks p).idjob }, .noResponse .completed)
      | (wf, .systemError) => (wf, r, .failed)
    | .if | .elseif =>
      if env.jsonFails then (wf, r, finalizeKnownOperator env false .completed)
      else
        let (wf, ok) := ifImpl wf i env.condition
        (wf, r, finalizeKnownOperator env ok .completed)
    | .else =>
      (if env.jsonFails then wf else elseImpl wf i, r, finalizeKnownOperator env true .completed)
    | .endif => (wf, r, finalizeKnownOperator env true .completed)

/-- The notification of the status `s` for the task of a request. -/
def Request.notification (r : Request) (s : JobStatus) (outputs : List (String × String)) (json : String) :
    Notification :=
  { jobid := r.jobid, status := s, taskIndex := r.taskId, lightTaskIndex := r.lightTaskId, outputs := outputs,
    outputJson := json }

/-- A request is handed to the resource manager, or only simulated. -/
def serve (env : ServeEnv) (r : Request) (wf : Workflow) : Workflow × List Todo :=
  if !r.run then (wf, [.notify (r.notification .completed env.outputs env.outputJson)])
  else
    match serveOperator env wf r with
    | (wf, _, .ok) => (wf, [])
    | (wf, target, .noResponse exitCode) =>
      if exitCode = .wait then (wf, [])
      else (wf, [.notify (target.notification exitCode env.outputs env.outputJson)])
    | (wf, _, .failed) =>
      if r.jobid = 0 then (wf, []) else (wf, [.notify (r.notification .startError [] env.outputJson)])

/-! ## Runs -/

/-- The answers the environment gives while a piece of work is done. -/
structure Env where
  exec : ExecEnv
  serve : ServeEnv := {}
  notify : NotifyEnv := {}

/-- A pending piece of work, under the global lock. -/
def Todo.handle (ophAutoRetry : Nat) (env : Env) (wf : Workflow) : Todo → Workflow × List Todo
  | execute tasksIndexes => OphidiaWorkflow.execute ophAutoRetry env.exec tasksIndexes wf
  | serve r => OphidiaWorkflow.serve env.serve r wf
  | special n => OphidiaWorkflow.notify ophAutoRetry env.notify n wf
  | notify n => OphidiaWorkflow.notify ophAutoRetry env.notify n wf

structure Sys where
  wf : Workflow
  todo : List Todo := []

/-- A thread does the pending work at position `k`, or a notification comes from outside. -/
inductive Event
  | handle (k : Nat) (env : Env)
  | external (n : Notification) (env : NotifyEnv)

namespace Sys

def step (ophAutoRetry : Nat) (s : Sys) : Event → Sys
  | .handle k env =>
    match s.todo[k]? with
    | none => s
    | some t =>
      let (wf, more) := t.handle ophAutoRetry env s.wf
      { wf := wf, todo := s.todo.eraseIdx k ++ more }
  | .external n env =>
    let (wf, more) := notify ophAutoRetry env n s.wf
    { wf := wf, todo := s.todo ++ more }

variable (ophAutoRetry : Nat) (s : Sys)

@[simp] theorem step_external (n : Notification) (env : NotifyEnv) :
    s.step ophAutoRetry (.external n env) =
      { wf := (notify ophAutoRetry env n s.wf).1, todo := s.todo ++ (notify ophAutoRetry env n s.wf).2 } := rfl

variable {s}

theorem step_handle_none {k : Nat} (h : s.todo[k]? = none) (env : Env) : s.step ophAutoRetry (.handle k env) = s := by
  simp only [step, h]

theorem step_handle_some {k : Nat} {t : Todo} (h : s.todo[k]? = some t) (env : Env) :
    s.step ophAutoRetry (.handle k env) =
      { wf := (t.handle ophAutoRetry env s.wf).1,
        todo := s.todo.eraseIdx k ++ (t.handle ophAutoRetry env s.wf).2 } := by
  simp only [step, h]

def run (ophAutoRetry : Nat) (s : Sys) (es : List Event) : Sys := es.foldl (step ophAutoRetry) s

end Sys

/-- `oph_workflow_init` -/
def Workflow.initialTasks (wf : Workflow) : List Nat :=
  (List.range wf.tasksNum).filter fun i => (wf.tasks i).deps.length < 1

/-- The workflow is submitted: the tasks of the list are to be executed. -/
def Workflow.submit (wf : Workflow) (tasksIndexes : List Nat) : Sys :=
  { wf := { wf with trace := [] }, todo := [.execute tasksIndexes] }

/-- Some run takes the workflow from `wf₀`, as it is submitted, to `wf`. -/
def RunsTo (wf₀ wf : Workflow) : Prop :=
  ∃ ophAutoRetry tasksIndexes es, ((wf₀.submit tasksIndexes).run ophAutoRetry es).wf = wf

/-- A workflow that `oph_workflow_indexing` and `oph_workflow_validate` have accepted. -/
structure AcceptedWorkflow where
  loaded : LoadedWorkflow
  tasks : Nat → Task
  indexed : indexing loaded.tasks loaded.tasksNum = .ok tasks
  fuel : Nat
  validated : validate fuel { loaded.toWorkflow with tasks := tasks } = some .success

namespace AcceptedWorkflow

def workflow (w : AcceptedWorkflow) : Workflow := { w.loaded.toWorkflow with tasks := w.tasks }

/-- The system when the workflow is submitted. -/
def init (w : AcceptedWorkflow) : Sys where
  wf := w.workflow
  todo := [.execute w.workflow.initialTasks]

/-- No flow control operator is used. -/
def Plain (w : AcceptedWorkflow) : Prop := ∀ i, (w.tasks i).operator.isFlowControl = false

end AcceptedWorkflow

end OphidiaWorkflow
