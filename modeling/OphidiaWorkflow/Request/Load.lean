import OphidiaWorkflow.Lib.Decimal
import OphidiaWorkflow.Lib.Loops
import OphidiaWorkflow.Request.Structs
import OphidiaWorkflow.Text.Jansson

/-!
`oph_workflow_load`: a request becomes a workflow. The settings of the workflow are then handed down to the tasks: the
resources are moved out of the arguments, the other settings into them.

Memory is always allocated. The task that is added after the others for the outputs of the workflow is left out.
-/
namespace OphidiaWorkflow.Request

open Json Lib

/-- How the call ends without a workflow: with an exit code, or at a null pointer. -/
inductive Failure
  | exit (code : ExitCode)
  | nullPointer
  deriving DecidableEq, Repr

def badParam : Failure := .exit .badParamError

/-- `oph_base_backoff` and `oph_direct_output` -/
structure Server where
  baseBackoff : Int := 0
  directOutput : Bool := false

def globalKeys : List String :=
  ["name", "author", "abstract", "sessionid", "exec_mode", "ncores", "cwd", "cdd", "cube", "callback_url", "on_error",
    "command", "on_exit", "run", "output_format", "host_partition", "url", "nhost", "nthreads", "project", "save",
    "checkpoint", "direct_output"]

def taskKeys : List String :=
  ["name", "operator", "on_error", "on_exit", "run", "save", "type", "checkpoint"]

def depKeys : List String :=
  ["argument", "order", "task", "type", "filter", "output_argument", "output_order"]

def varKeys : List String := ["key", "svalue", "ivalue"]

/-- A setting of the workflow, as the request gives it. -/
def global (j : Json) (k : String) : Option (List Char) := j.unpack globalKeys k

/-- A setting of a task, as its entry gives it. -/
def own (e : Json) (k : String) : Option (List Char) := e.unpack taskKeys k

/-- The items of member `k`, none if it is missing or something else than an array. -/
def itemsOf (o : Json) (k : String) : List Json := ((o.get? k).map items).getD []

/-- A text that is there and not empty. -/
def nonempty (s : Option (List Char)) : Option (List Char) := s.filter fun s => !s.isEmpty

def required (s : Option (List Char)) : Except Failure (List Char) := s.elim (.error badParam) .ok

/-- The one of the choices that has the text. -/
def choose {α : Type} (text : α → List Char) (choices : List α) (s : List Char) : Except Failure α :=
  (choices.find? fun a => text a = s).elim (.error badParam) .ok

def flagText (b : Bool) : List Char := if b then "yes".toList else "no".toList

/-- `run` and `save`, `yes` by default. -/
def readFlag (s : Option (List Char)) : Except Failure Bool :=
  (nonempty s).elim (.ok true) (choose flagText [false, true])

/-- `OPH_OPERATOR_RESUME_PARAMETER_*` -/
def resumeParameters : List (List Char) := ["no".toList, "all".toList, "last".toList]

def readCheckpoint (s : Option (List Char)) : Except Failure (Option (List Char)) :=
  if ∃ c ∈ nonempty s, c ∈ resumeParameters then .error badParam else .ok (nonempty s)

/-- `retry_num`, `backoff_time` and `backoff_type` of a task. -/
structure Retry where
  retryNum : Int
  backoffTime : Int
  backoffType : Option Char
  deriving DecidableEq, Repr

def skipSpaces (s : List Char) : List Char := s.dropWhile (· = ' ')

/-- What follows the number of the retries: a time and a type, both optional. -/
def readBackoff (base n : Int) (s : List Char) : Retry :=
  match cutAt ' ' (skipSpaces s) with
  | none => ⟨n, base, none⟩
  | some (_, s) =>
    match cutAt ' ' (skipSpaces s) with
    | none => ⟨n, readInt (skipSpaces s), none⟩
    | some (_, t) => ⟨n, readInt (skipSpaces s), (skipSpaces t).head?⟩

/-- `on_error`: how often the task is tried, `-1` for `skip` and `0` for `continue`. -/
def readOnError (base : Int) : Option (List Char) → Except Failure Retry
  | none => .ok ⟨1, base, none⟩
  | some s =>
    if s = "skip".toList then .ok ⟨-1, base, none⟩
    else if s = "continue".toList then .ok ⟨0, base, none⟩
    else if s = "break".toList ∨ s = "abort".toList then .ok ⟨1, base, none⟩
    else if "repeat".toList <+: s then
      let n := toInt32 (1 + readInt (s.drop 6))
      if n < 1 then .error badParam else .ok (readBackoff base n (s.drop 6))
    else .error badParam

def ExitAction.text : ExitAction → List Char
  | nop => "nop".toList
  | delete => "oph_delete".toList
  | deleteContainer => "oph_deletecontainer".toList

/-- `on_exit` -/
def readOnExit (s : Option (List Char)) : Except Failure ExitAction :=
  (nonempty s).elim (.ok .nop) (choose ExitAction.text [.nop, .delete, .deleteContainer])

def ophPrefix : List Char := "oph_".toList

/-- The operators of type `control`. -/
def controlOperators : List (List Char) :=
  ["oph_for".toList, "oph_endfor".toList, "oph_if".toList, "oph_elseif".toList, "oph_else".toList, "oph_endif".toList,
    "oph_wait".toList, "oph_set".toList]

def readType (s : Option (List Char)) (operator : List Char) : Except Failure TaskType := do
  let type ← s.elim (.ok .ophidia) (choose TaskType.text TaskType.all)
  if type = .control ∧ ophPrefix ++ operator ∉ controlOperators then .error badParam else .ok type

/-- `key=value`; what is not a text leaves null pointers. -/
def readArgument (j : Json) : Except Failure (Option (List Char × List Char)) :=
  match j.text? with
  | none => .ok none
  | some s => (cutAt '=' s).elim (.error badParam) fun kv => .ok (some kv)

/-- One dependency; `auto` is the order it gets if it has none. -/
def readDep (auto : Nat) (j : Json) : Except Failure Dep := do
  let given := j.unpack depKeys
  let taskName ← required (given "task")
  let type ← (given "type").elim (.ok (if (given "argument").isSome then .all else .embedded))
    (choose depTypeText depTypes)
  .ok { argument := (given "argument").getD "cube".toList, order := (given "order").getD (decimal auto),
        taskName := taskName, type := type, filter := (given "filter").getD "all".toList,
        outputArgument := (given "output_argument").getD "cube".toList,
        outputOrder := (given "output_order").getD "0".toList }

/-- The loop over the dependencies; `auto` counts those without an order. -/
def readDeps : Nat → List Json → Except Failure (List Dep)
  | _, [] => .ok []
  | auto, j :: js => do
    let d ← readDep auto j
    let ds ← readDeps (if (j.unpack depKeys "order").isSome then auto else auto + 1) js
    .ok (d :: ds)

/-- The loop over the variables of task `i`; it ends at a key that is there already. -/
def readVars (i : Nat) : Table → List Json → Table
  | vars, [] => vars
  | vars, j :: js =>
    let given := j.unpack varKeys
    match given "key" with
    | none => readVars i vars js
    | some key =>
      let ivalue := (given "ivalue").elim 1 readInt
      if vars.any fun kv => kv.1 = key then vars
      else readVars i (vars ++ [(key, { caller := i, ivalue, svalue := (given "svalue").getD (decimal ivalue) })]) js

/-- The checkpoint of a task. Under a checkpoint of the workflow an empty one is copied, and so is a missing one. -/
def readTaskCheckpoint (workflow own : Option (List Char)) : Except Failure (Option (List Char)) := do
  match ← readCheckpoint own with
  | some c => .ok (some c)
  | none => if workflow.isSome then own.elim (.error .nullPointer) fun c => .ok (some c) else .ok none

/-- Task `i` of request `j`, before the settings of the workflow are handed down. -/
def readTask (srv : Server) (j : Json) (i : Nat) (e : Json) : Except Failure Task := do
  let name ← required (own e "name")
  let operator ← required (own e "operator")
  let type ← readType (own e "type") operator
  let arguments ← (itemsOf e "arguments").mapM readArgument
  let deps ← readDeps 0 (itemsOf e "dependencies")
  let retry ← readOnError srv.baseBackoff ((own e "on_error").or (global j "on_error"))
  let exitAction ← readOnExit ((own e "on_exit").or (global j "on_exit"))
  let run ← readFlag ((own e "run").or (global j "run"))
  let save ← readFlag ((own e "save").or (global j "save"))
  let checkpoint ← readTaskCheckpoint (nonempty (global j "checkpoint")) (own e "checkpoint")
  .ok { name, operator, type, arguments, deps, vars := some (readVars i [] (itemsOf e "variables")),
        onError := nonempty (own e "on_error"), retryNum := retry.retryNum, backoffTime := retry.backoffTime,
        backoffType := retry.backoffType, onExit := nonempty (own e "on_exit"), exitAction, run, save, checkpoint }

/-- `OPH_WORKFLOW_ROOT_FOLDER` -/
def rootFolder : List Char := "/".toList

def outputFormatText (b : Bool) : List Char := if b then "compact".toList else "classic".toList

def readOutputFormat (s : Option (List Char)) : Except Failure Bool :=
  (nonempty s).elim (.ok false) (choose outputFormatText [false, true])

def readDirectOutput (srv : Server) (s : Option (List Char)) : Except Failure Bool :=
  (nonempty s).elim (.ok srv.directOutput) (choose flagText [false, true])

/-- The settings of the workflow. -/
def readHeader (srv : Server) (j : Json) : Except Failure Workflow := do
  let name ← required (global j "name")
  let checkpoint ← readCheckpoint (global j "checkpoint")
  let run ← readFlag (global j "run")
  let save ← readFlag (global j "save")
  let outputFormat ← readOutputFormat (global j "output_format")
  let directOutput ← readDirectOutput srv (global j "direct_output")
  .ok { name, run, save, outputFormat, directOutput, checkpoint,
        author := nonempty (global j "author"), abstract := nonempty (global j "abstract"),
        url := nonempty (global j "url"), sessionid := nonempty (global j "sessionid"),
        execMode := nonempty (global j "exec_mode"), ncores := (global j "ncores").elim 0 readInt,
        nhosts := (global j "nhost").elim 0 readInt, nthreads := (global j "nthreads").elim 0 readInt,
        project := nonempty (global j "project"), onError := nonempty (global j "on_error"),
        onExit := nonempty (global j "on_exit"), cwd := some ((nonempty (global j "cwd")).getD rootFolder),
        cdd := some ((nonempty (global j "cdd")).getD rootFolder), cube := nonempty (global j "cube"),
        callbackUrl := nonempty (global j "callback_url"), command := nonempty (global j "command"),
        hostPartition := nonempty (global j "host_partition") }

/-- What the tasks are counted in. -/
inductive Resource
  | ncores | nhost | nthreads
  deriving DecidableEq, Repr

namespace Resource

def key : Resource → List Char
  | ncores => "ncores".toList
  | nhost => "nhost".toList
  | nthreads => "nthreads".toList

def get : Resource → Task → Int
  | ncores, t => t.ncores
  | nhost, t => t.nhosts
  | nthreads, t => t.nthreads

def set : Resource → Int → Task → Task
  | ncores, n, t => { t with ncores := n }
  | nhost, n, t => { t with nhosts := n }
  | nthreads, n, t => { t with nthreads := n }

/-- What is set in a task without arguments: for the hosts, the threads. -/
def setBare : Resource → Int → Task → Task
  | ncores, n, t => { t with ncores := n }
  | nhost, n, t => { t with nthreads := n }
  | nthreads, n, t => { t with nthreads := n }

/-- The setting of the workflow. -/
def amount : Resource → Workflow → Int
  | ncores, w => w.ncores
  | nhost, w => w.nhosts
  | nthreads, w => w.nthreads

end Resource

abbrev Arguments := List (Option (List Char × List Char))

/-- The value of the first argument with that key; the keys up to it are all read. -/
def findArgument (key : List Char) : Arguments → Except Failure (Option (List Char))
  | [] => .ok none
  | none :: _ => .error .nullPointer
  | some (k, v) :: as => if k = key then .ok (some v) else findArgument key as

/-- The arguments without the first one with that key. Null pointers are moved to the end. -/
def removeArgument (key : List Char) (as : Arguments) : Arguments :=
  let as := as.eraseP fun a => a.any fun kv => kv.1 = key
  as.filter Option.isSome ++ as.filter Option.isNone

def Task.withArguments (t : Task) (as : Arguments) : Task := { t with arguments := as }

/-- A task whose argument for the resource has been looked for. -/
def substituted (r : Resource) (n : Int) (t : Task) : Option (List Char) → Task
  | some v => (r.set (readInt v) t).withArguments (removeArgument r.key t.arguments)
  | none => r.set n t

/-- `_oph_workflow_substitute_var` for a resource: the value is printed and read again. -/
def substituteResource (r : Resource) (n : Int) (t : Task) : Except Failure Task :=
  if t.arguments = [] then .ok (r.setBare (readInt (decimal n)) t)
  else (findArgument r.key t.arguments).map (substituted r (readInt (decimal n)) t)

def nonnegative (r : Resource) (t : Task) : Except Failure Task :=
  if r.get t < 0 then .error (.exit .genericError) else .ok t

/-- The loops that finalize a resource. -/
def finalizeResource (r : Resource) (t : Task) : Except Failure Task :=
  if r.get t = 0 then
    (findArgument r.key t.arguments).bind fun v => nonnegative r (v.elim t fun v => r.set (readInt v) t)
  else nonnegative r t

/-- A task whose argument with that key has been looked for. -/
def appended (key value : List Char) (t : Task) (found : Option (List Char)) : Task :=
  if found.isSome then t else t.withArguments (t.arguments ++ [some (key, value)])

/-- `_oph_workflow_substitute_var` for the other settings. -/
def substituteVar (key value : List Char) (t : Task) : Except Failure Task :=
  (findArgument key t.arguments).map (appended key value t)

/-- The dependencies carry no data. -/
def embeddedOnly (ds : List Dep) : Bool := ds.all fun d => d.type = .embedded

/-- `_oph_workflow_substitute_cube` -/
def substituteCube (pid : List Char) (t : Task) : Except Failure Task :=
  (findArgument "cube".toList t.arguments).map fun found =>
    if embeddedOnly t.deps then appended "cube".toList pid t found else t

/-- Support for non-Ophidia operators. -/
def finalizeType (t : Task) : Task :=
  match t.type with
  | .ophidia => t
  | .control => { t with operator := ophPrefix ++ t.operator, rtype := some t.type, type := .ophidia }
  | _ => { t with arguments := t.arguments ++ [some ("command".toList, t.operator)],
                  operator := ophPrefix ++ t.type.text, rtype := some t.type, type := .ophidia }

/-- The two loops for a resource. -/
def resourceStages (w : Workflow) (r : Resource) : List (Task → Except Failure Task) :=
  (if r.amount w ≠ 0 then [substituteResource r (r.amount w)] else []) ++ [finalizeResource r]

/-- The loops over the tasks that hand the settings of the workflow down, in their order. -/
def stages (w : Workflow) : List (Task → Except Failure Task) :=
  resourceStages w .ncores ++ resourceStages w .nhost ++ resourceStages w .nthreads ++
    (w.project.map (substituteVar "project".toList)).toList ++ (w.cwd.map (substituteVar "cwd".toList)).toList ++
    (w.cdd.map (substituteVar "cdd".toList)).toList ++ (w.cube.map substituteCube).toList ++
    [fun t => .ok (finalizeType t)]

/-- The loader after the request has been parsed. -/
def loadJson (srv : Server) (j : Json) : Except Failure Workflow := do
  let w ← readHeader srv j
  let tasks ← (j.get? "tasks").elim (.error (.exit .genericError)) .ok
  if tasks.items = [] then .error badParam
  else do
    let ts ← tasks.items.zipIdx.mapM fun p => readTask srv j p.2 p.1
    let ts ← (stages w).foldlM (fun ts f => ts.mapM f) ts
    .ok { w with tasks := ts }

/-- The request without its comments, parsed. -/
def request [Jansson] (s : List Char) : Option Json := (skipComments s).bind loads

/-- `oph_workflow_load` -/
def load [Jansson] (srv : Server) (s : List Char) : Except Failure Workflow :=
  match skipComments s with
  | none => .error badParam
  | some s =>
    match loads s with
    | none => .error (.exit .genericError)
    | some j => loadJson srv j

end OphidiaWorkflow.Request
