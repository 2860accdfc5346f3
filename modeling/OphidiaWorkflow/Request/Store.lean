import OphidiaWorkflow.Lib.Decimal
import OphidiaWorkflow.Request.Structs
import OphidiaWorkflow.Text.Json
import OphidiaWorkflow.Text.Substitute

/-!
`oph_workflow_store`: the request that loads a workflow again, or what is left of it at a checkpoint.

Every `break` of the loop over the tasks makes the whole call fail, so the loop is a `mapM`.
-/
namespace OphidiaWorkflow.Request

open Json Lib

/-- `snprintf` into a buffer of `OPH_WORKFLOW_MAX_STRING` bytes. -/
def printed (s : List Char) : List Char := s.take (maxString - 1)

/-- `OPH_GLOBAL_VARS` -/
def globalVars : List Char := "Global variables".toList

/-- `OPH_WORKFLOW_BVAR_KEYS` -/
def commonKeys : List (List Char) :=
  ["OPH_SESSION_ID".toList, "OPH_SESSION_CODE".toList, "OPH_WORKFLOW_ID".toList, "OPH_SERVER_HOST".toList,
    "OPH_SERVER_PORT".toList, "OPH_USER".toList, "OPH_PASSWD".toList, "OPH_OS_USER".toList]

/-- The members of the request apart from the tasks. -/
def headerTexts (w : Workflow) (label : Option (List Char)) : List (String × Option (List Char)) :=
  [("name", some (printed (w.name ++ label.elim [] (" - from checkpoint: ".toList ++ ·)))),
    ("author", w.author), ("abstract", w.abstract), ("url", w.url), ("sessionid", w.sessionid),
    ("exec_mode", w.execMode), ("ncores", some (decimal w.ncores)), ("nhost", some (decimal w.nhosts)),
    ("nthreads", some (decimal w.nthreads)), ("project", w.project), ("on_error", w.onError), ("on_exit", w.onExit),
    ("run", if w.run then none else some "no".toList), ("checkpoint", w.checkpoint), ("cwd", w.cwd), ("cdd", w.cdd),
    ("cube", w.cube), ("callback_url", w.callbackUrl), ("command", w.command),
    ("host_partition", w.hostPartitionOrig.or w.hostPartition)]

/-- The loop of `strncat`s, in a buffer of `OPH_WORKFLOW_MAX_STRING` bytes. -/
def joined (start : List Char) (items : List (List Char)) : List Char :=
  (start ++ ['|'].intercalate items).take maxString

/-- The variables of the workflow that the restoring task sets. -/
def restored (vars : Table) : Table := vars.filter fun kv => kv.1 ∉ commonKeys

/-- The task that restores the variables of the workflow; an error only leaves it out. -/
def restoringTask (vars : Table) : Option Json := do
  guard (restored vars ≠ [])
  let keys ← ofText (joined "keys=".toList ((restored vars).map Prod.fst))
  let values ← ofText (joined "value=".toList ((restored vars).map fun kv => kv.2.svalue))
  let ms ← addAllToJson []
    [("name", some globalVars), ("type", some TaskType.ophidia.text), ("operator", some "oph_set".toList)]
  some (.object (setMember ms "arguments" (.array [keys, values])))

/-- The restoring task, if there is a checkpoint. -/
def restoring (w : Workflow) (label : Option (List Char)) : Option Json :=
  (label.bind fun _ => w.vars).bind restoringTask

/-- Task `i` is not skipped. -/
def emitted (w : Workflow) (label : Option (List Char)) (i : Nat) : Bool :=
  label.isNone || !(w.isOver i || (w.tasks[i]?).any fun t => w.isOver t.parent)

/-- `erase_command`: the operator is found among the arguments. -/
def eraseCommand (t : Task) : Bool := t.rtype.any (· ≠ .control)

/-- The members of a task up to its arguments. -/
def taskTexts (t : Task) : List (String × Option (List Char)) :=
  [("name", some t.name), ("type", some (t.rtype.getD t.type).text),
    ("operator", if eraseCommand t then none else some (t.operator.drop (if t.rtype.isSome then 4 else 0))),
    ("on_error", t.onError), ("on_exit", t.onExit), ("run", if t.run then none else some "no".toList),
    ("checkpoint", t.checkpoint)]

/-- `key=value`; null pointers cannot be printed. -/
def argumentText (a : Option (List Char × List Char)) : Option Json :=
  a.bind fun kv => ofText (printed (kv.1 ++ '=' :: kv.2))

/-- `OPH_ARG_COMMAND` -/
def isCommand (a : Option (List Char × List Char)) : Bool := a.any fun kv => kv.1 = "command".toList

/-- The arguments that are stored as such, and those that give the operator. -/
def storedArguments (t : Task) : List (Option (List Char × List Char)) :=
  if eraseCommand t then t.arguments.filter fun a => !isCommand a else t.arguments

def commandTexts (t : Task) : List (String × Option (List Char)) :=
  if eraseCommand t then (t.arguments.filter isCommand).map fun a => ("operator", a.map Prod.snd) else []

/-- The first task with that name. -/
def firstNamed (w : Workflow) (name : List Char) : Option Nat := w.tasks.findIdx? fun t => t.name = name

/-- Dependency `d` of task `i` is stored. -/
def keepsDep (w : Workflow) (label : Option (List Char)) (i : Nat) (d : Dep) : Bool :=
  (label.isNone || 0 ≤ d.taskIndex) &&
    (firstNamed w d.taskName).any fun k => k ≠ i && !(label.isSome && w.isOver k)

def depTexts (d : Dep) : List (String × Option (List Char)) :=
  [("argument", some d.argument), ("order", some d.order), ("task", some d.taskName),
    ("type", some (depTypeText d.type)), ("filter", some d.filter), ("output_argument", some d.outputArgument),
    ("output_order", some d.outputOrder)]

def storeDep (d : Dep) : Option Json := (addAllToJson [] (depTexts d)).map Json.object

/-- The dependency on the restoring task. -/
def globalDep : Json := .object [("task", .string globalVars)]

/-- The dependencies of task `i`; the one on the restoring task is added only if there are others to look at. -/
def storeDeps (w : Workflow) (label : Option (List Char)) (i : Nat) (t : Task) : Option (Option Json) :=
  if t.deps = [] then some none
  else do
    let ds ← (t.deps.filter (keepsDep w label i)).mapM storeDep
    some (some (.array ((if (restoring w label).isSome then [globalDep] else []) ++ ds)))

def storeVariable (kv : List Char × Var) : Option Json :=
  (addAllToJson [] [("key", some kv.1), ("svalue", some kv.2.svalue), ("ivalue", some (decimal kv.2.ivalue))]).map
    Json.object

/-- The `while` loop over the variables of a task stops at the first one that cannot be stored. -/
def storeVariables : Table → List Json
  | [] => []
  | kv :: vars =>
    match storeVariable kv with
    | none => []
    | some j => j :: storeVariables vars

/-- The variables of a task at a checkpoint. `first` is still set if none has been stored, and then the call fails. -/
def storeTaskVars (label : Option (List Char)) (t : Task) : Option (Option Json) :=
  match label.bind fun _ => t.vars with
  | none => some none
  | some vars => if storeVariables vars = [] then none else some (some (.array (storeVariables vars)))

def setOptional (ms : List (String × Json)) (k : String) (j : Option Json) : List (String × Json) :=
  j.elim ms (setMember ms k)

/-- One round of the loop over the tasks. -/
def storeTask (w : Workflow) (label : Option (List Char)) (i : Nat) (t : Task) : Option Json := do
  let ms ← addAllToJson [] (taskTexts t)
  let args ← (storedArguments t).mapM argumentText
  let ms ← addAllToJson ms (commandTexts t)
  let deps ← storeDeps w label i t
  let vars ← storeTaskVars label t
  some (.object (setOptional (setOptional (setMember ms "arguments" (.array args)) "dependencies" deps) "variables"
    vars))

/-- The tasks that are stored, with their indexes. -/
def emittedTasks (w : Workflow) (label : Option (List Char)) : List (Nat × Task) :=
  (w.tasks.zipIdx.map fun p => (p.2, p.1)).filter fun p => emitted w label p.1

/-- `oph_workflow_store`, on the workflow as it reads it. -/
def store (w : Workflow) (label : Option (List Char)) : Except ExitCode Json :=
  match addAllToJson [] (headerTexts w label) with
  | none => .error .badParamError
  | some ms =>
    match (emittedTasks w label).mapM fun p => storeTask w label p.1 p.2 with
    | none => .error .badParamError
    | some ts =>
      if ts = [] then .error .genericError
      else .ok (.object (setMember ms "tasks" (.array ((restoring w label).toList ++ ts))))

end OphidiaWorkflow.Request
