import OphidiaWorkflow.Model.Structs

/-!
The fields of `oph_workflow` and `oph_workflow_task` that `oph_workflow_load` sets and `oph_workflow_store` reads.

Texts are C strings, one character for each byte. A null pointer is `none`.
-/
namespace OphidiaWorkflow.Request

/-- Keys are compared as lists of bytes. -/
scoped instance lawfulBEqKey : LawfulBEq (List Char) := inferInstance

/-- `OPH_TYPE_*` -/
inductive TaskType
  | ophidia | cdo | generic | control
  deriving DecidableEq, Repr, Inhabited

def TaskType.text : TaskType → List Char
  | ophidia => "ophidia".toList
  | cdo => "cdo".toList
  | generic => "generic".toList
  | control => "control".toList

def TaskType.all : List TaskType := [ophidia, cdo, generic, control]

/-- The texts of the types of a dependency. -/
def depTypeText : DepType → List Char
  | .all => "all".toList
  | .single => "single".toList
  | .embedded => "embedded".toList

def depTypes : List DepType := [.all, .single, .embedded]

/-- `OPH_WORKFLOW_EXIT_ACTION_*` -/
inductive ExitAction
  | nop | delete | deleteContainer
  deriving DecidableEq, Repr, Inhabited

/-- `oph_workflow_dep` -/
structure Dep where
  argument : List Char := "cube".toList
  order : List Char := "0".toList
  taskName : List Char
  taskIndex : Int := 0
  type : DepType := .embedded
  filter : List Char := "all".toList
  outputArgument : List Char := "cube".toList
  outputOrder : List Char := "0".toList
  deriving DecidableEq, Repr

/-- `oph_workflow_var`, with the text of its value: the one that the request gives, or, for a workflow that is stored, the
one that `svalue` leads to. -/
structure Var where
  caller : Int := -1
  svalue : List Char
  ivalue : Int := 1
  deriving DecidableEq, Repr

/-- A hash table, in the order in which `hashtbl_next` runs through it. -/
abbrev Table := List (List Char × Var)

/-- `oph_workflow_task`. The key and the value of an argument are null if the request gives something else than a
text. -/
structure Task where
  name : List Char
  operator : List Char
  type : TaskType := .ophidia
  rtype : Option TaskType := none
  arguments : List (Option (List Char × List Char)) := []
  deps : List Dep := []
  vars : Option Table := some []
  onError : Option (List Char) := none
  retryNum : Int := 1
  backoffTime : Int := 0
  backoffType : Option Char := none
  onExit : Option (List Char) := none
  exitAction : ExitAction := .nop
  run : Bool := true
  save : Bool := true
  checkpoint : Option (List Char) := none
  ncores : Int := 0
  nhosts : Int := 0
  nthreads : Int := 0
  parent : Int := -1
  status : JobStatus := .unknown
  deriving DecidableEq, Repr

/-- `oph_workflow` -/
structure Workflow where
  name : List Char
  author : Option (List Char) := none
  abstract : Option (List Char) := none
  url : Option (List Char) := none
  sessionid : Option (List Char) := none
  execMode : Option (List Char) := none
  ncores : Int := 0
  nhosts : Int := 0
  nthreads : Int := 0
  project : Option (List Char) := none
  onError : Option (List Char) := none
  onExit : Option (List Char) := none
  run : Bool := true
  save : Bool := true
  outputFormat : Bool := false
  directOutput : Bool := false
  checkpoint : Option (List Char) := none
  cwd : Option (List Char) := none
  cdd : Option (List Char) := none
  cube : Option (List Char) := none
  callbackUrl : Option (List Char) := none
  command : Option (List Char) := none
  hostPartition : Option (List Char) := none
  hostPartitionOrig : Option (List Char) := none
  vars : Option Table := some []
  tasks : List Task := []
  deriving DecidableEq, Repr

/-- `workflow->tasks[i].status >= OPH_ODB_STATUS_COMPLETED`, for an index that may be negative. -/
def Workflow.isOver (w : Workflow) (i : Int) : Bool :=
  0 ≤ i && (w.tasks[i.toNat]?).any fun t => decide t.status.Terminal

end OphidiaWorkflow.Request
