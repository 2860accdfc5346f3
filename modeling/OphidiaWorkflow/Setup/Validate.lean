import OphidiaWorkflow.Setup.Indexing

/-! `oph_workflow_validate`: task names, reserved characters, and the topological pass over the dependency graph. -/
namespace OphidiaWorkflow

/-- `workflow_node`. A removed edge leaves `-1` in its slot. -/
structure Node where
  outEdges : List Int
  outEdgesNum : Int
  inEdges : List Int
  inEdgesNum : Int
  index : Nat
  deriving DecidableEq, Repr

/-- The copy of `tasks[i]` in the graph. -/
def nodeOf (tasks : Nat → Task) (i : Nat) : Node where
  outEdges := (tasks i).dependentsIndexes.map fun k : Nat => (k : Int)
  outEdgesNum := (tasks i).dependentsIndexes.length
  inEdges := (tasks i).deps.map fun d => d.taskIndex
  inEdgesNum := (tasks i).deps.length
  index := i

/-- The variables of the `while` loop. `inserted` records the calls of `workflow_s_add`, in order. -/
structure PassState where
  graph : Nat → Node
  S : List Nat
  inserted : List Nat

/-- `workflow_s_add` -/
def PassState.add (st : PassState) (m : Nat) : PassState :=
  { st with S := st.S ++ [m], inserted := st.inserted ++ [m] }

def PassState.setNode (st : PassState) (m : Nat) (x : Node) : PassState :=
  { st with graph := Function.update st.graph m x }

/-- `S` starts with the nodes without incoming edges. -/
def initPass (tasks : Nat → Task) (tasksNum : Nat) : PassState :=
  (List.range tasksNum).foldl (fun st i => if (st.graph i).inEdgesNum = 0 then st.add i else st)
    { graph := nodeOf tasks, S := [], inserted := [] }

/-- Slot `j` of `in_edges` is cleared. -/
def Node.clearIn (x : Node) (j : Nat) : Node :=
  { x with inEdges := x.inEdges.set j (-1), inEdgesNum := x.inEdgesNum - 1 }

/-- Slot `i` of `out_edges` is cleared. -/
def Node.clearOut (x : Node) (i : Nat) : Node :=
  { x with outEdges := x.outEdges.set i (-1), outEdgesNum := x.outEdgesNum - 1 }

/-- The edge in slot `i` of `out_edges` is removed at both of its ends. -/
def removeEdge (n : Nat) (st : PassState) (i : Nat) : PassState :=
  let index := (st.graph n).outEdges.getD i (-1)
  if index = -1 then st
  else
    let m := index.toNat
    let st := st.setNode n ((st.graph n).clearOut i)
    match (st.graph m).inEdges.idxOf? ((st.graph n).index : Int) with
    | none => st
    | some j =>
      let st := st.setNode m ((st.graph m).clearIn j)
      if (st.graph m).inEdgesNum = 0 then st.add m else st

/-- One round of the `while` loop: a node leaves `S` and its outgoing edges are removed. -/
def passRound (st : PassState) : PassState :=
  match st.S with
  | [] => st
  | n :: S => (List.range (st.graph n).outEdges.length).foldl (removeEdge n) { st with S := S }

/-- The `while` loop, at most `fuel` rounds of it; `none` while `S` is not empty yet. -/
def passLoop : Nat → PassState → Option PassState
  | 0, st => if st.S.isEmpty then some st else none
  | fuel + 1, st => if st.S.isEmpty then some st else passLoop fuel (passRound st)

/-- No edge is left in the graph. -/
def PassState.noEdges (st : PassState) (tasksNum : Nat) : Bool :=
  (List.range tasksNum).all fun i => (st.graph i).inEdgesNum == 0 && (st.graph i).outEdgesNum == 0

/-- The test for DAG of `oph_workflow_validate`. -/
def topologicalPass (fuel : Nat) (tasks : Nat → Task) (tasksNum : Nat) : Option ExitCode :=
  (passLoop fuel (initPass tasks tasksNum)).map fun st =>
    if st.noEdges tasksNum then .success else .badParamError

/-- Check for uniqueness of task name. -/
def namesUnique (tasks : Nat → Task) (tasksNum : Nat) : Bool :=
  (List.range tasksNum).all fun i => (List.range' (i + 1) (tasksNum - (i + 1))).all fun j =>
    (tasks i).name != (tasks j).name

/-- The scan of one value, `bracketOn` being the number of brackets still open; `none` if a reserved character is
found. -/
def scanValue : Nat → List Char → Option Nat
  | bracketOn, [] => some bracketOn
  | bracketOn, c :: cs =>
    if c = '[' then scanValue (bracketOn + 1) cs
    else if bracketOn ≠ 0 ∧ c = ']' then scanValue (bracketOn - 1) cs
    else if bracketOn = 0 ∧ c = ';' then none
    else scanValue bracketOn cs

def scanArgument (bracketOn : Nat) (a : Argument) : Option Nat :=
  if ';' ∈ a.key.toList ∨ '=' ∈ a.key.toList then none else scanValue bracketOn (a.value.getD "").toList

/-- Check for special chars in parameters: `bracket_on` is shared by all the values of the workflow. -/
def noReservedChars (tasks : Nat → Task) (tasksNum : Nat) : Bool :=
  ((List.range tasksNum).foldlM (fun b i => (tasks i).arguments.foldlM scanArgument b) 0).isSome

/-- `oph_workflow_validate`; `none` if `fuel` rounds of the topological pass are not enough. -/
def validate (fuel : Nat) (wf : Workflow) : Option ExitCode :=
  if !namesUnique wf.tasks wf.tasksNum then some .taskNameError
  else if !noReservedChars wf.tasks wf.tasksNum then some .badParamError
  else topologicalPass fuel wf.tasks wf.tasksNum

/-- The dependency graph: an edge from each dependency to the task that has it. -/
def DepEdge (tasks : Nat → Task) (tasksNum : Nat) (a b : Nat) : Prop :=
  b < tasksNum ∧ ∃ d ∈ (tasks b).deps, d.taskIndex = (a : Int)

end OphidiaWorkflow
