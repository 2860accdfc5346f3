import OphidiaWorkflow.Engine.SetStatus
import OphidiaWorkflow.Setup.FlowControl

/-!
Selection blocks: `oph_if_impl`, `oph_else_impl` and the recursion that skips a branch,
`oph_set_status_of_selection_block`.
-/
namespace OphidiaWorkflow

/-- `dependents_indexes[nk] = v` -/
def Task.setDependent (nk v : Nat) (t : Task) : Task :=
  { t with dependentsIndexes := t.dependentsIndexes.set nk v }

/-- The dependences on task `a` become dependences on task `b`. -/
def Task.redirect (a b : Nat) (t : Task) : Task :=
  { t with deps := t.deps.map fun d => if d.taskIndex = (a : Int) then { d with taskIndex := b } else d }

/-- `residual_deps_num` is decremented if some dependence on task `a` is found. -/
def Task.dropDep (a : Nat) (t : Task) : Task :=
  if t.deps.any fun d => d.taskIndex = (a : Int) then { t with residualDepsNum := t.residualDepsNum - 1 } else t

/-- `is_skipped = skipped` -/
def Task.setSkipped (skipped : Bool) (t : Task) : Task := { t with isSkipped := skipped }

/-- A task that is not over is no longer waited for. -/
def Workflow.countUnselected (wf : Workflow) (i : Nat) : Workflow :=
  if (wf.tasks i).status < .completed then { wf with residualTasksNum := wf.residualTasksNum - 1 } else wf

/--
The body of the loop of `oph_set_status_of_selection_block` at the dependent `k` of task `taskIndex`. The slot `nk` is
the first value of `k` at the top of the recursion, hence `0` all along.
-/
def selectDependent (rec : Nat → Workflow → Workflow × Bool) (status : JobStatus) (parent : Nat) (skipTheNext : Bool)
    (taskIndex nk : Nat) (wf : Workflow) (k : Nat) : Workflow × Bool :=
  let i := (wf.tasks taskIndex).dependentsIndexes.getD k 0
  let t := wf.tasks i
  if t.parent = (parent : Int) then
    if t.operator ≠ .endif then (wf.modify i (Task.setSkipped skipTheNext), true)
    else if t.branchNum > 1 then
      let wf := wf.modify parent (Task.setDependent nk parent)
      (wf.modify i fun t => (t.dropDep taskIndex).redirect taskIndex i, true)
    else
      let wf := wf.modify parent (Task.setDependent nk i)
      (wf.modify i (Task.redirect taskIndex parent), true)
  else if t.operator = .endif ∧ t.parent = gparentOf wf parent then
    let gparent := (gparentOf wf parent).toNat
    let wf := wf.modify parent (Task.setDependent nk i)
    let wf := wf.modify gparent (Task.setDependent nk i)
    (wf.modify i fun t => (t.dropDep taskIndex).redirect taskIndex gparent, true)
  else if t.status < .completed ∧ wf.residualTasksNum = 0 then (wf, false)
  else
    rec i ((wf.countUnselected i).setTaskStatus i status)

/-- `oph_set_status_of_selection_block` -/
def setStatusOfSelectionBlock (status : JobStatus) (parent : Nat) (skipTheNext : Bool) (nk : Nat) :
    Nat → Nat → Workflow → Workflow × Bool
  | 0, _, wf => (wf, false)
  | fuel + 1, taskIndex, wf =>
    Lib.foldWhile (selectDependent (setStatusOfSelectionBlock status parent skipTheNext nk fuel) status parent
      skipTheNext taskIndex nk) (List.range (wf.tasks taskIndex).dependentsIndexes.length) wf

/-- The branch headed by task `i` is skipped. -/
def skipBranch (wf : Workflow) (i : Nat) (skipTheNext : Bool) : Workflow :=
  (setStatusOfSelectionBlock .unselected i skipTheNext 0 (wf.tasksNum + 1) i wf).1

/-- `oph_if_impl`, for IF and ELSEIF; `answer` is the value of the condition, or `none` when it is wrong. -/
def ifImpl (wf : Workflow) (i : Nat) (answer : Option Bool) : Workflow × Bool :=
  if (wf.tasks i).isSkipped then (skipBranch wf i true, true)
  else
    match answer with
    | none => (wf, false)
    | some false =>
      let wf := skipBranch (wf.modify i (Task.setSkipped true)) i false
      (wf.modify i (Task.setSkipped false), true)
    | some true =>
      ({ wf with tasks := fun j =>
          if j < wf.tasksNum ∧ (wf.tasks j).parent = (i : Int) ∧ (wf.tasks j).operator ≠ .endif then
            (wf.tasks j).setSkipped true
          else wf.tasks j }, true)

/-- `oph_else_impl` -/
def elseImpl (wf : Workflow) (i : Nat) : Workflow :=
  if (wf.tasks i).isSkipped then skipBranch wf i false else wf

end OphidiaWorkflow
