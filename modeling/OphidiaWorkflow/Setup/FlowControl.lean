import OphidiaWorkflow.Setup.Validate

/-!
`oph_workflow_validate_fco`: the ends of loops and selections are searched for along the dependents of their heads, and
linked to them through `parent` and `child`.
-/
namespace OphidiaWorkflow

/-- The last task of the chain of parents that starts at `k`. -/
def lastParent (wf : Workflow) : Nat → Nat → Nat
  | 0, k => k
  | fuel + 1, k => if (wf.tasks k).parent < 0 then k else lastParent wf fuel (wf.tasks k).parent.toNat

/-- `oph_gparent_of` -/
def gparentOf (wf : Workflow) (k : Nat) : Int :=
  if (wf.tasks k).parent < 0 then -2 else lastParent wf wf.tasksNum (wf.tasks k).parent.toNat

/-- `oph_workflow_is_child_of` -/
def isChildOf (wf : Workflow) (c : Int) : Nat → Nat → Bool
  | 0, _ => false
  | fuel + 1, p =>
    if wf.tasksNum ≤ p ∨ c < 0 ∨ (wf.tasksNum : Int) ≤ c then false
    else (p : Int) = c || (wf.tasks p).dependentsIndexes.any fun j => j ≠ p && isChildOf wf c fuel j

/-! ## The search -/

/-- What `workflow_number_of` reads and writes. -/
structure Search where
  wf : Workflow
  level : Nat → Int
  flag : Nat → Bool
  child : Int

/-- The arguments that do not change in the recursion. -/
structure Query where
  p : Nat
  gp : Int
  op : Operator
  nop : Operator

namespace Task

variable (t : Task)

def setParent (p : Int) : Task := { t with parent := p }
def setChild (j : Int) : Task := { t with child := j }
def setNesting (n : Int) : Task := { t with nestingLevel := n }
def countBranch : Task := { t with branchNum := t.branchNum + 1 }

end Task

namespace Search

/-- The array `level` is made of signed characters. -/
def raiseLevel (s : Search) (j : Nat) (n : Int) : Search :=
  if s.level j < n then { s with level := Function.update s.level j (n.bmod 256) } else s

def raiseNesting (s : Search) (p : Nat) (n : Int) : Search :=
  if (s.wf.tasks p).nestingLevel < n then { s with wf := s.wf.modify p fun t => t.setNesting n } else s

def mark (s : Search) (j : Nat) : Search :=
  { s with flag := Function.update s.flag j false, wf := s.wf.modify j Task.countBranch }

/-- Task `j` becomes the end of task `p`. -/
def link (s : Search) (p j : Nat) : Search :=
  { s with wf := (s.wf.modify j fun t => t.setParent p).modify p fun t => t.setChild j, child := j }

/-- An end found outside any inner block: it is counted once, and twice if it is the end of another block. -/
def found (q : Query) (s : Search) (j : Nat) : Search × Nat :=
  if !s.flag j then (s, 0)
  else if (s.wf.tasks j).parent < 0 ∨ (s.wf.tasks j).parent = q.p then ((s.mark j).link q.p j, 1)
  else (s.mark j, if (s.wf.tasks j).parent = q.gp then 1 else 2)

/-- The operator searched for: an inner selection has to be closed first. -/
def target (q : Query) (bracketNumber : Int) : Operator :=
  if 0 < bracketNumber ∧ q.nop ≠ .for then .endif else q.op

/-- The body of the loop of `workflow_number_of`, where `next` is the recursive call. -/
def visit (q : Query) (next : Int → Nat → Search → Search × Nat) (bracketNumber : Int) (s : Search) (j : Nat) :
    Search × Nat :=
  let s := s.raiseLevel j (bracketNumber + s.level q.p)
  if (s.wf.tasks j).operator = target q bracketNumber then
    let bn := if bracketNumber + s.level q.p < s.level j then s.level j - s.level q.p else bracketNumber
    if bn ≠ 0 then next (bn - 1) j s else found q s j
  else if (s.wf.tasks j).operator = q.nop then
    let bn := bracketNumber + 1
    let s := s.raiseNesting q.p bn
    next bn j (s.raiseLevel j (bn + s.level q.p))
  else next bracketNumber j s

end Search

/-- `workflow_number_of`: the loop stops when more than one end has been counted. -/
def numberOf (q : Query) : Nat → Int → Nat → Search → Search × Nat
  | 0, _, _, s => (s, 0)
  | fuel + 1, bracketNumber, k, s =>
    if s.wf.tasksNum ≤ k then (s, 0)
    else
      (Lib.foldWhile (fun r j =>
        let (s, n) := Search.visit q (numberOf q fuel) bracketNumber r.1 j
        ((s, r.2 + n), r.2 + n ≤ 1)) (s.wf.tasks k).dependentsIndexes (s, 0)).1

/-! ## The validation -/

namespace Search

/-- A search from task `q.p`, with all the flags set. -/
def start (s : Search) (q : Query) : Search × Nat :=
  numberOf q s.wf.tasksNum 0 q.p { s with flag := fun _ => true }

/-- Some task linked to `k` does not lead to `child`. -/
def wrong (s : Search) (k : Nat) (op : Operator) : Bool :=
  (List.range s.wf.tasksNum).any fun i =>
    (s.wf.tasks i).parent = k && (s.wf.tasks k).operator ≠ op && !isChildOf s.wf s.child (s.wf.tasksNum + 1) i

def check (s : Search) (k : Nat) (op : Operator) : Except ExitCode Search :=
  if s.wrong k op then .error .badParamError else .ok s

/-- The end of a loop. -/
def validateFor (s : Search) (k : Nat) : Except ExitCode Search :=
  let (s, number) := s.start { p := k, gp := k, op := .endfor, nop := .for }
  if number = 0 ∨ 1 < number then .error .badParamError else s.check k .endfor

/-- The next branch of a selection, if any: an `ELSEIF` or else an `ELSE`. -/
def validateBranch (s : Search) (k : Nat) (gp : Int) : Except ExitCode Search :=
  let (s, number) := { s with child := -1 }.start { p := k, gp := gp, op := .elseif, nop := .if }
  if 1 < number then .error .badParamError
  else if 0 ≤ s.child then s.check k .elseif
  else
    let (s, number) := { s with child := -1 }.start { p := k, gp := gp, op := .else, nop := .if }
    if 1 < number then .error .badParamError
    else if 0 ≤ s.child then s.check k .else
    else .ok s

/-- The condition on `number` is never met. -/
def validateIf (s : Search) (k : Nat) : Except ExitCode Search := do
  let s ← s.validateBranch k k
  let (s, number) := s.start { p := k, gp := k, op := .endif, nop := .if }
  if number = 0 ∧ 1 < number then .error .badParamError else s.check k .endif

/-- The end of a selection, from its last branch. -/
def validateEndif (s : Search) (k : Nat) (gp : Int) : Except ExitCode Search :=
  let (s, number) := s.start { p := k, gp := gp, op := .endif, nop := .if }
  if number = 0 ∨ 1 < number then .error .badParamError else s.check k .endif

def validateElseif (s : Search) (k : Nat) : Except ExitCode Search := do
  let gp := gparentOf s.wf k
  let s ← s.validateBranch k gp
  if 0 ≤ s.child then .ok s else s.validateEndif k gp

def validateElse (s : Search) (k : Nat) : Except ExitCode Search := s.validateEndif k (gparentOf s.wf k)

def validateTask (s : Search) (k : Nat) : Except ExitCode Search :=
  match (s.wf.tasks k).operator with
  | .for => s.validateFor k
  | .if => s.validateIf k
  | .elseif => s.validateElseif k
  | .else => s.validateElse k
  | _ => .ok s

end Search

/-- A task without its links. -/
def Task.unlink (t : Task) : Task := { t with parent := -1, child := -1, branchNum := 0, nestingLevel := 0 }

def Operator.isEnd : Operator → Bool
  | .endfor | .elseif | .else | .endif => true
  | _ => false

/-- `oph_workflow_validate_fco`; the local variable `child` is not initialised. -/
def validateFco (child : Int) (wf : Workflow) : Except ExitCode Workflow := do
  let s : Search := { wf := { wf with tasks := fun k => if k < wf.tasksNum then (wf.tasks k).unlink else wf.tasks k }, level := fun _ => 0, flag := fun _ => true, child := child }
  let s ← (List.range wf.tasksNum).foldlM Search.validateTask s
  if (List.range wf.tasksNum).any fun k => (s.wf.tasks k).parent < 0 && (s.wf.tasks k).operator.isEnd then
    .error .badParamError
  else .ok s.wf

end OphidiaWorkflow
