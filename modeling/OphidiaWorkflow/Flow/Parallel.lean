import OphidiaWorkflow.Flow.Iteration
import OphidiaWorkflow.Lib.Replicate

/-!
`oph_workflow_parallel_fco`: the body of a parallel loop is copied, one branch for each further value of the loop, and
the tasks outside the body are linked to the copies as they are to the body.

What the arguments of a task say is an answer of the environment, for they may name files. Arrays of fixed size are
filled entry by entry; the outcome is `outOfBounds` as soon as an entry is written past the end of one of them.
-/
namespace OphidiaWorkflow

/-- The arguments of an `oph_for`: `parallel` is `none` when the argument with that name is wrong, `args` when some
other argument cannot be parsed. -/
structure ForReading where
  parallel : Option Bool
  args : Option ForArgs

/-! ## The body of the loop -/

def Task.mark (t : Task) : Task := { t with isMarked := true }

/-- Task `j` is marked if the end of the loop is below it; the end itself is not. -/
def markVisit (child : Int) (wf : Workflow) (j : Nat) : Option Workflow :=
  if (j : Int) = child then none
  else if isChildOf wf child (wf.tasksNum + 1) j then some (wf.modify j Task.mark)
  else none

/-- `oph_workflow_mark_children_of`: the tasks between task `p` and its end. -/
def markChildrenOf (wf : Workflow) (p : Nat) : Workflow :=
  Lib.traverse (markVisit (wf.tasks p).child) (fun wf j => (wf.tasks j).dependentsIndexes) (wf.tasksNum + 1)
    (wf.tasks p).dependentsIndexes wf

/-- `is_marked = 0` for all the tasks. -/
def clearMarks (wf : Workflow) : Workflow :=
  { wf with tasks := fun j => if j < wf.tasksNum then { wf.tasks j with isMarked := false } else wf.tasks j }

/-- The marked tasks, in the order of the array. -/
def markedTasks (wf : Workflow) : List Nat := (List.range wf.tasksNum).filter fun j => (wf.tasks j).isMarked

/-! ## The new branches -/

/-- A loop that is about to be replicated: the tasks of its body are marked. -/
structure Explosion where
  wf : Workflow
  head : Nat
  name : String
  args : ForArgs

namespace Explosion

variable (x : Explosion)

/-- `old_tasks_num` -/
def oldTasksNum : Nat := x.wf.tasksNum

/-- `new_branch_num` -/
def newBranchNum : Nat := x.args.valuesNum - 1

def body : List Nat := markedTasks x.wf

/-- `replied_num` -/
def repliedNum : Nat := x.body.length

def marked (j : Nat) : Bool := (x.wf.tasks j).isMarked

/-- `tasks_num` after the expansion. -/
def tasksNum : Nat := x.oldTasksNum + x.repliedNum * x.newBranchNum

/-- The copy of task `a` in the new branch `q`; `new_index[a]` is the place of `a` in the body. -/
def copy (q a : Nat) : Nat := x.oldTasksNum + q * x.repliedNum + x.body.idxOf a

/-- The branch of the new task `k`. -/
def branch (k : Nat) : Nat := (k - x.oldTasksNum) / x.repliedNum

/-- The task that the new task `k` is a copy of. -/
def origin (k : Nat) : Nat := x.body.getD ((k - x.oldTasksNum) % x.repliedNum) 0

end Explosion

/-- The name of a task in the branch `suffix`: the suffix is appended to those it has already. -/
def expandName (name : String) (suffix : Nat) : String :=
  if name.toList.getLast? = some ')' then String.ofList name.toList.dropLast ++ "," ++ toString suffix ++ ")"
  else name ++ " (" ++ toString suffix ++ ")"

/-- `oph_workflow_copy_task` -/
def Task.copy (t : Task) (suffix : Nat) : Task :=
  { t with
    name := expandName t.name suffix
    deps := t.deps.map fun d => { d with taskName := "" } }

/-- `oph_workflow_expand`, with the copies of the body: the final task is moved past them. -/
def Explosion.expand (x : Explosion) : Workflow :=
  { x.wf with
    tasks := fun k =>
      if k < x.oldTasksNum then x.wf.tasks k
      else if k < x.tasksNum then (x.wf.tasks (x.origin k)).copy (2 + x.branch k)
      else if k = x.tasksNum then x.wf.tasks x.oldTasksNum
      else {}
    tasksNum := x.tasksNum
    residualTasksNum := x.tasksNum }

/-- The body becomes the first branch. -/
def Explosion.rename (x : Explosion) (wf : Workflow) : Workflow :=
  { wf with tasks := fun k =>
      if k < x.oldTasksNum ∧ x.marked k then { wf.tasks k with name := expandName (wf.tasks k).name 1 }
      else wf.tasks k }

/-- `deps[k].task_name` is read again from the task it points to. -/
def Dep.refresh (tasks : Nat → Task) (d : Dep) : Dep := { d with taskName := (tasks d.taskIndex.toNat).name }

/-- A copy in branch `q` is linked to the copies of the same branch. -/
def Explosion.relinkCopy (x : Explosion) (tasks : Nat → Task) (q : Nat) (t : Task) : Task :=
  { t with
    dependentsIndexes := t.dependentsIndexes.map fun d => if x.marked d then x.copy q d else d
    deps := t.deps.map fun d =>
      (if x.marked d.taskIndex.toNat then { d with taskIndex := x.copy q d.taskIndex.toNat } else d).refresh tasks }

def Explosion.relinkCopies (x : Explosion) (wf : Workflow) : Workflow :=
  { wf with tasks := fun k =>
      if x.oldTasksNum ≤ k ∧ k < x.tasksNum then x.relinkCopy wf.tasks (x.branch k) (wf.tasks k) else wf.tasks k }

/-! ## The tasks outside the body -/

/-- An entry is written after the others of an array with room for `size` of them. -/
def writeEntry {α : Type} (size : Nat) (array : List α) (entry : α) : Option (List α) :=
  if array.length < size then some (array ++ [entry]) else none

/-- The entries written into an array with room for `size` of them. -/
def fillArray {α : Type} (size : Nat) (entries : List α) : Option (List α) := entries.foldlM (writeEntry size) []

/-- The entries of `tmp_array`. -/
def Explosion.newDependents (x : Explosion) (dependents : List Nat) : List Nat :=
  dependents.flatMap fun d => if x.marked d then (List.range x.newBranchNum).map fun q => x.copy q d else []

/-- The entries of `tmp_array_dep`. -/
def Explosion.newDeps (x : Explosion) (tasks : Nat → Task) (deps : List Dep) : List Dep :=
  deps.flatMap fun d =>
    if x.marked d.taskIndex.toNat then
      (List.range x.newBranchNum).map fun q =>
        ({ d with taskIndex := x.copy q d.taskIndex.toNat } : Dep).refresh tasks
    else []

/-- A task outside the body is linked to the copies; the array `tmp_array` has as many entries as there are copies, and
so has `tmp_array_dep`. -/
def Explosion.relinkTask (x : Explosion) (wf : Workflow) (j : Nat) : Option Workflow :=
  if x.marked j then some (wf.modify j fun t => { t with deps := t.deps.map (Dep.refresh wf.tasks) })
  else do
    let dependents ← fillArray (x.newBranchNum * x.repliedNum) (x.newDependents (wf.tasks j).dependentsIndexes)
    let deps ← fillArray (x.newBranchNum * x.repliedNum) (x.newDeps wf.tasks (wf.tasks j).deps)
    some (wf.modify j fun t => { t with
      dependentsIndexes := t.dependentsIndexes ++ dependents
      deps := t.deps ++ deps
      residualDepsNum := t.residualDepsNum + deps.length })

/-- The dependences on the body take the new names of its tasks. -/
def Explosion.refreshNames (x : Explosion) (wf : Workflow) : Workflow :=
  { wf with tasks := fun j =>
      if j < x.oldTasksNum then
        { wf.tasks j with
          deps := (wf.tasks j).deps.map fun d =>
            if x.marked d.taskIndex.toNat ∧ d.taskIndex.toNat < x.oldTasksNum then d.refresh wf.tasks else d }
      else wf.tasks j }

/-! ## The variables of the branches -/

def Task.insertVar (name : String) (v : Var) (t : Task) : Task :=
  { t with vars := Function.update t.vars name (some v) }

/-- A variable of a task is added only if it does not exist; the first failure ends the loop. -/
def addTaskVar (name : String) (v : Nat → Var) (wf : Workflow) (j : Nat) : Workflow × Bool :=
  if !(wf.tasks j).isMarked then (wf, true)
  else if ((wf.tasks j).vars name).isSome then (wf, false)
  else (wf.modify j (Task.insertVar name (v j)), true)

/-- The variable of the loop is added to the tasks of all its branches, where task `j` is in the branch `k j`. -/
def addTaskVars (wf : Workflow) (head : Nat) (name : String) (a : ForArgs) (k : Nat → Nat) : Workflow :=
  (Lib.foldWhile (addTaskVar name fun j => loopVar head a.svalues a.ivalues (k j)) (List.range wf.tasksNum) wf).1

/-- The body is copied; `none` when an array is too short. -/
def Explosion.run (x : Explosion) : Option Workflow := do
  let wf ← (List.range x.oldTasksNum).foldlM x.relinkTask (x.relinkCopies (x.rename x.expand))
  some (addTaskVars (x.refreshNames wf) x.head x.name x.args fun j =>
    if j < x.oldTasksNum then 0 else 1 + x.branch j)

/-! ## The whole function -/

/-- What ends the loop over the tasks before its end. -/
inductive ScanExit
  | invalid
  | explode (x : Explosion)

def Task.setParallelMode (on : Bool) (t : Task) : Task := { t with parallelMode := on }

/-- The number of branches becomes a variable; its name is cut to the size of a variable in memory. -/
def addBranchesNum (wf : Workflow) (name : String) (valuesNum : Nat) : Workflow :=
  let key := String.ofList ((name ++ "_size").toList.take 23)
  if (wf.vars key).isSome then wf
  else wf.insertVar key { caller := -1, svalue := toString valuesNum, ivalue := 1 }

/-- A parallel loop: with one value only, or nothing in its body, there is nothing to copy. -/
def scanParallel (args : Option ForArgs) (wf : Workflow) (i : Nat) : Except ScanExit Workflow :=
  match args with
  | none => .error .invalid
  | some a =>
    match a.name with
    | none => .error .invalid
    | some name =>
      if !a.sizesAgree then .error .invalid
      else
        let wf := markChildrenOf (clearMarks wf) i
        if (markedTasks wf).length = 0 then .ok wf
        else
          let wf := addBranchesNum wf name a.valuesNum
          if a.valuesNum - 1 = 0 then .ok (addTaskVars wf i name a fun _ => 0)
          else .error (.explode { wf := wf, head := i, name := name, args := a })

/-- The body of the loop over the tasks; the flag tells that a loop with a higher nesting level has been found. -/
def scanTask (read : Task → ForReading) (nestingLevel : Int) (s : Workflow × Bool) (i : Nat) :
    Except ScanExit (Workflow × Bool) :=
  let t := s.1.tasks i
  if t.operator ≠ .for ∨ t.parallelMode then .ok s
  else
    match (read t).parallel with
    | none => .error .invalid
    | some false => .ok s
    | some true =>
      if nestingLevel < t.nestingLevel then .ok (s.1, true)
      else (scanParallel (read t).args (s.1.modify i (Task.setParallelMode true)) i).map fun wf => (wf, s.2)

def scan (read : Task → ForReading) (nestingLevel : Int) (wf : Workflow) : Except ScanExit (Workflow × Bool) :=
  (List.range wf.tasksNum).foldlM (scanTask read nestingLevel) (wf, false)

/-- Outcome of `oph_workflow_parallel_fco`; `endless` when the recursion is not over. -/
inductive Expanded
  | done (wf : Workflow)
  | badParam
  | outOfBounds
  | endless

/-- `oph_workflow_parallel_fco` -/
def parallelFco (read : Task → ForReading) : Nat → Int → Workflow → Expanded
  | 0, _, _ => .endless
  | fuel + 1, nestingLevel, wf =>
    match scan read nestingLevel wf with
    | .error .invalid => .badParam
    | .error (.explode x) =>
      match x.run with
      | none => .outOfBounds
      | some wf => parallelFco read fuel nestingLevel wf
    | .ok (wf, true) => parallelFco read fuel (nestingLevel + 1) wf
    | .ok (wf, false) => .done wf

/-! ## Links -/

/-- The tasks that a task depends on. -/
def Task.targets (t : Task) : List Nat := t.deps.map fun d => d.taskIndex.toNat

/-- The links of a task, in both directions. -/
def Task.links (t : Task) : List Nat × List Nat := (t.dependentsIndexes, t.targets)

/-- Both ends of a link know of it, and none leads out of the workflow. -/
structure Meshed (wf : Workflow) : Prop where
  mirrored : Lib.Mirrored (fun a => (wf.tasks a).dependentsIndexes) fun b => (wf.tasks b).targets
  targets_lt : ∀ b, ∀ a ∈ (wf.tasks b).targets, a < wf.tasksNum
  final : ∀ b, wf.tasksNum ≤ b → (wf.tasks b).targets = []

theorem Meshed.dependents_lt {wf : Workflow} (h : Meshed wf) (a : Nat) :
    ∀ b ∈ (wf.tasks a).dependentsIndexes, b < wf.tasksNum := by
  intro b hb
  by_contra hn
  have hcount := h.mirrored a b
  simp only [h.final b (Nat.not_lt.mp hn), List.count_nil] at hcount
  exact List.count_eq_zero.mp hcount hb

/-- The links of an accepted workflow. -/
theorem meshed_of_validateFco {loaded : LoadedWorkflow} {tasks : Nat → Task} {child : Int} {wf : Workflow}
    (h : indexing loaded.tasks loaded.tasksNum = .ok tasks)
    (hf : validateFco child { loaded.toWorkflow with tasks := tasks } = .ok wf) : Meshed wf := by
  obtain ⟨hI, hskel⟩ := indexing_indexed loaded.fresh h
  have hg := (validateFco_ok hf).1.linking.graph
  have hdeps (i : Nat) : (wf.tasks i).deps = (tasks i).deps := congrArg (fun t => t.deps) (hg.unlink i)
  have hfinal (i : Nat) (hi : loaded.tasksNum ≤ i) : (tasks i).deps = [] := by
    rw [← List.length_eq_zero_iff, Task.deps_length_of_skeleton (hskel i), loaded.deps_final i hi]
    rfl
  have hresolved (i : Nat) (d : Dep) (hd : d ∈ (tasks i).deps) : ∃ k < loaded.tasksNum, d.taskIndex = (k : Int) := by
    by_cases hi : i < loaded.tasksNum
    · obtain ⟨k, hk, hd, -⟩ := hI.resolved i hi d hd
      exact ⟨k, hk, hd⟩
    · rw [hfinal i (Nat.not_lt.mp hi)] at hd
      exact absurd hd List.not_mem_nil
  refine ⟨fun a b => ?_, fun b a ha => ?_, fun b hb => ?_⟩
  · show (wf.tasks a).dependentsIndexes.count b = (wf.tasks b).targets.count a
    rw [hg.dependents, hI.mirror a b, Task.targets, hdeps, Task.depCount, List.count_eq_countP, List.countP_map]
    refine List.countP_congr fun d hd => ?_
    obtain ⟨k, -, hk⟩ := hresolved b d hd
    simp [hk]
  · rw [Task.targets, hdeps] at ha
    obtain ⟨d, hd, rfl⟩ := List.mem_map.mp ha
    obtain ⟨k, hk, hd⟩ := hresolved b d hd
    rw [hg.tasksNum, hd]
    exact hk
  · rw [hg.tasksNum] at hb
    rw [Task.targets, hdeps, hfinal b hb]
    rfl

/-! ## The copies -/

namespace Explosion

variable (x : Explosion)

theorem mem_body {a : Nat} : a ∈ x.body ↔ a < x.oldTasksNum ∧ x.marked a = true := by
  unfold body markedTasks oldTasksNum marked
  rw [List.mem_filter, List.mem_range]

theorem body_nodup : x.body.Nodup := List.Nodup.filter _ List.nodup_range

/-- The place of a new task in the array gives its branch and the task it is a copy of. -/
theorem copy_spec {q a : Nat} (hq : q < x.newBranchNum) (ha : a ∈ x.body) :
    x.oldTasksNum ≤ x.copy q a ∧ x.copy q a < x.tasksNum ∧ x.branch (x.copy q a) = q ∧ x.origin (x.copy q a) = a := by
  have hidx : x.body.idxOf a < x.repliedNum := List.idxOf_lt_length_of_mem ha
  have hsub : x.copy q a - x.oldTasksNum = x.body.idxOf a + x.repliedNum * q := by
    rw [copy, Nat.mul_comm]
    omega
  refine ⟨by rw [copy]; omega, ?_, ?_, ?_⟩
  · have hmul : x.repliedNum * (q + 1) ≤ x.repliedNum * x.newBranchNum := Nat.mul_le_mul_left _ hq
    rw [Nat.mul_add, Nat.mul_one] at hmul
    rw [copy, tasksNum, Nat.mul_comm q]
    omega
  · rw [branch, hsub, Nat.add_mul_div_left _ _ (by omega), Nat.div_eq_of_lt hidx, Nat.zero_add]
  · rw [origin, hsub, Nat.add_mul_mod_self_left, Nat.mod_eq_of_lt hidx, List.getD_eq_getElem?_getD,
      List.getElem?_eq_getElem hidx, Option.getD_some]
    exact List.getElem_idxOf hidx

/-- Each new task is a copy. -/
theorem exists_copy {k : Nat} (h : x.oldTasksNum ≤ k) (hk : k < x.tasksNum) :
    x.branch k < x.newBranchNum ∧ x.origin k ∈ x.body ∧ k = x.copy (x.branch k) (x.origin k) := by
  have hlt : k - x.oldTasksNum < x.repliedNum * x.newBranchNum := by
    rw [tasksNum] at hk
    omega
  have hpos : 0 < x.repliedNum := Nat.pos_of_ne_zero fun h0 => by simp [h0] at hlt
  have hmod : (k - x.oldTasksNum) % x.repliedNum < x.body.length := Nat.mod_lt _ hpos
  have horigin : x.origin k = x.body[(k - x.oldTasksNum) % x.repliedNum] := by
    rw [origin, List.getD_eq_getElem?_getD, List.getElem?_eq_getElem hmod, Option.getD_some]
  refine ⟨Nat.div_lt_of_lt_mul hlt, ?_, ?_⟩
  · rw [horigin]
    exact List.getElem_mem hmod
  · rw [copy, horigin, x.body_nodup.idxOf_getElem, branch]
    have hdiv := Nat.div_add_mod' (k - x.oldTasksNum) x.repliedNum
    omega

/-- The body and its copies. -/
def replication : Lib.Replication Nat Nat where
  node := fun a => a < x.oldTasksNum
  part := x.marked
  branches := List.range x.newBranchNum
  copy := x.copy
  nodup := List.nodup_range
  fresh := fun q hq a ha hm => by
    obtain ⟨hge, -⟩ := x.copy_spec (List.mem_range.mp hq) (x.mem_body.mpr ⟨ha, hm⟩)
    exact Nat.not_lt.mpr hge
  inj := fun q hq q' hq' a a' ha hm ha' hm' h => by
    obtain ⟨-, -, hb, ho⟩ := x.copy_spec (List.mem_range.mp hq) (x.mem_body.mpr ⟨ha, hm⟩)
    obtain ⟨-, -, hb', ho'⟩ := x.copy_spec (List.mem_range.mp hq') (x.mem_body.mpr ⟨ha', hm'⟩)
    exact ⟨by rw [← hb, ← hb', h], by rw [← ho, ← ho', h]⟩

end Explosion

/-! ## What is written -/

theorem fillArray_eq {α : Type} (size : Nat) (entries : List α) :
    fillArray size entries = if entries.length ≤ size then some entries else none := by
  have hfold (array : List α) (h : array.length ≤ size) : entries.foldlM (writeEntry size) array =
      if array.length + entries.length ≤ size then some (array ++ entries) else none := by
    induction entries generalizing array with
    | nil => simp [h]
    | cons e l ih =>
      rw [List.foldlM_cons, writeEntry]
      by_cases hlt : array.length < size
      · rw [if_pos hlt, Option.bind_eq_bind, Option.bind_some, ih _ (by simpa using hlt)]
        simp only [List.length_append, List.length_cons, List.length_nil, List.append_assoc, List.singleton_append]
        congr 1
        rw [eq_iff_iff]
        omega
      · rw [if_neg hlt, if_neg (by rw [List.length_cons]; omega)]
        rfl
  simpa [fillArray] using hfold [] (Nat.zero_le size)

namespace Explosion

variable (x : Explosion)

theorem newDependents_eq (dependents : List Nat) : x.newDependents dependents = x.replication.copies dependents := rfl

theorem targets_newDeps (tasks : Nat → Task) (deps : List Dep) :
    (x.newDeps tasks deps).map (fun d => d.taskIndex.toNat) =
      x.replication.copies (deps.map fun d => d.taskIndex.toNat) := by
  unfold newDeps Lib.Replication.copies
  rw [List.map_flatMap, List.flatMap_map]
  refine List.flatMap_congr fun d _ => ?_
  show List.map _ (if x.marked d.taskIndex.toNat = true then _ else _) = if x.marked d.taskIndex.toNat = true then _ else _
  split_ifs
  · rw [List.map_map]
    rfl
  · rfl

theorem length_newDeps (tasks : Nat → Task) (deps : List Dep) : (x.newDeps tasks deps).length =
    (x.replication.copies (deps.map fun d => d.taskIndex.toNat)).length := by
  rw [← targets_newDeps x tasks, List.length_map]

end Explosion

/-! ## What a run of the loop body does to the links -/

section Links

theorem targets_map {deps : List Dep} {f : Dep → Dep} (hf : ∀ d, (f d).taskIndex = d.taskIndex) :
    (deps.map f).map (fun d => d.taskIndex.toNat) = deps.map fun d => d.taskIndex.toNat := by
  rw [List.map_map]
  exact List.map_congr_left fun d _ => congrArg Int.toNat (hf d)

theorem copy_links (t : Task) (suffix : Nat) : (t.copy suffix).links = t.links :=
  Prod.ext rfl (targets_map fun _ => rfl)

/-- The same links in workflows of the same size. -/
structure SameLinkage (wf wf' : Workflow) : Prop where
  tasksNum : wf'.tasksNum = wf.tasksNum
  links : ∀ k, (wf'.tasks k).links = (wf.tasks k).links

theorem SameLinkage.refl (wf : Workflow) : SameLinkage wf wf := ⟨rfl, fun _ => rfl⟩

theorem SameLinkage.trans {wf wf' wf'' : Workflow} (h : SameLinkage wf wf') (h' : SameLinkage wf' wf'') :
    SameLinkage wf wf'' := ⟨h'.tasksNum.trans h.tasksNum, fun k => (h'.links k).trans (h.links k)⟩

theorem SameLinkage.modify {wf : Workflow} {i : Nat} {f : Task → Task}
    (hf : (f (wf.tasks i)).links = (wf.tasks i).links) :
    SameLinkage wf (wf.modify i f) := by
  refine ⟨rfl, fun k => ?_⟩
  rw [Workflow.modify_tasks]
  split_ifs with hk
  · rw [hk, hf]
  · rfl

theorem addTaskVars_linkage (wf : Workflow) (head : Nat) (name : String) (a : ForArgs) (k : Nat → Nat) :
    SameLinkage wf (addTaskVars wf head name a k) := by
  refine Lib.foldWhile_induct (SameLinkage wf) (.refl wf) fun j _ u h => ?_
  unfold addTaskVar
  split_ifs
  · exact h
  · exact h
  · exact h.trans (.modify (f := Task.insertVar name _) rfl)

variable (x : Explosion)

theorem refreshNames_linkage (wf : Workflow) : SameLinkage wf (x.refreshNames wf) := by
  refine ⟨rfl, fun k => ?_⟩
  unfold Explosion.refreshNames
  dsimp only
  split_ifs
  · refine Prod.ext rfl (targets_map fun d => ?_)
    split_ifs <;> rfl
  · rfl

/-- The workflow when the dependences of the tasks outside the body are about to be updated. -/
def Explosion.relinked : Workflow := x.relinkCopies (x.rename x.expand)

theorem relinked_links_old {k : Nat} (hk : k < x.oldTasksNum) : (x.relinked.tasks k).links = (x.wf.tasks k).links := by
  have hne : ¬ (x.oldTasksNum ≤ k ∧ k < x.tasksNum) := fun h => Nat.not_lt.mpr h.1 hk
  unfold Explosion.relinked Explosion.relinkCopies Explosion.rename Explosion.expand
  simp only [hne, hk, ↓reduceIte, true_and]
  split_ifs <;> rfl

theorem relinkCopy_links (tasks : Nat → Task) (q : Nat) (t : Task) : (x.relinkCopy tasks q t).links =
    (x.replication.shift q t.links.1, x.replication.shift q t.links.2) := by
  refine Prod.ext rfl ?_
  unfold Explosion.relinkCopy Task.links Task.targets Lib.Replication.shift
  simp only [List.map_map]
  refine List.map_congr_left fun d _ => ?_
  show (Dep.refresh tasks (if x.marked d.taskIndex.toNat = true then _ else _)).taskIndex.toNat =
    if x.marked d.taskIndex.toNat = true then _ else _
  split_ifs <;> rfl

theorem relinked_links_copy {q a : Nat} (hq : q < x.newBranchNum) (ha : a ∈ x.body) :
    (x.relinked.tasks (x.copy q a)).links =
      (x.replication.shift q (x.wf.tasks a).dependentsIndexes, x.replication.shift q (x.wf.tasks a).targets) := by
  obtain ⟨hge, hlt, hbranch, horigin⟩ := x.copy_spec hq ha
  have hnew : ¬ x.copy q a < x.oldTasksNum := Nat.not_lt.mpr hge
  unfold Explosion.relinked Explosion.relinkCopies Explosion.rename Explosion.expand
  simp only [hge, hlt, hnew, hbranch, horigin, and_self, false_and, ↓reduceIte]
  rw [relinkCopy_links, copy_links]
  rfl

theorem relinked_links_rest (h : Meshed x.wf) {k : Nat} (hk : x.tasksNum ≤ k) :
    (x.relinked.tasks k).links = ([], []) := by
  have hlast : (x.wf.tasks x.oldTasksNum).links = ([], []) := by
    refine Prod.ext (List.eq_nil_iff_forall_not_mem.mpr fun b hb => ?_) (h.final x.oldTasksNum (Nat.le_refl _))
    -- a task that depended on the final one would point out of the workflow
    have hcount : 0 < (x.wf.tasks b).targets.count x.oldTasksNum := by
      rw [← h.mirrored x.oldTasksNum b]
      exact List.count_pos_iff.mpr hb
    exact absurd (h.targets_lt b _ (List.count_pos_iff.mp hcount)) (Nat.lt_irrefl _)
  have hold : x.oldTasksNum ≤ x.tasksNum := Nat.le_add_right _ _
  have hnew : ¬ k < x.oldTasksNum := Nat.not_lt.mpr (hold.trans hk)
  have hlt : ¬ k < x.tasksNum := Nat.not_lt.mpr hk
  unfold Explosion.relinked Explosion.relinkCopies Explosion.rename Explosion.expand
  simp only [hnew, hlt, and_false, false_and, ↓reduceIte]
  split_ifs
  · exact hlast
  · rfl

/-- What a task outside the body writes fits the arrays. -/
def Explosion.FitsTask (j : Nat) : Prop :=
  x.marked j = false →
    (x.newDependents (x.wf.tasks j).dependentsIndexes).length ≤ x.newBranchNum * x.repliedNum ∧
      (x.newDeps x.relinked.tasks (x.wf.tasks j).deps).length ≤ x.newBranchNum * x.repliedNum

/-- The links of a task outside the body, after the update. -/
def Explosion.widen (l : List Nat × List Nat) : List Nat × List Nat :=
  (l.1 ++ x.replication.copies l.1, l.2 ++ x.replication.copies l.2)

/-- The links when the tasks below `i` have been updated. -/
structure Explosion.Relinking (i : Nat) (wf : Workflow) : Prop where
  tasksNum : wf.tasksNum = x.tasksNum
  done : ∀ k < i, x.marked k = false → (wf.tasks k).links = x.widen (x.wf.tasks k).links
  rest : ∀ k, (k < i → x.marked k = true) → (wf.tasks k).links = (x.relinked.tasks k).links

variable {x}

theorem Explosion.Relinking.links_self {i : Nat} {wf : Workflow} (h : x.Relinking i wf) (hi : i < x.oldTasksNum) :
    (wf.tasks i).links = (x.wf.tasks i).links :=
  (h.rest i fun hlt => absurd hlt (Nat.lt_irrefl i)).trans (relinked_links_old x hi)

theorem Explosion.Relinking.modify {i : Nat} {wf : Workflow} {f : Task → Task} (h : x.Relinking i wf)
    (hi : i < x.oldTasksNum)
    (hout : x.marked i = false → (f (wf.tasks i)).links = x.widen (wf.tasks i).links)
    (hin : x.marked i = true → (f (wf.tasks i)).links = (wf.tasks i).links) : x.Relinking (i + 1) (wf.modify i f) := by
  refine ⟨h.tasksNum, fun k hk hm => ?_, fun k hk => ?_⟩
  · rw [Workflow.modify_tasks]
    split_ifs with hki
    · rw [hki, ← h.links_self hi]
      exact hout (hki ▸ hm)
    · exact h.done k (by omega) hm
  · rw [Workflow.modify_tasks]
    split_ifs with hki
    · rw [hki, hin (hki ▸ hk (by omega)), h.rest i fun hlt => absurd hlt (Nat.lt_irrefl i)]
    · exact h.rest k fun hlt => hk (by omega)

theorem Explosion.length_newDeps_of_links {tasks tasks' : Nat → Task} {t t' : Task} (h : t'.links = t.links) :
    (x.newDeps tasks' t'.deps).length = (x.newDeps tasks t.deps).length := by
  have ht : t'.targets = t.targets := congrArg Prod.snd h
  rw [length_newDeps, length_newDeps]
  exact congrArg (fun l => (x.replication.copies l).length) ht

theorem Explosion.Relinking.step {i : Nat} {wf : Workflow} (h : x.Relinking i wf) (hi : i < x.oldTasksNum) :
    (x.FitsTask i → ∃ wf', x.relinkTask wf i = some wf' ∧ x.Relinking (i + 1) wf') ∧
      (¬ x.FitsTask i → x.relinkTask wf i = none) := by
  have hlinks := h.links_self hi
  have hdependents : (wf.tasks i).dependentsIndexes = (x.wf.tasks i).dependentsIndexes := congrArg Prod.fst hlinks
  have hlen : (x.newDeps wf.tasks (wf.tasks i).deps).length = (x.newDeps x.relinked.tasks (x.wf.tasks i).deps).length :=
    Explosion.length_newDeps_of_links hlinks
  unfold Explosion.relinkTask Explosion.FitsTask
  by_cases hm : x.marked i = true
  · rw [if_pos hm]
    refine ⟨fun _ => ⟨_, rfl, h.modify hi (fun hn => ?_) fun _ => Prod.ext rfl (targets_map fun _ => rfl)⟩,
      fun hn => ?_⟩
    · rw [hm] at hn
      cases hn
    · exact absurd (fun hf => absurd (hm.symm.trans hf) Bool.noConfusion) hn
  · rw [if_neg hm, fillArray_eq, fillArray_eq, hdependents, hlen]
    rw [Bool.not_eq_true] at hm
    rw [forall_prop_of_true hm]
    constructor
    · rintro ⟨h₁, h₂⟩
      rw [if_pos h₁, if_pos h₂]
      refine ⟨_, rfl, h.modify hi (fun _ => ?_) fun ht => ?_⟩
      · refine Prod.ext ?_ ?_
        · rw [← hdependents]
          rfl
        · show List.map _ ((wf.tasks i).deps ++ x.newDeps wf.tasks (wf.tasks i).deps) = _
          rw [List.map_append, targets_newDeps]
          rfl
      · rw [hm] at ht
        cases ht
    · intro hn
      by_cases h₁ : (x.newDependents (x.wf.tasks i).dependentsIndexes).length ≤ x.newBranchNum * x.repliedNum
      · rw [if_pos h₁, if_neg fun h₂ => hn ⟨h₁, h₂⟩]
        rfl
      · rw [if_neg h₁]
        rfl

theorem Explosion.run_cases (x : Explosion) :
    ((∀ j < x.oldTasksNum, x.FitsTask j) → ∃ wf, x.run = some wf ∧ x.Relinking x.oldTasksNum wf) ∧
      ((¬ ∀ j < x.oldTasksNum, x.FitsTask j) → x.run = none) := by
  have h0 : x.Relinking 0 x.relinked := ⟨rfl, fun k hk => absurd hk (Nat.not_lt_zero k), fun k _ => rfl⟩
  obtain ⟨hsome, hnone⟩ := Lib.foldlM_range_option (x.Relinking) x.FitsTask h0
    (fun i hi wf h => (h.step hi).1) fun i hi wf h => (h.step hi).2
  constructor
  · intro hfits
    obtain ⟨wf, hwf, h⟩ := hsome hfits
    have hlast := (refreshNames_linkage x wf).trans (addTaskVars_linkage (x.refreshNames wf) x.head x.name x.args fun j =>
      if j < x.oldTasksNum then 0 else 1 + x.branch j)
    refine ⟨_, ?_, hlast.tasksNum.trans h.tasksNum, fun k hk hm => (hlast.links k).trans (h.done k hk hm),
      fun k hk => (hlast.links k).trans (h.rest k hk)⟩
    unfold Explosion.run
    rw [← Explosion.relinked, hwf]
    rfl
  · intro hnot
    unfold Explosion.run
    rw [← Explosion.relinked, hnone hnot]
    rfl

/-- The links after the body has been copied. -/
theorem Explosion.Relinking.replicates {wf : Workflow} (hx : Meshed x.wf) (h : x.Relinking x.oldTasksNum wf) :
    x.replication.Replicates (fun a => (x.wf.tasks a).dependentsIndexes) (fun a => (wf.tasks a).dependentsIndexes) ∧
      x.replication.Replicates (fun a => (x.wf.tasks a).targets) fun a => (wf.tasks a).targets := by
  have hinside (a : Nat) (ha : a < x.oldTasksNum) (hm : x.marked a = true) :
      (wf.tasks a).links = (x.wf.tasks a).links :=
    (h.rest a fun _ => hm).trans (relinked_links_old x ha)
  have houtside (a : Nat) (ha : a < x.oldTasksNum) (hm : x.marked a = false) :
      (wf.tasks a).links = x.widen (x.wf.tasks a).links := h.done a ha hm
  have hcopied (q : Nat) (hq : q ∈ List.range x.newBranchNum) (a : Nat) (ha : a < x.oldTasksNum) (hm : x.marked a = true) :
      (wf.tasks (x.copy q a)).links =
        (x.replication.shift q (x.wf.tasks a).dependentsIndexes, x.replication.shift q (x.wf.tasks a).targets) := by
    rw [List.mem_range] at hq
    have hbody := x.mem_body.mpr ⟨ha, hm⟩
    rw [h.rest _ fun hlt => absurd hlt (Nat.not_lt.mpr (x.copy_spec hq hbody).1)]
    exact relinked_links_copy x hq hbody
  have hrest (b : Nat) (hb : ∀ o a, x.replication.Valid o a → b ≠ x.replication.place o a) :
      (wf.tasks b).links = ([], []) := by
    have hge : x.oldTasksNum ≤ b := by
      by_contra hlt
      exact hb none b ⟨Nat.not_le.mp hlt, fun q hq => by cases hq⟩ rfl
    have hlast : x.tasksNum ≤ b := by
      by_contra hlt
      obtain ⟨hq, ho, he⟩ := x.exists_copy hge (Nat.not_le.mp hlt)
      obtain ⟨ha, hm⟩ := x.mem_body.mp ho
      refine hb (some (x.branch b)) (x.origin b) ⟨ha, fun q hq' => ?_⟩ he
      cases hq'
      exact ⟨List.mem_range.mpr hq, hm⟩
    rw [h.rest b fun hlt => absurd hlt (Nat.not_lt.mpr hge)]
    exact relinked_links_rest x hx hlast
  constructor
  · exact ⟨fun a ha hm => congrArg Prod.fst (hinside a ha hm), fun a ha hm => congrArg Prod.fst (houtside a ha hm),
      fun q hq a ha hm => congrArg Prod.fst (hcopied q hq a ha hm), fun b hb => congrArg Prod.fst (hrest b hb)⟩
  · exact ⟨fun a ha hm => congrArg Prod.snd (hinside a ha hm), fun a ha hm => congrArg Prod.snd (houtside a ha hm),
      fun q hq a ha hm => congrArg Prod.snd (hcopied q hq a ha hm), fun b hb => congrArg Prod.snd (hrest b hb)⟩

theorem Explosion.place_lt {o : Option Nat} {a : Nat} (h : x.replication.Valid o a) :
    x.replication.place o a < x.tasksNum := by
  have hold : x.oldTasksNum ≤ x.tasksNum := Nat.le_add_right _ _
  cases o with
  | none => exact Nat.lt_of_lt_of_le h.node hold
  | some q =>
    obtain ⟨hq, hm⟩ := h.copied q rfl
    exact (x.copy_spec (List.mem_range.mp hq) (x.mem_body.mpr ⟨h.node, hm⟩)).2.1

theorem Explosion.Relinking.meshed {wf : Workflow} (hx : Meshed x.wf) (h : x.Relinking x.oldTasksNum wf) :
    Meshed wf := by
  obtain ⟨hout, hinn⟩ := h.replicates hx
  refine ⟨hout.mirrored hinn hx.dependents_lt hx.targets_lt hx.mirrored, fun b a ha => ?_, fun b hb => ?_⟩
  · obtain ⟨-, o, a₀, hv, rfl⟩ := hinn.exists_place hx.targets_lt ha
    rw [h.tasksNum]
    exact x.place_lt hv
  · refine hinn.rest b fun o a hv he => ?_
    have hlt := x.place_lt hv
    rw [← he, ← h.tasksNum] at hlt
    exact Nat.not_lt.mpr hb hlt

end Links

theorem SameLinkage.meshed {wf wf' : Workflow} (h : SameLinkage wf wf') (hm : Meshed wf) : Meshed wf' := by
  have hout (k : Nat) :
      (wf'.tasks k).dependentsIndexes = (wf.tasks k).dependentsIndexes := congrArg Prod.fst (h.links k)
  have hinn (k : Nat) : (wf'.tasks k).targets = (wf.tasks k).targets := congrArg Prod.snd (h.links k)
  refine ⟨fun a b => ?_, fun b => ?_, fun b => ?_⟩
  · show (wf'.tasks a).dependentsIndexes.count b = (wf'.tasks b).targets.count a
    rw [hout, hinn]
    exact hm.mirrored a b
  · rw [hinn, h.tasksNum]
    exact hm.targets_lt b
  · rw [hinn, h.tasksNum]
    exact hm.final b

/-! ## The loops that are come to -/

section Scan

theorem markChildrenOf_linkage (wf : Workflow) (p : Nat) : SameLinkage wf (markChildrenOf wf p) := by
  refine Lib.traverse_induct (SameLinkage wf) (fun u j v hu hv => ?_) _ _ (.refl wf)
  unfold markVisit at hv
  split_ifs at hv
  cases hv
  exact hu.trans (.modify rfl)

theorem clearMarks_linkage (wf : Workflow) : SameLinkage wf (clearMarks wf) := by
  refine ⟨rfl, fun k => ?_⟩
  unfold clearMarks
  dsimp only
  split <;> rfl

theorem addBranchesNum_linkage (wf : Workflow) (name : String) (n : Nat) :
    SameLinkage wf (addBranchesNum wf name n) := by
  unfold addBranchesNum
  dsimp only
  split
  · exact .refl wf
  · exact ⟨rfl, fun _ => rfl⟩

/-- The links at the end of a part of the loop over the tasks; a loop that is replicated has new branches. -/
def LinkageKept {α : Type} (wf : Workflow) (view : α → Workflow) (r : Except ScanExit α) : Prop :=
  match r with
  | .ok s => SameLinkage wf (view s)
  | .error (.explode x) => SameLinkage wf x.wf ∧ 0 < x.newBranchNum
  | .error .invalid => True

variable {wf : Workflow}

theorem scanParallel_kept (args : Option ForArgs) (i : Nat) : LinkageKept wf id (scanParallel args wf i) := by
  have hmarked : SameLinkage wf (markChildrenOf (clearMarks wf) i) :=
    (clearMarks_linkage wf).trans (markChildrenOf_linkage _ i)
  unfold scanParallel
  split
  · trivial
  case h_2 a =>
    split
    · trivial
    case h_2 name _ =>
      dsimp only
      split_ifs
      · trivial
      · exact hmarked
      · exact (hmarked.trans (addBranchesNum_linkage _ _ _)).trans (addTaskVars_linkage _ _ _ _ _)
      case neg hvalues => exact ⟨hmarked.trans (addBranchesNum_linkage _ _ _), Nat.pos_of_ne_zero hvalues⟩

theorem LinkageKept.trans {α : Type} {u : Workflow} {view : α → Workflow} {r : Except ScanExit α} (h : SameLinkage wf u)
    (hr : LinkageKept u view r) : LinkageKept wf view r := by
  match r with
  | .ok s => exact SameLinkage.trans h hr
  | .error (.explode x) => exact ⟨SameLinkage.trans h hr.1, hr.2⟩
  | .error .invalid => trivial

theorem scanTask_kept (read : Task → ForReading) (nestingLevel : Int) (s : Workflow × Bool) (i : Nat) :
    LinkageKept s.1 Prod.fst (scanTask read nestingLevel s i) := by
  unfold scanTask
  dsimp only
  split
  · exact .refl s.1
  · split
    · trivial
    · exact .refl s.1
    · split
      · exact .refl s.1
      · have hkept :
            LinkageKept s.1 id (scanParallel (read (s.1.tasks i)).args (s.1.modify i (Task.setParallelMode true)) i) :=
          .trans (.modify rfl) (scanParallel_kept _ i)
        revert hkept
        generalize scanParallel _ _ i = r
        intro hkept
        match r with
        | .ok u => exact hkept
        | .error (.explode x) => exact hkept
        | .error .invalid => trivial

theorem scan_kept (read : Task → ForReading) (nestingLevel : Int) (wf : Workflow) :
    LinkageKept wf Prod.fst (scan read nestingLevel wf) := by
  have hfold (l : List Nat) (s : Workflow × Bool) :
      LinkageKept s.1 Prod.fst (l.foldlM (scanTask read nestingLevel) s) := by
    induction l generalizing s with
    | nil => exact SameLinkage.refl s.1
    | cons i l ih =>
      rw [List.foldlM_cons]
      have hstep := scanTask_kept read nestingLevel s i
      revert hstep
      generalize scanTask read nestingLevel s i = r
      intro hstep
      match r with
      | .ok t => exact .trans hstep (ih t)
      | .error (.explode x) => exact hstep
      | .error .invalid => trivial
  exact hfold _ _

end Scan

/-- Loops that `oph_workflow_parallel_fco` comes to, as it finds them. -/
inductive Explodes (read : Task → ForReading) : Int → Workflow → Explosion → Prop
  | here {level : Int} {wf : Workflow} {x : Explosion} :
      scan read level wf = .error (.explode x) → Explodes read level wf x
  | next {level : Int} {wf wf' : Workflow} {x y : Explosion} :
      scan read level wf = .error (.explode x) → x.run = some wf' → Explodes read level wf' y → Explodes read level wf y
  | deeper {level : Int} {wf wf' : Workflow} {y : Explosion} :
      scan read level wf = .ok (wf', true) → Explodes read (level + 1) wf' y → Explodes read level wf y

section Runs

variable {read : Task → ForReading} {level : Int} {wf : Workflow} {x : Explosion}

theorem exploded (hs : scan read level wf = .error (.explode x)) : SameLinkage wf x.wf ∧ 0 < x.newBranchNum := by
  have hkept := scan_kept read level wf
  rwa [hs] at hkept

theorem scanned {wf' : Workflow} {found : Bool} (hs : scan read level wf = .ok (wf', found)) : SameLinkage wf wf' := by
  have hkept := scan_kept read level wf
  rwa [hs] at hkept

theorem Explosion.meshed_of_run {wf' : Workflow} (hx : Meshed x.wf) (hr : x.run = some wf') : Meshed wf' := by
  by_cases hfits : ∀ j < x.oldTasksNum, x.FitsTask j
  · obtain ⟨u, hu, hrel⟩ := x.run_cases.1 hfits
    cases hr.symm.trans hu
    exact hrel.meshed hx
  · rw [x.run_cases.2 hfits] at hr
    cases hr

/-! ## Room for the new entries -/

/-- The number of dependences of task `b` on task `a`. -/
def Workflow.edges (wf : Workflow) (a b : Nat) : Nat := (wf.tasks b).targets.count a

/-- No task outside the body has more dependences on the tasks of the body, or the other way round, than these are. -/
def Explosion.Roomy (x : Explosion) : Prop :=
  ∀ j < x.oldTasksNum, x.marked j = false →
    (x.body.map fun a => x.wf.edges j a).sum ≤ x.repliedNum ∧ (x.body.map fun a => x.wf.edges a j).sum ≤ x.repliedNum

theorem Explosion.length_copies_le_iff (hb : 0 < x.newBranchNum) {l : List Nat} (hl : ∀ a ∈ l, a < x.oldTasksNum) :
    (x.replication.copies l).length ≤ x.newBranchNum * x.repliedNum ↔
      (x.body.map fun a => l.count a).sum ≤ x.repliedNum := by
  have hpart : ∀ a ∈ l, x.replication.part a = true ↔ a ∈ x.body := by
    intro a ha
    rw [x.mem_body]
    exact (and_iff_right (hl a ha)).symm
  rw [Lib.Replication.length_copies, ← Lib.Replication.countP_eq_sum_count x.body_nodup hpart]
  have hlen : x.replication.branches.length = x.newBranchNum := List.length_range
  rw [hlen]
  exact Nat.mul_le_mul_left_iff hb

/-- The arrays have room for what a task writes exactly if it has no more edges than the body has tasks. -/
theorem Explosion.fits_iff (hx : Meshed x.wf) (hb : 0 < x.newBranchNum) :
    (∀ j < x.oldTasksNum, x.FitsTask j) ↔ x.Roomy := by
  refine forall₂_congr fun j _ => imp_congr_right fun _ => and_congr ?_ ?_
  · rw [newDependents_eq, length_copies_le_iff hb (hx.dependents_lt j)]
    have hedges : (fun a => (x.wf.tasks j).dependentsIndexes.count a) = fun a => x.wf.edges j a := by
      funext a
      exact hx.mirrored j a
    rw [hedges]
  · rw [length_newDeps]
    exact length_copies_le_iff hb (hx.targets_lt j)

theorem Explosion.run_isSome_iff (hx : Meshed x.wf) (hb : 0 < x.newBranchNum) :
    (∃ wf', x.run = some wf') ↔ x.Roomy := by
  rw [← fits_iff hx hb]
  constructor
  · rintro ⟨wf', hr⟩
    by_contra hfits
    rw [x.run_cases.2 hfits] at hr
    cases hr
  · intro hfits
    obtain ⟨wf', hr, -⟩ := x.run_cases.1 hfits
    exact ⟨wf', hr⟩

theorem roomy_of_inBounds {y : Explosion} (h : Explodes read level wf y) (hm : Meshed wf)
    (hin : ∀ fuel, parallelFco read fuel level wf ≠ .outOfBounds) : y.Roomy := by
  induction h with
  | @here level wf x hs =>
    obtain ⟨hlinks, hb⟩ := exploded hs
    rw [← Explosion.run_isSome_iff (hlinks.meshed hm) hb, ← Option.isSome_iff_exists, Option.isSome_iff_ne_none]
    intro hr
    refine hin 1 ?_
    simp only [parallelFco, hs, hr]
  | @next level wf wf' x y hs hr _ ih =>
    obtain ⟨hlinks, -⟩ := exploded hs
    refine ih (Explosion.meshed_of_run (hlinks.meshed hm) hr) fun fuel hout => hin (fuel + 1) ?_
    simp only [parallelFco, hs, hr, hout]
  | @deeper level wf wf' y hs _ ih =>
    refine ih ((scanned hs).meshed hm) fun fuel hout => hin (fuel + 1) ?_
    simp only [parallelFco, hs, hout]

theorem inBounds_of_roomy (hm : Meshed wf) (hroomy : ∀ y, Explodes read level wf y → y.Roomy) (fuel : Nat) :
    parallelFco read fuel level wf ≠ .outOfBounds := by
  induction fuel generalizing level wf with
  | zero =>
    intro h
    cases h
  | succ fuel ih =>
    rw [parallelFco]
    split
    · intro h
      cases h
    case h_2 x hs =>
      obtain ⟨hlinks, hb⟩ := exploded hs
      obtain ⟨wf', hr⟩ := (Explosion.run_isSome_iff (hlinks.meshed hm) hb).mpr (hroomy x (.here hs))
      simp only [hr]
      exact ih (Explosion.meshed_of_run (hlinks.meshed hm) hr) fun y hy => hroomy y (.next hs hr hy)
    case h_3 wf' hs => exact ih ((scanned hs).meshed hm) fun y hy => hroomy y (.deeper hs hy)
    · intro h
      cases h

/-- What the loop over the tasks and the copies keep holds of all the loops that are come to. -/
theorem Explodes.of_invariant (I : Workflow → Prop) (hlinks : ∀ wf wf', SameLinkage wf wf' → I wf → I wf')
    (hrun : ∀ x wf', I x.wf → Explosion.run x = some wf' → I wf') (h : Explodes read level wf x) (h0 : I wf) : I x.wf := by
  induction h with
  | here hs => exact hlinks _ _ (exploded hs).1 h0
  | next hs hr _ ih => exact ih (hrun _ _ (hlinks _ _ (exploded hs).1 h0) hr)
  | deeper hs _ ih => exact ih (hlinks _ _ (scanned hs) h0)

/-- No task has two dependences on the same task. -/
def Workflow.Simple (wf : Workflow) : Prop := ∀ a b, wf.edges a b ≤ 1

theorem Explosion.simple_of_run {wf' : Workflow} (hx : Meshed x.wf) (hs : x.wf.Simple) (hr : x.run = some wf') :
    wf'.Simple := by
  by_cases hfits : ∀ j < x.oldTasksNum, x.FitsTask j
  · obtain ⟨u, hu, hrel⟩ := x.run_cases.1 hfits
    cases hr.symm.trans hu
    obtain ⟨-, hinn⟩ := hrel.replicates hx
    exact fun a b => hinn.count_le hx.targets_lt (fun b a => hs a b) b a
  · rw [x.run_cases.2 hfits] at hr
    cases hr

theorem Explosion.roomy_of_simple (hs : x.wf.Simple) : x.Roomy := by
  have hsum (f : Nat → Nat) (hf : ∀ a, f a ≤ 1) : (x.body.map f).sum ≤ x.repliedNum := by
    unfold Explosion.repliedNum
    induction x.body with
    | nil => exact Nat.le_refl 0
    | cons a l ih =>
      rw [List.map_cons, List.sum_cons, List.length_cons]
      have := hf a
      omega
  exact fun j _ _ => ⟨hsum _ fun a => hs j a, hsum _ fun a => hs a j⟩

/-- Without double dependences there is always room. -/
theorem roomy_of_simple {y : Explosion} (hm : Meshed wf) (hs : wf.Simple) (h : Explodes read level wf y) : y.Roomy := by
  refine Explosion.roomy_of_simple (h.of_invariant (fun u => Meshed u ∧ u.Simple) ?_ ?_ ⟨hm, hs⟩).2
  · rintro u u' hl ⟨hmu, hsu⟩
    refine ⟨hl.meshed hmu, fun a b => ?_⟩
    have hinn : (u'.tasks b).targets = (u.tasks b).targets := congrArg Prod.snd (hl.links b)
    rw [Workflow.edges, hinn]
    exact hsu a b
  · rintro z u' ⟨hmz, hsz⟩ hr
    exact ⟨Explosion.meshed_of_run hmz hr, Explosion.simple_of_run hmz hsz hr⟩

/--
While the parallel loops of an accepted workflow are replicated, no entry is written past the end of an array exactly
if, for each loop that is come to, no task outside its body has more dependences to or from the tasks of the body than
there are tasks in the body.
-/
theorem inBounds_iff {loaded : LoadedWorkflow} {tasks : Nat → Task} {child : Int} {wf : Workflow}
    (h : indexing loaded.tasks loaded.tasksNum = .ok tasks)
    (hf : validateFco child { loaded.toWorkflow with tasks := tasks } = .ok wf) (read : Task → ForReading) :
    (∀ fuel, parallelFco read fuel 0 wf ≠ .outOfBounds) ↔ ∀ x, Explodes read 0 wf x → x.Roomy := by
  have hm := meshed_of_validateFco h hf
  exact ⟨fun hin x hx => roomy_of_inBounds hx hm hin, inBounds_of_roomy hm⟩

/-- All the loops are parallel and have two values. -/
def twoBranches (_ : Task) : ForReading := { parallel := some true, args := some { twoValues with parallel := true } }

/-- The loop around one task. -/
theorem inBounds_iff_loop :
    ∃ tasks wf, indexing loopRequest.tasks loopRequest.tasksNum = .ok tasks ∧
      validateFco 0 { loopRequest.toWorkflow with tasks := tasks } = .ok wf ∧
      ∀ fuel, parallelFco twoBranches fuel 0 wf ≠ .outOfBounds := by
  obtain ⟨tasks, wf, h, -, hf, hp⟩ := @accepted_of_checkAccepted loopRequest
    (fun wf => ∀ b ∈ List.range 3, (wf.tasks b).targets.length ≤ 1) (by decide)
  have hsimple : wf.Simple := by
    have hm := meshed_of_validateFco h hf
    have htasks : wf.tasksNum = 3 := (validateFco_ok hf).1.linking.graph.tasksNum
    intro a b
    by_cases hb : b < 3
    · exact List.count_le_length.trans (of_decide_eq_true hp b (List.mem_range.mpr hb))
    · rw [Workflow.edges, hm.final b (by omega)]
      exact Nat.zero_le 1
  exact ⟨tasks, wf, h, hf, (inBounds_iff h hf twoBranches).mpr fun x hx =>
    roomy_of_simple (meshed_of_validateFco h hf) hsimple hx⟩

/-- The task of the loop depends twice on the head of the loop. -/
def doubleEdgeLoop : LoadedWorkflow :=
  loadRequest [requestTask "F" .for [] 1, requestTask "A" (.other "oph_a") ["F", "F"] 1,
      requestTask "D" .endfor ["A"] 1] (by
    simp only [List.forall_mem_cons, List.not_mem_nil, false_implies, implies_true, and_true]
    exact ⟨requestTask_fresh .., requestTask_fresh .., requestTask_fresh ..⟩)

/-- The head of the loop has two dependents to be added, and there is room for one. -/
theorem not_inBounds_doubleEdge :
    ∃ tasks wf, indexing doubleEdgeLoop.tasks doubleEdgeLoop.tasksNum = .ok tasks ∧
      validate doubleEdgeLoop.tasksNum { doubleEdgeLoop.toWorkflow with tasks := tasks } = some .success ∧
      validateFco 0 { doubleEdgeLoop.toWorkflow with tasks := tasks } = .ok wf ∧
      parallelFco twoBranches 1 0 wf = .outOfBounds := by
  obtain ⟨tasks, wf, h, hv, hf, hp⟩ := @accepted_of_checkAccepted doubleEdgeLoop
    (fun wf => match parallelFco twoBranches 1 0 wf with
      | .outOfBounds => true
      | _ => false) (by decide +kernel)
  refine ⟨tasks, wf, h, hv, hf, ?_⟩
  generalize parallelFco twoBranches 1 0 wf = r at hp
  match r with
  | .outOfBounds => rfl
  | .done _ => cases hp
  | .badParam => cases hp
  | .endless => cases hp

end Runs

end OphidiaWorkflow
