import OphidiaWorkflow.Lib.Loops
import OphidiaWorkflow.Lib.Digraph
import OphidiaWorkflow.Model.Structs

/-!
`oph_workflow_indexing`: names of dependencies become indexes, and each dependency is recorded a second time in the
`dependents_indexes` of the task it points to.
-/
namespace OphidiaWorkflow

/-- A task as `oph_workflow_load` leaves it. -/
structure Task.Fresh (t : Task) : Prop where
  status : t.status = .unknown
  idjob : t.idjob = 0
  dependentsIndexes : t.dependentsIndexes = []
  taskIndex : ∀ d ∈ t.deps, d.taskIndex = -1
  residualDepsNum : t.residualDepsNum = t.deps.length
  outputs : t.outputs = []
  response : t.response = none
  lightTasks : t.lightTasks = none
  lightTasksNum : t.lightTasksNum = 0
  residualLightTasksNum : t.residualLightTasksNum = 0
  residualRetryNum : t.residualRetryNum = t.retryNum
  residualAutoRetryNum : t.residualAutoRetryNum = 0
  isMarkedForAutoRetry : t.isMarkedForAutoRetry = false
  parent : t.parent = -1
  child : t.child = -1
  isSkipped : t.isSkipped = false

/-- A workflow as `oph_workflow_load` leaves it: past the tasks there is room for the final one. -/
structure LoadedWorkflow extends Workflow where
  fresh : ∀ i, (tasks i).Fresh
  arguments_ne_nil : ∀ i < tasksNum, (tasks i).arguments ≠ []
  deps_final : ∀ i, tasksNum ≤ i → (tasks i).deps = []
  operator_final : ∀ i, tasksNum ≤ i → (tasks i).operator.isFlowControl = false
  residualTasksNum_eq : residualTasksNum = tasksNum
  status_eq : status = .unknown
  isClosed_eq : isClosed = false
  stack_eq : stack = []
  finalTask_eq : finalTask = false
  exitObjects_eq : exitObjects = false
  dropped_eq : dropped = false
  trace_eq : trace = []

/-- A task of a request that depends on the tasks called `on`, with the settings of its `on_error` option. -/
def requestTask (name : String) (operator : Operator) (on : List String) (retryNum : Int) : Task where
  name := name
  operator := operator
  deps := on.map fun n => { taskName := n }
  residualDepsNum := (on.map fun n => ({ taskName := n } : Dep)).length
  retryNum := retryNum
  residualRetryNum := retryNum

theorem requestTask_fresh (name : String) (operator : Operator) (on : List String) (retryNum : Int) :
    (requestTask name operator on retryNum).Fresh := by
  refine ⟨rfl, rfl, rfl, fun d hd => ?_, rfl, rfl, rfl, rfl, rfl, rfl, rfl, rfl, rfl, rfl, rfl, rfl⟩
  obtain ⟨n, -, rfl⟩ := List.mem_map.mp hd
  rfl

theorem taskArray_fresh {ts : List Task} (h : ∀ t ∈ ts, t.Fresh) (i : Nat) : (taskArray ts i).Fresh := by
  by_cases hi : i < ts.length
  · simpa [taskArray, hi] using h _ (List.getElem_mem hi)
  · have hd : taskArray ts i = {} := by simp [taskArray, hi]
    rw [hd]
    exact ⟨rfl, rfl, rfl, fun d hd => absurd hd List.not_mem_nil, rfl, rfl, rfl, rfl, rfl, rfl, rfl, rfl, rfl, rfl, rfl,
      rfl⟩

/-- The folders of the workflow are added to the arguments of a task. -/
def Task.inFolders (t : Task) : Task :=
  { t with arguments := t.arguments ++ [{ key := "cwd", value := some "/" }, { key := "cdd", value := some "/" }] }

theorem Task.Fresh.inFolders {t : Task} (h : t.Fresh) : t.inFolders.Fresh := by
  obtain ⟨h₁, h₂, h₃, h₄, h₅, h₆, h₇, h₈, h₉, h₁₀, h₁₁, h₁₂, h₁₃, h₁₄, h₁₅, h₁₆⟩ := h
  exact ⟨h₁, h₂, h₃, h₄, h₅, h₆, h₇, h₈, h₉, h₁₀, h₁₁, h₁₂, h₁₃, h₁₄, h₁₅, h₁₆⟩

/-- The workflow loaded from a request. -/
def loadRequest (ts : List Task) (h : ∀ t ∈ ts, t.Fresh) : LoadedWorkflow where
  tasks := taskArray (ts.map Task.inFolders)
  tasksNum := ts.length
  residualTasksNum := ts.length
  fresh := taskArray_fresh (List.forall_mem_map.mpr fun t ht => (h t ht).inFolders)
  arguments_ne_nil := fun i hi => by simp [taskArray, hi, Task.inFolders]
  deps_final := fun i hi => by simp [taskArray, Nat.not_lt.mpr hi]
  operator_final := fun i hi => by simp [taskArray, Nat.not_lt.mpr hi, Operator.isFlowControl]
  residualTasksNum_eq := rfl
  status_eq := rfl
  isClosed_eq := rfl
  stack_eq := rfl
  finalTask_eq := rfl
  exitObjects_eq := rfl
  dropped_eq := rfl
  trace_eq := rfl

/-- The first task called `name`. -/
def findTask (tasks : Nat → Task) (tasksNum : Nat) (name : String) : Option Nat :=
  (List.range tasksNum).find? fun k => (tasks k).name == name

/-- `i` is appended to `dependents_indexes`. -/
def Task.addDependent (t : Task) (i : Nat) : Task :=
  { t with dependentsIndexes := t.dependentsIndexes ++ [i] }

/-- The body of the two loops of `oph_workflow_indexing`. -/
def indexDep (tasksNum i : Nat) (tasks : Nat → Task) (j : Nat) : Except ExitCode (Nat → Task) :=
  let dep := (tasks i).deps.getD j default
  if dep.taskName = (tasks i).name then .error .badParamError
  else
    match findTask tasks tasksNum dep.taskName with
    | none => .error .badParamError
    | some k =>
      let tasks := Function.update tasks i ((tasks i).setTaskIndex j k)
      .ok (Function.update tasks k ((tasks k).addDependent i))

def indexTask (tasksNum : Nat) (tasks : Nat → Task) (i : Nat) : Except ExitCode (Nat → Task) :=
  (List.range (tasks i).deps.length).foldlM (indexDep tasksNum i) tasks

/-- `oph_workflow_indexing` -/
def indexing (tasks : Nat → Task) (tasksNum : Nat) : Except ExitCode (Nat → Task) :=
  if tasksNum < 1 then .error .badParamError else (List.range tasksNum).foldlM (indexTask tasksNum) tasks

/-- Number of dependencies of a task that still point to task `a`. -/
def Task.depCount (t : Task) (a : Nat) : Nat := t.deps.countP fun d => d.taskIndex == (a : Int)

/-- `dependents_indexes` and `deps` describe the same multiset of edges. -/
def Mirror (tasks : Nat → Task) : Prop :=
  ∀ a b, (tasks a).dependentsIndexes.count b = (tasks b).depCount a

/-- Each dependency of task `i` is resolved: it points to another task, which has the name it asks for. -/
def Resolved (tasks : Nat → Task) (tasksNum i : Nat) : Prop :=
  ∀ d ∈ (tasks i).deps, ∃ k < tasksNum, d.taskIndex = (k : Int) ∧ (tasks k).name = d.taskName ∧ k ≠ i

/-- Everything indexing promises about the array of tasks. -/
structure Indexed (tasks : Nat → Task) (tasksNum : Nat) : Prop where
  mirror : Mirror tasks
  resolved : ∀ i < tasksNum, Resolved tasks tasksNum i
  unresolved : ∀ i, tasksNum ≤ i → ∀ d ∈ (tasks i).deps, d.taskIndex = -1

/-- A task without its edges, which indexing leaves alone. -/
def Task.skeleton (t : Task) : Task :=
  { t with deps := t.deps.map fun d => { d with taskIndex := -1 }, dependentsIndexes := [] }

namespace Task

variable (t : Task) (i j : Nat) (k : Int)

@[simp] theorem setTaskIndex_skeleton : (t.setTaskIndex j k).skeleton = t.skeleton := by
  simp only [skeleton, setTaskIndex]
  rw [Lib.map_modify_of_eq]
  exact fun _ => rfl

@[simp] theorem addDependent_skeleton : (t.addDependent i).skeleton = t.skeleton := rfl
@[simp] theorem addDependent_deps : (t.addDependent i).deps = t.deps := rfl
@[simp] theorem addDependent_name : (t.addDependent i).name = t.name := rfl
@[simp] theorem setTaskIndex_name : (t.setTaskIndex j k).name = t.name := rfl
@[simp] theorem setTaskIndex_dependentsIndexes :
    (t.setTaskIndex j k).dependentsIndexes = t.dependentsIndexes := rfl

theorem deps_length_of_skeleton {t t' : Task} (h : t'.skeleton = t.skeleton) : t'.deps.length = t.deps.length := by
  simpa only [skeleton, List.length_map] using congrArg (fun t => t.deps.length) h

theorem name_of_skeleton {t t' : Task} (h : t'.skeleton = t.skeleton) : t'.name = t.name :=
  congrArg (fun t => t.name) h

/-- A dependency that pointed nowhere is counted once more at its new target. -/
theorem depCount_setTaskIndex {t : Task} {j : Nat} (hj : j < t.deps.length) (hd : t.deps[j].taskIndex = -1)
    (k a : Nat) : (t.setTaskIndex j k).depCount a = t.depCount a + if k = a then 1 else 0 := by
  obtain ⟨l₁, d, l₂, hl, hlen, hm⟩ := List.exists_of_modify (fun d : Dep => { d with taskIndex := (k : Int) }) hj
  have hdj : d.taskIndex = -1 := by
    rw [← hd]
    congr 1
    simp only [hl]
    rw [List.getElem_append_right (by omega)]
    simp [hlen]
  have hneg : ¬ (-1 : Int) = a := by omega
  simp only [depCount, setTaskIndex, hm]
  rw [hl, List.countP_append, List.countP_append, List.countP_cons, List.countP_cons, hdj]
  simp only [beq_iff_eq, Int.natCast_inj, hneg, ↓reduceIte]
  omega

end Task

/-! ## One dependency -/

theorem findTask_some {tasks : Nat → Task} {n k : Nat} {name : String} (h : findTask tasks n name = some k) :
    k < n ∧ (tasks k).name = name := by
  have hk := List.find?_some h
  have hm := List.mem_of_find?_eq_some h
  exact ⟨List.mem_range.mp hm, by simpa using hk⟩

theorem indexDep_ok {n i j : Nat} {tasks tasks' : Nat → Task} (hj : j < (tasks i).deps.length)
    (h : indexDep n i tasks j = .ok tasks') :
    ∃ k < n, k ≠ i ∧ (tasks k).name = (tasks i).deps[j].taskName ∧
      tasks' = Function.update (Function.update tasks i ((tasks i).setTaskIndex j k)) k ((tasks k).addDependent i) := by
  have hget : (tasks i).deps.getD j default = (tasks i).deps[j] := by simp [hj]
  unfold indexDep at h
  rw [hget] at h
  simp only at h
  split_ifs at h with hself
  split at h
  · cases h
  case h_2 k hk =>
    cases h
    obtain ⟨hkn, hname⟩ := findTask_some hk
    have hki : k ≠ i := by
      rintro rfl
      exact hself hname.symm
    refine ⟨k, hkn, hki, hname, ?_⟩
    rw [Function.update_of_ne hki]

theorem mirror_update {tasks : Nat → Task} {i j k : Nat} (hm : Mirror tasks) (hj : j < (tasks i).deps.length)
    (hd : (tasks i).deps[j].taskIndex = -1) (hki : k ≠ i) :
    Mirror (Function.update (Function.update tasks i ((tasks i).setTaskIndex j k)) k ((tasks k).addDependent i)) := by
  intro a b
  have hab := hm a b
  have hdep : ∀ c, (Function.update (Function.update tasks i ((tasks i).setTaskIndex j k)) k
      ((tasks k).addDependent i) c).depCount a = (tasks c).depCount a + if c = i ∧ k = a then 1 else 0 := by
    intro c
    by_cases hck : c = k
    · subst hck
      simp [Task.depCount, hki]
    · rw [Function.update_of_ne hck]
      by_cases hci : c = i
      · subst hci
        simpa using Task.depCount_setTaskIndex hj hd k a
      · simp [hci]
  have hout : (Function.update (Function.update tasks i ((tasks i).setTaskIndex j k)) k
      ((tasks k).addDependent i) a).dependentsIndexes.count b =
      (tasks a).dependentsIndexes.count b + if b = i ∧ k = a then 1 else 0 := by
    by_cases hak : a = k
    · subst hak
      by_cases hbi : b = i
      · simp [Task.addDependent, hbi]
      · simp [Task.addDependent, hbi, Ne.symm hbi]
    · rw [Function.update_of_ne hak]
      have hka : k ≠ a := Ne.symm hak
      by_cases hai : a = i
      · subst hai
        simp [hka]
      · simp [hai, hka]
  rw [hout, hdep, hab]

/-! ## All dependencies of a task, all tasks -/

/-- The state of the array after `j` dependencies of task `i`. -/
structure IndexingTask (tasks₀ : Nat → Task) (n i j : Nat) (tasks : Nat → Task) : Prop where
  mirror : Mirror tasks
  skeleton : ∀ c, (tasks c).skeleton = (tasks₀ c).skeleton
  others : ∀ c ≠ i, (tasks c).deps = (tasks₀ c).deps
  done : ∀ m (hm : m < (tasks i).deps.length), m < j → ∃ k < n, (tasks i).deps[m].taskIndex = (k : Int) ∧
    (tasks₀ k).name = (tasks i).deps[m].taskName ∧ k ≠ i
  todo : ∀ m (hm : m < (tasks i).deps.length), j ≤ m → (tasks i).deps[m].taskIndex = -1

theorem IndexingTask.step {tasks₀ tasks tasks' : Nat → Task} {n i j : Nat} (hj : j < (tasks₀ i).deps.length)
    (hI : IndexingTask tasks₀ n i j tasks) (h : indexDep n i tasks j = .ok tasks') :
    IndexingTask tasks₀ n i (j + 1) tasks' := by
  have hlen : j < (tasks i).deps.length := by rwa [Task.deps_length_of_skeleton (hI.skeleton i)]
  obtain ⟨k, hk, hki, hname, rfl⟩ := indexDep_ok hlen h
  have hi : Function.update (Function.update tasks i ((tasks i).setTaskIndex j k)) k ((tasks k).addDependent i) i =
      (tasks i).setTaskIndex j k := by
    rw [Function.update_of_ne hki.symm, Function.update_self]
  refine ⟨mirror_update hI.mirror hlen (hI.todo j hlen le_rfl) hki, fun c => ?_, fun c hc => ?_, ?_, ?_⟩
  · rw [← hI.skeleton c]
    by_cases hck : c = k
    · subst hck
      simp
    · rw [Function.update_of_ne hck]
      by_cases hci : c = i
      · subst hci
        simp
      · rw [Function.update_of_ne hci]
  · rw [← hI.others c hc]
    by_cases hck : c = k
    · subst hck
      simp
    · rw [Function.update_of_ne hck, Function.update_of_ne hc]
  · rw [hi]
    intro m hm hmj
    simp only [Task.setTaskIndex, List.length_modify] at hm
    by_cases hmj' : m = j
    · subst hmj'
      refine ⟨k, hk, ?_, ?_, hki⟩
      · simp [Task.setTaskIndex]
      · rw [← Task.name_of_skeleton (hI.skeleton k), hname]
        simp [Task.setTaskIndex]
    · obtain ⟨k', hk', hidx, hn, hne⟩ := hI.done m hm (by omega)
      refine ⟨k', hk', ?_, ?_, hne⟩ <;>
        simpa [Task.setTaskIndex, List.getElem_modify, Ne.symm hmj'] using ‹_›
  · rw [hi]
    intro m hm hmj
    simp only [Task.setTaskIndex, List.length_modify] at hm
    have := hI.todo m hm (by omega)
    simpa [Task.setTaskIndex, List.getElem_modify, show j ≠ m by omega] using this

/-- The state of the array after the first `i` tasks. -/
structure IndexingAll (tasks₀ : Nat → Task) (n i : Nat) (tasks : Nat → Task) : Prop where
  mirror : Mirror tasks
  skeleton : ∀ c, (tasks c).skeleton = (tasks₀ c).skeleton
  done : ∀ c < i, Resolved tasks n c
  todo : ∀ c, i ≤ c → ∀ d ∈ (tasks c).deps, d.taskIndex = -1

theorem IndexingAll.step {tasks₀ tasks tasks' : Nat → Task} {n i : Nat} (hI : IndexingAll tasks₀ n i tasks)
    (h : indexTask n tasks i = .ok tasks') : IndexingAll tasks₀ n (i + 1) tasks' := by
  have h0 : IndexingTask tasks n i 0 tasks :=
    ⟨hI.mirror, fun _ => rfl, fun _ _ => rfl, fun _ _ hm => absurd hm (Nat.not_lt_zero _),
      fun m hm _ => hI.todo i le_rfl _ (List.getElem_mem hm)⟩
  have hT : IndexingTask tasks n i (tasks i).deps.length tasks' :=
    Lib.foldlM_range_induct (fun j => IndexingTask tasks n i j) h0 (fun j hj t t' ht => ht.step hj) h
  have hlen := Task.deps_length_of_skeleton (hT.skeleton i)
  have hname (c : Nat) : (tasks' c).name = (tasks c).name := Task.name_of_skeleton (hT.skeleton c)
  refine ⟨hT.mirror, fun c => (hT.skeleton c).trans (hI.skeleton c), fun c hc d hd => ?_, fun c hc d hd => ?_⟩
  · by_cases hci : c = i
    · subst hci
      obtain ⟨m, hm, rfl⟩ := List.getElem_of_mem hd
      simpa only [hname] using hT.done m hm (by omega)
    · rw [hT.others c hci] at hd
      simpa only [hname] using hI.done c (by omega) d hd
  · rw [hT.others c (by omega)] at hd
    exact hI.todo c (by omega) d hd

/-- Indexing a loaded workflow resolves every dependency and mirrors it, and changes nothing else. -/
theorem indexing_indexed {tasks tasks' : Nat → Task} {n : Nat} (hf : ∀ i, (tasks i).Fresh)
    (h : indexing tasks n = .ok tasks') : Indexed tasks' n ∧ ∀ c, (tasks' c).skeleton = (tasks c).skeleton := by
  unfold indexing at h
  split_ifs at h
  have h0 : IndexingAll tasks n 0 tasks := by
    refine ⟨fun a b => ?_, fun _ => rfl, fun _ hc => absurd hc (Nat.not_lt_zero _), fun c _ => (hf c).taskIndex⟩
    rw [(hf a).dependentsIndexes, List.count_nil, Task.depCount, eq_comm, List.countP_eq_zero]
    intro d hd
    rw [(hf b).taskIndex d hd]
    simp
  have hA := Lib.foldlM_range_induct (fun i => IndexingAll tasks n i) h0 (fun i _ t t' ht => ht.step) h
  exact ⟨⟨hA.mirror, hA.done, hA.todo⟩, hA.skeleton⟩

end OphidiaWorkflow
