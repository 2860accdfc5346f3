import Mathlib.Logic.Relation
import OphidiaWorkflow.Request.Checkpoint

/-!
The task that restores the variables of the workflow when a checkpoint is resumed, and the tasks that wait for it.
-/
namespace OphidiaWorkflow.Request

open Json Lib

/-- The names in the dependencies of an entry. -/
def entryDeps (e : Json) : List (List Char) :=
  ((e.get? "dependencies").elim [] Json.items).filterMap fun d => d.getText? "task"

/-- Entry `a` depends on entry `b` of the request. -/
def DependsOn (es : List Json) (a b : Json) : Prop := b ∈ es ∧ ∃ n ∈ entryDeps a, b.getText? "name" = some n

/-- In a request with entries `g :: es`, all wait for `g`, and no dependency is left without its entry. -/
def WaitsFor (g : Json) (es : List Json) : Prop :=
  (∀ e ∈ es, Relation.TransGen (DependsOn (g :: es)) e g) ∧
    ∀ e ∈ g :: es, ∀ n ∈ entryDeps e, ∃ b ∈ g :: es, b.getText? "name" = some n

/-- Every task that is kept had dependencies, and those it still waits for lie on tasks that are kept. -/
def Anchored (w : Workflow) : Prop :=
  ∀ p, Pending w p → p.2.deps ≠ [] ∧
    ∀ d ∈ p.2.deps, 0 ≤ d.taskIndex → ∀ k, firstNamed w d.taskName = some k → k ≠ p.1 → w.isOver k = false →
      d.taskName = globalVars ∨ ∃ q, Pending w q ∧ q.2.name = d.taskName

section Restoring

variable {w : Workflow} {label : List Char} {p : Nat × Task} {e g r : Json} {d : Dep}

theorem getText?_task_of_storeDep (h : storeDep d = some e) : e.getText? "task" = some d.taskName := by
  obtain ⟨ms, hms, rfl⟩ := Option.map_eq_some_iff.mp h
  rw [getText?, get?_addAllToJson hms]
  rfl

theorem filterMap_task_of_forall₂ {ds : List Dep} {js : List Json}
    (h : List.Forall₂ (fun d j => storeDep d = some j) ds js) :
    js.filterMap (fun j => j.getText? "task") = ds.map Dep.taskName := by
  induction h with
  | nil => rfl
  | cons h _ ih => simp only [List.filterMap_cons, getText?_task_of_storeDep h, List.map_cons, ih]

/-- The dependencies written for a task; one without any does not get the one on the restoring task either. -/
theorem entryDeps_of_storeTask (hg : restoring w (some label) = some g)
    (h : storeTask w (some label) p.1 p.2 = some e) :
    entryDeps e = if p.2.deps = [] then []
      else globalVars :: (p.2.deps.filter (keepsDep w (some label) p.1)).map Dep.taskName := by
  obtain ⟨ms, hms, h⟩ := Option.bind_eq_some_iff.mp h
  obtain ⟨args, -, h⟩ := Option.bind_eq_some_iff.mp h
  obtain ⟨ms', hms', h⟩ := Option.bind_eq_some_iff.mp h
  obtain ⟨deps, hdeps, h⟩ := Option.bind_eq_some_iff.mp h
  obtain ⟨vars, -, h⟩ := Option.bind_eq_some_iff.mp h
  cases h
  have hnone : (object ms').get? "dependencies" = none := by
    rw [get?_addAllToJson hms', lastText_of_forall_ne _ _, get?_addAllToJson hms]
    · rfl
    · intro kv hkv
      rw [fst_of_mem_commandTexts hkv]
      decide
  rw [entryDeps, get?_setOptional, if_neg (by decide), get?_setOptional, if_pos rfl, get?_object_setMember,
    if_neg (by decide), hnone, Option.or_none]
  unfold storeDeps at hdeps
  split at hdeps
  · next hd =>
    cases hdeps
    rw [if_pos hd]
    rfl
  · next hd =>
    obtain ⟨ds, hds, hdeps⟩ := Option.bind_eq_some_iff.mp hdeps
    cases hdeps
    rw [if_neg hd, hg]
    show (globalDep :: ds).filterMap (fun j => j.getText? "task") = _
    rw [← filterMap_task_of_forall₂ (mapM_eq_some_iff.mp hds)]
    rfl

theorem keepsDep_eq_true_iff :
    keepsDep w (some label) p.1 d = true ↔
      0 ≤ d.taskIndex ∧ ∃ k, firstNamed w d.taskName = some k ∧ k ≠ p.1 ∧ w.isOver k = false := by
  unfold keepsDep
  simp only [Option.isNone_some, Bool.false_or, Bool.and_eq_true, decide_eq_true_iff, Option.any_eq_true,
    Option.isSome_some, Bool.true_and, Bool.not_eq_true']

/-- The restoring task bears its name and waits for nothing. -/
theorem restoring_spec {label : Option (List Char)} (h : restoring w label = some g) :
    g.getText? "name" = some globalVars ∧ entryDeps g = [] := by
  obtain ⟨vars, -, h⟩ := Option.bind_eq_some_iff.mp h
  unfold restoringTask at h
  obtain ⟨-, -, h⟩ := Option.bind_eq_some_iff.mp h
  obtain ⟨keys, -, h⟩ := Option.bind_eq_some_iff.mp h
  obtain ⟨values, -, h⟩ := Option.bind_eq_some_iff.mp h
  obtain ⟨ms, hms, h⟩ := Option.bind_eq_some_iff.mp h
  cases h
  constructor
  · rw [getText?, get?_object_setMember, if_neg (by decide), get?_addAllToJson hms]
    rfl
  · rw [entryDeps, get?_object_setMember, if_neg (by decide), get?_addAllToJson hms]
    rfl

end Restoring

/-- The first of two tasks is over, the other one depends on it. -/
def secondTask : Workflow where
  name := "w".toList
  tasks := [{ name := "S".toList, operator := "oph_set".toList, checkpoint := some "1".toList, status := .completed },
    { name := "A".toList, operator := "oph_list".toList, deps := [{ taskName := "S".toList, taskIndex := -1 }] }]

/-- Its variables: the request gives `i` to the second task, the server stores the basic ones, and `oph_set` sets `x`. -/
def variablesSet : List Writer :=
  [.load 0 [], .load 1 [{ key := "i".toList, caller := 1, svalue := "1".toList }],
    .setBasicVar (commonKeys.map fun k => { key := k, svalue := [] }),
    .setImpl [{ key := "x".toList, caller := 0, svalue := "1".toList }]]

/-- A task without dependencies does not wait for the restoring task. -/
theorem not_waitsFor_of_deps_eq_nil (w : Workflow) (label : List Char) {p : Nat × Task} (hp : Pending w p)
    (hdeps : p.2.deps = []) {r g : Json} {es : List Json} (h : store w (some label) = .ok r)
    (hg : restoring w (some label) = some g) (hes : (r.get? "tasks").map Json.items = some (g :: es)) :
    ¬ WaitsFor g es := by
  obtain ⟨ms, es', -, hentries, -, rfl⟩ := store_eq_ok_iff.mp h
  rw [get?_object_setMember, if_pos rfl, hg] at hes
  cases hes
  rintro ⟨hwait, -⟩
  obtain ⟨e, he, hpe⟩ := exists_of_forall₂_of_mem hentries (mem_emittedTasks_iff.mpr hp)
  obtain ⟨b, ⟨-, n, hn, -⟩, -⟩ := Relation.TransGen.head'_iff.mp (hwait e he)
  rw [entryDeps_of_storeTask hg hpe, if_pos hdeps] at hn
  cases hn

/-- `oph_set` with a checkpoint, which is over, and a task that depends on nothing and is running. -/
def independentTasks : Workflow where
  name := "w".toList
  tasks := [{ name := "S".toList, operator := "oph_set".toList, checkpoint := some "1".toList, status := .completed },
    { name := "A".toList, operator := "oph_list".toList, status := .running }]

end OphidiaWorkflow.Request
