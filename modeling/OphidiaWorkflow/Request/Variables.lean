import OphidiaWorkflow.Request.Checkpoint

/-!
The values of the variables, as the two functions that read them see them.

`oph_workflow_var_substitute` reads the bytes after the structure, `oph_workflow_store` follows the pointer.
-/
namespace OphidiaWorkflow.Request

open Lib

/-- The variable as `oph_workflow_store` reads it; `none` if the pointer leads to a freed block. -/
def Record.read (heap : Heap (List Char)) (r : Record) : Option Var :=
  (heap.load r.svalue).map fun s => { caller := r.caller, svalue := s, ivalue := r.ivalue }

/-- The variable as `oph_workflow_var_substitute` sees it. -/
def Record.seen (r : Record) : Var := { caller := r.caller, svalue := r.bytes, ivalue := r.ivalue }

def readTable (heap : Heap (List Char)) (t : RecordTable) : Option Table :=
  t.mapM fun kv => (kv.2.read heap).map fun v => (kv.1, v)

def seenTable (t : RecordTable) : Table := t.map fun kv => (kv.1, kv.2.seen)

namespace Environment

/-- The variables of the workflow but for the basic ones, whose values a checkpoint does not look at. -/
def restored (env : Environment) : RecordTable := env.vars.filter fun kv => kv.1 ∉ commonKeys

/-- The workflow as `oph_workflow_store` reads it for a checkpoint, if it reads no freed block. -/
def readWorkflow (env : Environment) (w : Workflow) (label : Option (List Char)) : Option Workflow := do
  let vars ← readTable env.heap env.restored
  let tasks ← w.tasks.zipIdx.mapM fun p =>
    if emitted w label p.2 then (readTable env.heap (env.taskVars p.2)).map fun vars => { p.1 with vars := some vars }
    else some p.1
  some { w with vars := some vars, tasks := tasks }

/-- The same workflow with the values that would be substituted. -/
def seenWorkflow (env : Environment) (w : Workflow) (label : Option (List Char)) : Workflow :=
  { w with vars := some (seenTable env.restored),
           tasks := w.tasks.zipIdx.map fun p =>
             if emitted w label p.2 then { p.1 with vars := some (seenTable (env.taskVars p.2)) } else p.1 }

/-- `oph_workflow_store` at a checkpoint; `none` if the call is undefined. -/
def storeAt (env : Environment) (w : Workflow) (label : List Char) : Option (Except ExitCode Json) :=
  (env.readWorkflow w (some label)).map fun w => store w (some label)

end Environment

/-- The variable in the scope of a substitution: its value are the bytes after the structure. -/
def Record.var (r : Record) : OphidiaWorkflow.Var :=
  { caller := r.caller, svalue := String.ofList r.seen.svalue, ivalue := r.ivalue }

/-- What `oph_workflow_var_substitute` looks up for task `i`. -/
def Environment.scope (env : Environment) (i : Nat) (isChildOf : Int → Bool) : Scope where
  taskVars k := ((env.taskVars i).lookup k.toList).map Record.var
  vars k := (env.vars.lookup k.toList).map Record.var
  isChildOf := isChildOf

/-- The checkpoint lists every variable once, with the value that would be substituted. -/
def StoresSeen (env : Environment) (w : Workflow) (label : List Char) : Prop :=
  (env.vars.map Prod.fst).Nodup ∧ (∀ i, ((env.taskVars i).map Prod.fst).Nodup) ∧
    env.readWorkflow w (some label) = some (env.seenWorkflow w (some label))

section Seen

variable {heap : Heap (List Char)} {t : RecordTable} {env : Environment} {w : Workflow} {label : List Char}
  {calls : List Writer}

theorem lookup_eq_some_of_mem {key : List Char} {r : Record} (hn : (t.map Prod.fst).Nodup) (h : (key, r) ∈ t) :
    t.lookup key = some r := by
  induction t with
  | nil => cases h
  | cons kv t ih =>
    rw [List.map_cons, List.nodup_cons] at hn
    rcases List.mem_cons.mp h with rfl | h
    · exact List.lookup_cons_self
    · have hne : key ≠ kv.1 := fun he => hn.1 (he ▸ List.mem_map_of_mem h)
      rw [List.lookup_cons, beq_false_of_ne hne]
      exact ih hn.2 h

/-- A reference to a variable of the workflow that the task sees denotes the bytes of its record. -/
theorem lookupName_scope (hs : env.Stale) {key : List Char} {r : Record} {i : Nat} {isChildOf : Int → Bool}
    (hkey : key ≠ []) (h : (key, r) ∈ env.vars) (htask : (env.taskVars i).lookup key = none)
    (hc : r.caller < 0 ∨ isChildOf r.caller = true) :
    lookupName (env.scope i isChildOf) none ⟨[], '@', false, key, []⟩ none = .ok (.var r.var, none) := by
  have hvars := lookup_eq_some_of_mem hs.nodup h
  have hseen : (decide (r.var.caller < 0) || isChildOf r.var.caller) = true := by
    rw [Bool.or_eq_true, decide_eq_true_iff]
    exact hc
  simp only [lookupName, Environment.scope, String.toList_ofList, htask, hvars, Option.map_none, Option.map_some,
    Bool.false_and, Bool.false_eq_true, if_false, if_neg hkey, Option.filter_some, hseen, if_true]

theorem readTable_eq_none (hd : ∀ kv ∈ t, heap.Dangling kv.2.svalue) (hne : t ≠ []) : readTable heap t = none := by
  cases t with
  | nil => exact absurd rfl hne
  | cons kv t =>
    rw [readTable, List.mapM_cons, Record.read, (hd kv List.mem_cons_self).2]
    rfl

theorem restored_eq_nil_iff : env.restored = [] ↔ ∀ kv ∈ env.vars, kv.1 ∈ commonKeys := by
  rw [Environment.restored, List.filter_eq_nil_iff]
  simp only [decide_eq_true_iff, not_not]

end Seen

/-- A task that depends on nothing. -/
def independentTask : Workflow where
  name := "w".toList
  vars := some [("x".toList, { svalue := "1".toList })]
  tasks := [{ name := "A".toList, operator := "oph_list".toList, vars := none }]

end OphidiaWorkflow.Request
