import OphidiaWorkflow.Lib.Heap
import OphidiaWorkflow.Request.Store

/-!
The variables of a workflow in memory, and the functions that store them.

A variable is stored as a copy of `oph_workflow_var`, whose field `svalue` is a pointer, followed by the bytes of the
value. All its writers free the block that the pointer leads to.
-/
namespace OphidiaWorkflow.Request

open Lib

/-- The data of a node of the hash table: `oph_workflow_var` and the bytes after it. -/
structure Record where
  caller : Int
  svalue : Nat
  ivalue : Int
  bytes : List Char
  deriving DecidableEq, Repr

abbrev RecordTable := List (List Char × Record)

/-- `hashtbl_insert_with_size`, which fails if the key is there. -/
def hashtblInsert (t : RecordTable) (key : List Char) (r : Record) : Option RecordTable :=
  if key ∈ t.map Prod.fst then none else some ((key, r) :: t)

/-- `hashtbl_remove` -/
def hashtblRemove (t : RecordTable) (key : List Char) : RecordTable := t.eraseP fun kv => kv.1 = key

/-- The heap, the table of the workflow and the tables of its tasks. -/
structure Environment where
  heap : Heap (List Char) := {}
  vars : RecordTable := []
  taskVars : Nat → RecordTable := fun _ => []

/-- A variable as its writers name it. -/
structure NewVar where
  key : List Char
  caller : Int := -1
  ivalue : Int := 1
  svalue : List Char
  deriving DecidableEq, Repr

/--
What all the writers do with a variable: `var.svalue` is allocated, the structure and the value are copied into the
table, and `var.svalue` is freed whether or not the insertion succeeds. The flag tells whether it does.
-/
def insertVar (heap : Heap (List Char)) (t : RecordTable) (v : NewVar) : Heap (List Char) × RecordTable × Bool :=
  let r : Record := { caller := v.caller, svalue := heap.next, ivalue := v.ivalue, bytes := v.svalue }
  match hashtblInsert t v.key r with
  | some t => ((heap.alloc v.svalue).free heap.next, t, true)
  | none => ((heap.alloc v.svalue).free heap.next, t, false)

namespace Environment

/-- A variable of the workflow. -/
def insert (env : Environment) (v : NewVar) : Environment :=
  { env with heap := (insertVar env.heap env.vars v).1, vars := (insertVar env.heap env.vars v).2.1 }

/-- A variable of task `i`. -/
def insertTask (env : Environment) (i : Nat) (v : NewVar) : Environment :=
  { env with heap := (insertVar env.heap (env.taskVars i) v).1,
             taskVars := Function.update env.taskVars i (insertVar env.heap (env.taskVars i) v).2.1 }

def remove (env : Environment) (key : List Char) : Environment := { env with vars := hashtblRemove env.vars key }

/-- `hashtbl_get` on the table of the workflow. -/
def defines (env : Environment) (key : List Char) : Bool := key ∈ env.vars.map Prod.fst

end Environment

/-- The calls that change the variables of a workflow, each with the values it has computed. -/
inductive Writer
  /-- The loop of `oph_workflow_load` over the variables of task `i`. -/
  | load (i : Nat) (vars : List NewVar)
  /-- `oph_workflow_set_basic_var` -/
  | setBasicVar (vars : List NewVar)
  /-- `oph_for_impl`: the size of the loop and its index. -/
  | forImpl (size index : NewVar)
  /-- `oph_endfor_impl`: the index is replaced, or removed after the last iteration. -/
  | endforImpl (name : List Char) (index : Option NewVar)
  /-- `oph_set_impl`: every variable is dropped before it is stored. -/
  | setImpl (vars : List NewVar)
  /-- `oph_workflow_parallel_fco`: the size of the loop, the tasks that are copied, and the index for the tasks
  marked. -/
  | parallelFco (size : NewVar) (copies : List (Nat × Nat)) (marked : List (Nat × NewVar))
  deriving DecidableEq, Repr

/-- The size of a loop is stored once. -/
def insertSize (env : Environment) (size : NewVar) : Environment :=
  if env.defines size.key then env else env.insert size

/-- `hashtbl_duplicate`, in `oph_workflow_copy_task`: the nodes are copied byte by byte. -/
def copyVars (env : Environment) (c : Nat × Nat) : Environment :=
  { env with taskVars := Function.update env.taskVars c.2 (env.taskVars c.1) }

/-- The variables of tasks are stored one by one; the first that is there already ends the loop. -/
def insertTasks : Environment → List (Nat × NewVar) → Environment
  | env, [] => env
  | env, (i, v) :: vars =>
    if v.key ∈ (env.taskVars i).map Prod.fst then env.insertTask i v else insertTasks (env.insertTask i v) vars

/-- The effect of a call on the variables. -/
def Writer.apply (env : Environment) : Writer → Environment
  | load i vars => insertTasks env (vars.map fun v => (i, v))
  | setBasicVar vars => vars.foldl Environment.insert env
  | forImpl size index => (insertSize env size).insert index
  | endforImpl name index => index.elim (env.remove name) (env.remove name).insert
  | setImpl vars => vars.foldl (fun env v => (env.remove v.key).insert v) env
  | parallelFco size copies marked => insertTasks (copies.foldl copyVars (insertSize env size)) marked

/-- The variables after a sequence of calls. -/
def environment (calls : List Writer) : Environment := calls.foldl Writer.apply {}

/-- What the heap and the tables leave open: what a block holds after it has been freed, and the order in which
`hashtbl_next` runs through a table. -/
structure Memory where
  contents : Nat → List Char
  order : RecordTable → RecordTable
  perm : ∀ t, (order t).Perm t

/-- The variable as `oph_workflow_store` reads it, through the pointer. -/
def Record.readIn (heap : Heap (List Char)) (mem : Memory) (r : Record) : Var :=
  { caller := r.caller, svalue := (heap.load r.svalue).getD (mem.contents r.svalue), ivalue := r.ivalue }

def readTableIn (heap : Heap (List Char)) (mem : Memory) (t : RecordTable) : Table :=
  (mem.order t).map fun kv => (kv.1, kv.2.readIn heap mem)

/-- The workflow as `oph_workflow_store` reads it. -/
def Environment.readIn (env : Environment) (mem : Memory) (w : Workflow) : Workflow :=
  { w with vars := some (readTableIn env.heap mem env.vars),
           tasks := w.tasks.mapIdx fun i t => { t with vars := some (readTableIn env.heap mem (env.taskVars i)) } }

/-- No value can be read through its pointer any more, and no table has a key twice. -/
structure Environment.Stale (env : Environment) : Prop where
  vars : ∀ kv ∈ env.vars, env.heap.Dangling kv.2.svalue
  taskVars : ∀ i, ∀ kv ∈ env.taskVars i, env.heap.Dangling kv.2.svalue
  nodup : (env.vars.map Prod.fst).Nodup
  taskNodup : ∀ i, ((env.taskVars i).map Prod.fst).Nodup

section Stale

variable {heap : Heap (List Char)} {t t' : RecordTable} {env : Environment} {v : NewVar} {w : Workflow}
  {label : List Char} {calls : List Writer}

theorem hashtblInsert_eq_some_iff {key : List Char} {r : Record} :
    hashtblInsert t key r = some t' ↔ key ∉ t.map Prod.fst ∧ t' = (key, r) :: t := by
  unfold hashtblInsert
  split
  · next h => exact iff_of_false (Option.some_ne_none _).symm fun hn => hn.1 h
  · next h => exact ⟨fun he => ⟨h, (Option.some.inj he).symm⟩, fun he => congrArg some he.2.symm⟩

/-- A writer leaves a table of pointers to freed blocks, the new one included. -/
theorem insertVar_spec (v : NewVar) (hd : ∀ kv ∈ t, heap.Dangling kv.2.svalue) (hn : (t.map Prod.fst).Nodup) :
    (∀ b, heap.Dangling b → (insertVar heap t v).1.Dangling b) ∧
      (∀ kv ∈ (insertVar heap t v).2.1, (insertVar heap t v).1.Dangling kv.2.svalue) ∧
      ((insertVar heap t v).2.1.map Prod.fst).Nodup := by
  have hkeep (b : Nat) (hb : heap.Dangling b) : ((heap.alloc v.svalue).free heap.next).Dangling b :=
    (hb.alloc v.svalue).free heap.next
  unfold insertVar
  simp only
  split
  · next t' ht =>
    obtain ⟨hkey, rfl⟩ := hashtblInsert_eq_some_iff.mp ht
    refine ⟨hkeep, List.forall_mem_cons.mpr ⟨heap.dangling_free_alloc v.svalue, fun kv hkv => hkeep _ (hd kv hkv)⟩, ?_⟩
    rw [List.map_cons]
    exact List.nodup_cons.mpr ⟨hkey, hn⟩
  · exact ⟨hkeep, fun kv hkv => hkeep _ (hd kv hkv), hn⟩

theorem forall_update_table {P : RecordTable → Prop} {f : Nat → RecordTable} {i : Nat} (ht : P t) (hf : ∀ k, P (f k))
    (k : Nat) : P (Function.update f i t k) := by
  by_cases hk : k = i
  · rw [hk, Function.update_self]
    exact ht
  · rw [Function.update_of_ne hk]
    exact hf k

theorem stale_empty : ({} : Environment).Stale where
  vars _ hkv := absurd hkv List.not_mem_nil
  taskVars _ _ hkv := absurd hkv List.not_mem_nil
  nodup := List.nodup_nil
  taskNodup _ := List.nodup_nil

theorem Environment.Stale.insert (h : env.Stale) (v : NewVar) : (env.insert v).Stale := by
  obtain ⟨hkeep, hd, hn⟩ := insertVar_spec v h.vars h.nodup
  exact ⟨hd, fun i kv hkv => hkeep _ (h.taskVars i kv hkv), hn, h.taskNodup⟩

theorem Environment.Stale.insertTask (h : env.Stale) (i : Nat) (v : NewVar) : (env.insertTask i v).Stale := by
  obtain ⟨hkeep, hd, hn⟩ := insertVar_spec v (h.taskVars i) (h.taskNodup i)
  refine ⟨fun kv hkv => hkeep _ (h.vars kv hkv), ?_, h.nodup, ?_⟩
  · exact forall_update_table (P := fun t => ∀ kv ∈ t, (insertVar env.heap (env.taskVars i) v).1.Dangling kv.2.svalue)
      hd fun k kv hkv => hkeep _ (h.taskVars k kv hkv)
  · exact forall_update_table (P := fun t => (t.map Prod.fst).Nodup) hn h.taskNodup

theorem Environment.Stale.remove (h : env.Stale) (key : List Char) : (env.remove key).Stale := by
  have hsub : (hashtblRemove env.vars key).Sublist env.vars := List.eraseP_sublist
  exact ⟨fun kv hkv => h.vars kv (hsub.subset hkv), h.taskVars, h.nodup.sublist (hsub.map Prod.fst), h.taskNodup⟩

theorem Environment.Stale.insertSize (h : env.Stale) (size : NewVar) : (insertSize env size).Stale := by
  unfold Request.insertSize
  split
  · exact h
  · exact h.insert size

theorem Environment.Stale.copyVars (h : env.Stale) (c : Nat × Nat) : (copyVars env c).Stale := by
  refine ⟨h.vars, ?_, h.nodup, ?_⟩
  · exact forall_update_table (P := fun t => ∀ kv ∈ t, env.heap.Dangling kv.2.svalue) (h.taskVars c.1) h.taskVars
  · exact forall_update_table (P := fun t => (t.map Prod.fst).Nodup) (h.taskNodup c.1) h.taskNodup

theorem Environment.Stale.insertTasks (h : env.Stale) (vars : List (Nat × NewVar)) : (insertTasks env vars).Stale := by
  induction vars generalizing env with
  | nil => exact h
  | cons p vars ih =>
    rw [Request.insertTasks]
    split
    · exact h.insertTask p.1 p.2
    · exact ih (h.insertTask p.1 p.2)

theorem Environment.Stale.foldl {α : Type*} {f : Environment → α → Environment}
    (hf : ∀ env a, env.Stale → (f env a).Stale) (h : env.Stale) (l : List α) : (l.foldl f env).Stale := by
  induction l generalizing env with
  | nil => exact h
  | cons a l ih => exact ih (hf env a h)

/-- No call leaves a value that can be read through its pointer. -/
theorem Environment.Stale.apply (h : env.Stale) (c : Writer) : (c.apply env).Stale := by
  cases c with
  | load i vars => exact h.insertTasks _
  | setBasicVar vars => exact h.foldl (fun env v henv => henv.insert v) vars
  | forImpl size index => exact (h.insertSize size).insert index
  | endforImpl name index =>
    cases index with
    | none => exact h.remove name
    | some index => exact (h.remove name).insert index
  | setImpl vars => exact h.foldl (fun env v henv => (henv.remove v.key).insert v) vars
  | parallelFco size copies marked =>
    exact ((h.insertSize size).foldl (fun env c henv => henv.copyVars c) copies).insertTasks marked

theorem stale_environment (calls : List Writer) : (environment calls).Stale :=
  stale_empty.foldl (fun _ c henv => henv.apply c) calls

theorem Record.readIn_of_dangling {r : Record} (h : heap.Dangling r.svalue) (mem : Memory) :
    r.readIn heap mem = { caller := r.caller, svalue := mem.contents r.svalue, ivalue := r.ivalue } := by
  rw [Record.readIn, h.2, Option.getD_none]

end Stale

end OphidiaWorkflow.Request