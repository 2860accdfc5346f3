import OphidiaWorkflow.Request.Checkpoint
import OphidiaWorkflow.Request.Stages
import OphidiaWorkflow.Text.Print

/-!
What the loader finds in a request that `oph_workflow_store` has written for a whole workflow.
-/
namespace OphidiaWorkflow.Request

open Json Lib

section Header

variable {w : Workflow} {r j : Json} {srv : Server} {k : String} {s : Option (List Char)}

theorem nonempty_nonempty (s : Option (List Char)) : nonempty (nonempty s) = nonempty s := by
  unfold nonempty
  rw [Option.filter_filter]
  simp only [Bool.and_self]

theorem nonempty_eq_some_iff {c : List Char} : nonempty s = some c ↔ s = some c ∧ c ≠ [] := by
  unfold nonempty
  rw [Option.filter_eq_some_iff]
  cases c <;> simp

/-- What `readHeader` makes sure of. -/
structure Normal (w : Workflow) : Prop where
  amounts : ∀ r : Resource, toInt32 (r.amount w) = r.amount w
  project : nonempty w.project = w.project
  cwd : ∃ c, c ≠ [] ∧ w.cwd = some c
  cdd : ∃ c, c ≠ [] ∧ w.cdd = some c
  cube : nonempty w.cube = w.cube
  onError : nonempty w.onError = w.onError
  onExit : nonempty w.onExit = w.onExit
  checkpoint : readCheckpoint w.checkpoint = .ok w.checkpoint

theorem readCheckpoint_eq_ok_iff {c : Option (List Char)} :
    readCheckpoint s = .ok c ↔ nonempty s = c ∧ ∀ a ∈ c, a ∉ resumeParameters := by
  unfold readCheckpoint
  split
  · next h =>
    obtain ⟨a, ha, hr⟩ := h
    refine iff_of_false nofun ?_
    rintro ⟨rfl, hn⟩
    exact hn a ha hr
  · next h =>
    constructor
    · rintro ⟨⟩
      exact ⟨rfl, fun a ha hr => h ⟨a, ha, hr⟩⟩
    · rintro ⟨rfl, -⟩
      rfl

theorem getD_rootFolder_ne_nil (s : Option (List Char)) : (nonempty s).getD rootFolder ≠ [] := by
  cases h : nonempty s with
  | none => exact (by decide : rootFolder ≠ [])
  | some c => exact (nonempty_eq_some_iff.mp h).2

theorem elim_readInt (s : Option (List Char)) : toInt32 (s.elim 0 readInt) = s.elim 0 readInt := by
  cases s with
  | none => rfl
  | some s => exact toInt32_readInt s

theorem normal_of_readHeader (h : readHeader srv j = .ok w) : Normal w := by
  unfold readHeader at h
  obtain ⟨name, -, h⟩ := exists_of_bind_eq_ok h
  obtain ⟨cp, hcp, h⟩ := exists_of_bind_eq_ok h
  obtain ⟨run, -, h⟩ := exists_of_bind_eq_ok h
  obtain ⟨save, -, h⟩ := exists_of_bind_eq_ok h
  obtain ⟨of, -, h⟩ := exists_of_bind_eq_ok h
  obtain ⟨out, -, h⟩ := exists_of_bind_eq_ok h
  cases h
  obtain ⟨rfl, hres⟩ := readCheckpoint_eq_ok_iff.mp hcp
  constructor
  · intro r
    cases r with
    | ncores => exact elim_readInt _
    | nhost => exact elim_readInt _
    | nthreads => exact elim_readInt _
  · exact nonempty_nonempty _
  · exact ⟨_, getD_rootFolder_ne_nil _, rfl⟩
  · exact ⟨_, getD_rootFolder_ne_nil _, rfl⟩
  · exact nonempty_nonempty _
  · exact nonempty_nonempty _
  · exact nonempty_nonempty _
  · exact readCheckpoint_eq_ok_iff.mpr ⟨nonempty_nonempty _, hres⟩

theorem emittedTasks_none (w : Workflow) : emittedTasks w none = w.tasks.zipIdx.map fun p => (p.2, p.1) := by
  unfold emittedTasks
  rw [List.filter_eq_self]
  intro p _
  rfl

theorem store_none_eq_ok_iff :
    store w none = .ok r ↔ ∃ ms es, addAllToJson [] (headerTexts w none) = some ms ∧
      List.Forall₂ (fun p e => storeTask w none p.2 p.1 = some e) w.tasks.zipIdx es ∧ es ≠ [] ∧
      r = .object (setMember ms "tasks" (.array es)) := by
  rw [store_eq_ok_iff, emittedTasks_none]
  simp only [List.forall₂_map_left_iff]
  rfl

theorem global_of_store (h : store w none = .ok r) (hk : k ∈ globalKeys) :
    global r k = lastGiven k (headerTexts w none) := by
  obtain ⟨ms, es, hms, -, -, rfl⟩ := store_none_eq_ok_iff.mp h
  have hget (k : String) (hk : k ∈ globalKeys) :
      (object (setMember ms "tasks" (.array es))).get? k = (lastGiven k (headerTexts w none)).map string := by
    have hne : k ≠ "tasks" := by
      rintro rfl
      exact absurd hk (by decide)
    rw [get?_object_setMember, if_neg hne, get?_of_addAllToJson hms]
  rw [global, unpack_of_texts (fun k hk => ⟨_, hget k hk⟩) hk, getText?_of_get? (hget k hk)]

theorem itemsOf_of_store (h : store w none = .ok r) :
    ∃ es, r.get? "tasks" = some (.array es) ∧ es ≠ [] ∧
      List.Forall₂ (fun p e => storeTask w none p.2 p.1 = some e) w.tasks.zipIdx es := by
  obtain ⟨ms, es, -, hes, hne, rfl⟩ := store_none_eq_ok_iff.mp h
  exact ⟨es, by rw [get?_object_setMember, if_pos rfl], hne, hes⟩

theorem readFlag_unless (b : Bool) : readFlag (if b then none else some "no".toList) = .ok b := by
  cases b <;> rfl

theorem stages_congr {w' : Workflow} (hr : ∀ r : Resource, r.amount w' = r.amount w) (hp : w'.project = w.project)
    (hcwd : w'.cwd = w.cwd) (hcdd : w'.cdd = w.cdd) (hcube : w'.cube = w.cube) : stages w' = stages w := by
  unfold stages resourceStages
  simp only [hr, hp, hcwd, hcdd, hcube]

theorem readHeader_of_store (hw : Normal w) (h : store w none = .ok r) :
    ∃ w', readHeader srv r = .ok w' ∧ stages w' = stages w := by
  have hname : global r "name" = some (printed w.name) := by
    rw [global_of_store h (by decide)]
    simp [lastGiven, headerTexts]
  have hcheckpoint : global r "checkpoint" = w.checkpoint := by
    rw [global_of_store h (by decide)]
    simp [lastGiven, headerTexts]
  have hrun : global r "run" = if w.run then none else some "no".toList := by
    rw [global_of_store h (by decide)]
    simp [lastGiven, headerTexts]
  have hnone (k : String) (hk : k ∈ ["save", "output_format", "direct_output"]) : global r k = none := by
    rw [global_of_store h (by revert k; decide)]
    revert k
    simp [lastGiven, headerTexts]
  have hnumbers : global r "ncores" = some (decimal w.ncores) ∧ global r "nhost" = some (decimal w.nhosts) ∧
      global r "nthreads" = some (decimal w.nthreads) := by
    rw [global_of_store h (by decide), global_of_store h (by decide), global_of_store h (by decide)]
    simp [lastGiven, headerTexts]
  have hsettings : global r "project" = w.project ∧ global r "cwd" = w.cwd ∧ global r "cdd" = w.cdd ∧
      global r "cube" = w.cube := by
    rw [global_of_store h (by decide), global_of_store h (by decide), global_of_store h (by decide),
      global_of_store h (by decide)]
    simp [lastGiven, headerTexts]
  refine ⟨_, bind_eq_ok_iff.mpr ⟨_, congrArg required hname, bind_eq_ok_iff.mpr ⟨w.checkpoint,
    (congrArg readCheckpoint hcheckpoint).trans hw.checkpoint, bind_eq_ok_iff.mpr ⟨w.run,
    (congrArg readFlag hrun).trans (readFlag_unless _), bind_eq_ok_iff.mpr ⟨true,
    congrArg readFlag (hnone "save" (by decide)), bind_eq_ok_iff.mpr ⟨false,
    congrArg readOutputFormat (hnone "output_format" (by decide)), bind_eq_ok_iff.mpr ⟨srv.directOutput,
    congrArg (readDirectOutput srv) (hnone "direct_output" (by decide)), rfl⟩⟩⟩⟩⟩⟩, ?_⟩
  obtain ⟨cwd, hcwd, hcwd'⟩ := hw.cwd
  obtain ⟨cdd, hcdd, hcdd'⟩ := hw.cdd
  apply stages_congr
  · intro r'
    cases r' with
    | ncores => exact (congrArg (Option.elim · 0 readInt) hnumbers.1).trans (readInt_decimal (hw.amounts .ncores))
    | nhost => exact (congrArg (Option.elim · 0 readInt) hnumbers.2.1).trans (readInt_decimal (hw.amounts .nhost))
    | nthreads => exact (congrArg (Option.elim · 0 readInt) hnumbers.2.2).trans (readInt_decimal (hw.amounts .nthreads))
  · exact (congrArg nonempty hsettings.1).trans hw.project
  · show some ((nonempty (global r "cwd")).getD rootFolder) = w.cwd
    rw [hsettings.2.1, hcwd', nonempty_eq_some_iff.mpr ⟨rfl, hcwd⟩, Option.getD_some]
  · show some ((nonempty (global r "cdd")).getD rootFolder) = w.cdd
    rw [hsettings.2.2.1, hcdd', nonempty_eq_some_iff.mpr ⟨rfl, hcdd⟩, Option.getD_some]
  · exact (congrArg nonempty hsettings.2.2.2).trans hw.cube

end Header

section Entry

variable {w : Workflow} {i : Nat} {t : Task} {e : Json} {k : String} {d : Dep} {j : Json}

/-- What stands in the entry of a task. -/
structure IsEntry (w : Workflow) (i : Nat) (t : Task) (e : Json) : Prop where
  own : ∀ k ∈ taskKeys, own e k = lastGiven k (taskTexts t ++ commandTexts t)
  arguments : List.Forall₂ (fun a j => argumentText a = some j) (storedArguments t) (itemsOf e "arguments")
  deps : List.Forall₂ (fun d j => storeDep d = some j) (t.deps.filter (keepsDep w none i)) (itemsOf e "dependencies")

theorem isEntry_of_storeTask (h : storeTask w none i t = some e) : IsEntry w i t e := by
  obtain ⟨ms, args, ms', deps, vars, hms, hargs, hms', hdeps, -, rfl⟩ := storeTask_eq_some_iff.mp h
  have hall : addAllToJson [] (taskTexts t ++ commandTexts t) = some ms' := (addAllToJson_append hms _).trans hms'
  have hget (k : String) : (object ms').get? k = (lastGiven k (taskTexts t ++ commandTexts t)).map string :=
    get?_of_addAllToJson hall k
  have hnone (k : String) (hk : k ∈ ["arguments", "dependencies"]) : (object ms').get? k = none := by
    rw [get?_addAllToJson hms', lastText_of_forall_ne _ _, get?_addAllToJson hms]
    · revert k
      simp [lastText, taskTexts]
    · intro kv hkv
      rw [fst_of_mem_commandTexts hkv]
      revert k
      decide
  constructor
  · have hentry (k : String) (hk : k ∈ taskKeys) : (object (setOptional (setOptional (setMember ms' "arguments"
        (.array args)) "dependencies" deps) "variables" vars)).get? k =
        (lastGiven k (taskTexts t ++ commandTexts t)).map string := by
      rw [get?_setOptional, if_neg (by revert k; decide), get?_setOptional, if_neg (by revert k; decide),
        get?_object_setMember, if_neg (by revert k; decide), hget]
    intro k hk
    rw [Request.own, unpack_of_texts (fun k hk => ⟨_, hentry k hk⟩) hk, getText?_of_get? (hentry k hk)]
  · rw [itemsOf, get?_setOptional, if_neg (by decide), get?_setOptional, if_neg (by decide), get?_object_setMember,
      if_pos rfl]
    exact mapM_eq_some_iff.mp hargs
  · rw [itemsOf, get?_setOptional, if_neg (by decide), get?_setOptional, if_pos rfl, get?_object_setMember,
      if_neg (by decide), hnone _ (by decide), Option.or_none]
    unfold storeDeps at hdeps
    split at hdeps
    · next hnil =>
      cases hdeps
      rw [hnil]
      exact .nil
    · obtain ⟨ds, hds, hdeps⟩ := Option.bind_eq_some_iff.mp hdeps
      cases hdeps
      exact mapM_eq_some_iff.mp hds

theorem choose_depTypeText (d : DepType) : choose depTypeText depTypes (depTypeText d) = .ok d := by
  cases d <;> rfl

theorem choose_typeText (t : TaskType) : choose TaskType.text TaskType.all t.text = .ok t := by
  cases t <;> rfl

theorem readDep_of_storeDep (h : storeDep d = some j) (hi : d.taskIndex = 0) (auto : Nat) :
    readDep auto j = .ok d ∧ (j.unpack depKeys "order").isSome := by
  obtain ⟨ms, hms, rfl⟩ := Option.map_eq_some_iff.mp h
  have hget (k : String) (hk : k ∈ depKeys) : (object ms).unpack depKeys k = lastGiven k (depTexts d) := by
    rw [unpack_of_texts (fun k _ => ⟨_, get?_of_addAllToJson hms k⟩) hk, getText?_of_get? (get?_of_addAllToJson hms k)]
  have hargument : (object ms).unpack depKeys "argument" = some d.argument := by
    rw [hget _ (by decide)]
    simp [lastGiven, depTexts]
  have horder : (object ms).unpack depKeys "order" = some d.order := by
    rw [hget _ (by decide)]
    simp [lastGiven, depTexts]
  have htask : (object ms).unpack depKeys "task" = some d.taskName := by
    rw [hget _ (by decide)]
    simp [lastGiven, depTexts]
  have htype : (object ms).unpack depKeys "type" = some (depTypeText d.type) := by
    rw [hget _ (by decide)]
    simp [lastGiven, depTexts]
  have hfilter : (object ms).unpack depKeys "filter" = some d.filter := by
    rw [hget _ (by decide)]
    simp [lastGiven, depTexts]
  have houtput : (object ms).unpack depKeys "output_argument" = some d.outputArgument ∧
      (object ms).unpack depKeys "output_order" = some d.outputOrder := by
    rw [hget _ (by decide), hget _ (by decide)]
    simp [lastGiven, depTexts]
  constructor
  · unfold readDep
    simp only [hargument, horder, htask, htype, hfilter, houtput.1, houtput.2, required, Option.elim_some,
      Option.getD_some, choose_depTypeText]
    cases d
    cases hi
    rfl
  · rw [horder]
    rfl

theorem readDeps_of_storeDep {ds : List Dep} {js : List Json}
    (h : List.Forall₂ (fun d j => storeDep d = some j) ds js) (hi : ∀ d ∈ ds, d.taskIndex = 0) (auto : Nat) :
    readDeps auto js = .ok ds := by
  induction h generalizing auto with
  | nil => rfl
  | cons hd _ ih =>
    obtain ⟨hread, horder⟩ := readDep_of_storeDep hd (hi _ List.mem_cons_self) auto
    rw [readDeps, hread, if_pos horder]
    show (readDeps auto _ >>= _) = _
    rw [ih fun d hd => hi d (List.mem_cons_of_mem _ hd)]
    rfl

end Entry

section Reads

variable {srv : Server} {j e : Json} {i : Nat} {t : Task} {w h : Workflow}

/-- The fields of a task, before the settings are handed down, against its entry. -/
structure Reads (srv : Server) (j : Json) (i : Nat) (e : Json) (t : Task) : Prop where
  name : own e "name" = some t.name
  operator : own e "operator" = some t.operator
  type : readType (own e "type") t.operator = .ok t.type
  arguments : List.Forall₂ (fun j a => readArgument j = .ok a) (itemsOf e "arguments") t.arguments
  deps : readDeps 0 (itemsOf e "dependencies") = .ok t.deps
  retry : readOnError srv.baseBackoff ((own e "on_error").or (global j "on_error")) =
    .ok ⟨t.retryNum, t.backoffTime, t.backoffType⟩
  exitAction : readOnExit ((own e "on_exit").or (global j "on_exit")) = .ok t.exitAction
  run : readFlag ((own e "run").or (global j "run")) = .ok t.run
  save : readFlag ((own e "save").or (global j "save")) = .ok t.save
  checkpoint : readTaskCheckpoint (nonempty (global j "checkpoint")) (own e "checkpoint") = .ok t.checkpoint
  onError : t.onError = nonempty (own e "on_error")
  onExit : t.onExit = nonempty (own e "on_exit")
  vars : t.vars = some (readVars i [] (itemsOf e "variables"))
  resources : ∀ r : Resource, r.get t = 0
  rtype : t.rtype = none
  parent : t.parent = -1
  status : t.status = .unknown

theorem required_eq_ok_iff {s : Option (List Char)} {c : List Char} : required s = .ok c ↔ s = some c := by
  cases s with
  | none => exact iff_of_false nofun nofun
  | some d => exact ⟨fun h => congrArg some (Except.ok.inj h), fun h => congrArg Except.ok (Option.some.inj h)⟩

theorem readTask_eq_ok_iff : readTask srv j i e = .ok t ↔ Reads srv j i e t := by
  unfold readTask
  constructor
  · intro h
    obtain ⟨name, hname, h⟩ := bind_eq_ok_iff.mp h
    obtain ⟨operator, hoperator, h⟩ := bind_eq_ok_iff.mp h
    obtain ⟨type, htype, h⟩ := bind_eq_ok_iff.mp h
    obtain ⟨arguments, harguments, h⟩ := bind_eq_ok_iff.mp h
    obtain ⟨deps, hdeps, h⟩ := bind_eq_ok_iff.mp h
    obtain ⟨retry, hretry, h⟩ := bind_eq_ok_iff.mp h
    obtain ⟨exitAction, hexit, h⟩ := bind_eq_ok_iff.mp h
    obtain ⟨run, hrun, h⟩ := bind_eq_ok_iff.mp h
    obtain ⟨save, hsave, h⟩ := bind_eq_ok_iff.mp h
    obtain ⟨checkpoint, hcheckpoint, h⟩ := bind_eq_ok_iff.mp h
    cases h
    exact {
      name := required_eq_ok_iff.mp hname, operator := required_eq_ok_iff.mp hoperator, type := htype,
      arguments := mapM_eq_ok_iff.mp harguments, deps := hdeps, retry := hretry, exitAction := hexit, run := hrun,
      save := hsave, checkpoint := hcheckpoint, onError := rfl, onExit := rfl, vars := rfl,
      resources := fun r => by cases r <;> rfl, rtype := rfl, parent := rfl, status := rfl }
  · intro h
    refine bind_eq_ok_iff.mpr ⟨_, required_eq_ok_iff.mpr h.name, bind_eq_ok_iff.mpr ⟨_,
      required_eq_ok_iff.mpr h.operator, bind_eq_ok_iff.mpr ⟨_, h.type, bind_eq_ok_iff.mpr ⟨_,
      mapM_eq_ok_iff.mpr h.arguments, bind_eq_ok_iff.mpr ⟨_, h.deps, bind_eq_ok_iff.mpr ⟨_, h.retry,
      bind_eq_ok_iff.mpr ⟨_, h.exitAction, bind_eq_ok_iff.mpr ⟨_, h.run, bind_eq_ok_iff.mpr ⟨_, h.save,
      bind_eq_ok_iff.mpr ⟨_, h.checkpoint, ?_⟩⟩⟩⟩⟩⟩⟩⟩⟩⟩
    have hncores : t.ncores = 0 := h.resources .ncores
    have hnhosts : t.nhosts = 0 := h.resources .nhost
    have hnthreads : t.nthreads = 0 := h.resources .nthreads
    rw [← h.onError, ← h.onExit, ← h.vars]
    congr 1
    cases t
    cases h.rtype
    cases h.parent
    cases h.status
    cases hncores
    cases hnhosts
    cases hnthreads
    rfl

end Reads

section Finalized

variable {u : Task} {bs : Pairs} {k : String}

/-- The types whose operator is moved into the arguments. -/
def TaskType.wraps : TaskType → Bool
  | cdo | generic => true
  | ophidia | control => false

/-- The argument that holds the operator. -/
def commandPair (u : Task) : Pairs := if u.type.wraps then [("command".toList, u.operator)] else []

theorem lastGiven_append (k : String) (kvs kvs' : List (String × Option (List Char))) :
    lastGiven k (kvs ++ kvs') = (lastGiven k kvs').or (lastGiven k kvs) := by
  have h (s : Option (List Char)) : kvs'.foldl (fun s kv => if k = kv.1 then kv.2.or s else s) s =
      (lastGiven k kvs').or s := by
    induction kvs' using List.reverseRecOn with
    | nil => rfl
    | append_singleton kvs' kv ih =>
      rw [lastGiven, List.foldl_append, List.foldl_append, ih]
      show (if k = kv.1 then kv.2.or _ else _) = Option.or (if k = kv.1 then kv.2.or _ else _) s
      split
      · rw [Option.or_assoc]
        rfl
      · rfl
  rw [lastGiven, List.foldl_append]
  exact h _

theorem lastGiven_commandTexts (hk : k ≠ "operator") (t : Task) : lastGiven k (commandTexts t) = none := by
  have hn : lastText k (commandTexts t) none = none :=
    lastText_of_forall_ne (fun kv hkv => by rw [fst_of_mem_commandTexts hkv]; exact hk) none
  rw [lastText_none] at hn
  exact Option.map_eq_none_iff.mp hn

/-- The operator of a task once its type is finalized. -/
def wrapped (u : Task) : List Char :=
  match u.type with
  | .ophidia => u.operator
  | .control => ophPrefix ++ u.operator
  | type => ophPrefix ++ type.text

def finalizedType (u : Task) : Option TaskType := if u.type = .ophidia then none else some u.type

theorem finalizeType_eq (hr : u.rtype = none) (hu : u.arguments = bs.map some) :
    finalizeType u =
      { u with operator := wrapped u, type := .ophidia, rtype := finalizedType u
               arguments := (bs ++ commandPair u).map some } := by
  obtain ⟨_, _, type, _, _, _, _, _, _, _, _, _, _, _, _, _, _, _, _, _, _⟩ := u
  cases hr
  cases hu
  unfold finalizeType wrapped finalizedType commandPair
  cases type with
  | ophidia => simp [TaskType.wraps]
  | cdo => simp [TaskType.wraps]
  | generic => simp [TaskType.wraps]
  | control => simp [TaskType.wraps]

theorem lastGiven_taskTexts (t : Task) :
    lastGiven "name" (taskTexts t) = some t.name ∧ lastGiven "type" (taskTexts t) = some (t.rtype.getD t.type).text ∧
    lastGiven "operator" (taskTexts t) =
      (if eraseCommand t then none else some (t.operator.drop (if t.rtype.isSome then 4 else 0))) ∧
    lastGiven "on_error" (taskTexts t) = t.onError ∧ lastGiven "on_exit" (taskTexts t) = t.onExit ∧
    lastGiven "run" (taskTexts t) = (if t.run then none else some "no".toList) ∧ lastGiven "save" (taskTexts t) = none ∧
    lastGiven "checkpoint" (taskTexts t) = t.checkpoint := by
  simp [lastGiven, taskTexts]

theorem lastGiven_command (t : Task) (bs : Pairs) (v : List Char) (ht : eraseCommand t = true)
    (ha : t.arguments = (bs ++ [("command".toList, v)]).map some) : lastGiven "operator" (commandTexts t) = some v := by
  unfold commandTexts
  rw [if_pos ht, ha, List.map_append, List.filter_append, List.map_append, lastGiven_append]
  rfl

theorem eraseCommand_finalizeType (hr : u.rtype = none) (hu : u.arguments = bs.map some) :
    eraseCommand (finalizeType u) = u.type.wraps := by
  rw [eraseCommand, finalizeType_eq hr hu]
  show (finalizedType u).any _ = _
  unfold finalizedType
  cases u.type <;> rfl

/-- The arguments that are stored as such. -/
def storedPairs (type : TaskType) (bs : Pairs) : Pairs :=
  if type.wraps then bs.filter fun kv => !keyed "command".toList kv else bs

theorem storedArguments_finalizeType (hr : u.rtype = none) (hu : u.arguments = bs.map some) :
    storedArguments (finalizeType u) = (storedPairs u.type bs).map some := by
  have harguments : (finalizeType u).arguments = (bs ++ commandPair u).map some :=
    congrArg Task.arguments (finalizeType_eq hr hu)
  rw [storedArguments, eraseCommand_finalizeType hr hu, harguments, storedPairs, commandPair]
  by_cases h : u.type.wraps = true
  · rw [if_pos h, if_pos h, if_pos h, List.map_append, List.filter_append, List.filter_map]
    show List.map some (bs.filter fun kv => !keyed "command".toList kv) ++ [] = _
    rw [List.append_nil]
  · rw [if_neg h, if_neg h, if_neg h, List.append_nil]

/-- What is stored for the type and the operator of a task. -/
theorem lastGiven_operator (hr : u.rtype = none) (hu : u.arguments = bs.map some) :
    lastGiven "type" (taskTexts (finalizeType u) ++ commandTexts (finalizeType u)) = some u.type.text ∧
    lastGiven "operator" (taskTexts (finalizeType u) ++ commandTexts (finalizeType u)) = some u.operator := by
  have hf := finalizeType_eq hr hu
  have hrtype : (finalizeType u).rtype = finalizedType u := congrArg Task.rtype hf
  have htype : (finalizeType u).type = .ophidia := congrArg Task.type hf
  have hoperator : (finalizeType u).operator = wrapped u := congrArg Task.operator hf
  have harguments : (finalizeType u).arguments = (bs ++ commandPair u).map some := congrArg Task.arguments hf
  constructor
  · rw [lastGiven_append, lastGiven_commandTexts (by decide), Option.none_or, (lastGiven_taskTexts _).2.1, hrtype,
      htype,
      finalizedType]
    split
    · next h => rw [h]; rfl
    · rfl
  · rw [lastGiven_append, (lastGiven_taskTexts _).2.2.1]
    by_cases h : u.type.wraps = true
    · have hpair : commandPair u = [("command".toList, u.operator)] := if_pos h
      rw [hpair] at harguments
      rw [lastGiven_command _ bs u.operator ((eraseCommand_finalizeType hr hu).trans h) harguments]
      rfl
    · have herase : eraseCommand (finalizeType u) = false :=
        (eraseCommand_finalizeType hr hu).trans (Bool.eq_false_of_not_eq_true h)
      rw [commandTexts, herase, hrtype, hoperator, finalizedType, wrapped]
      cases htype : u.type with
      | ophidia => rfl
      | control => rfl
      | cdo => exact absurd (htype ▸ rfl) h
      | generic => exact absurd (htype ▸ rfl) h

end Finalized

end OphidiaWorkflow.Request
