import OphidiaWorkflow.Request.ReadBack
import OphidiaWorkflow.Text.Jansson

/-!
The texts that `oph_workflow_store` writes for a whole workflow, in the order in which they are printed, and when the
stripper of the comments leaves them alone.
-/
namespace OphidiaWorkflow.Request

open Json Lib

/-- The names and the values of the members that are added; a null pointer adds nothing. -/
def pastedMembers (kvs : List (String × Option (List Char))) : List (List Char) :=
  kvs.flatMap fun kv => kv.2.elim [] fun s => [kv.1.toList, s]

/-- The texts of task `i`. Of several operators among the arguments the last one is kept. -/
def pastedTask (w : Workflow) (i : Nat) (t : Task) : List (List Char) :=
  pastedMembers (taskTexts t ++ (commandTexts t).getLast?.toList) ++
    "arguments".toList :: ((storedArguments t).flatMap fun a => a.elim [] fun kv => [printed (kv.1 ++ '=' :: kv.2)]) ++
    if t.deps = [] then []
    else "dependencies".toList :: (t.deps.filter (keepsDep w none i)).flatMap fun d => pastedMembers (depTexts d)

/-- The texts of the stored request. -/
def pasted (w : Workflow) : List (List Char) :=
  pastedMembers (headerTexts w none) ++ "tasks".toList :: w.tasks.zipIdx.flatMap fun p => pastedTask w p.2 p.1

/-- The stored request passes the stripper of the comments as it is. -/
def Survives [Jansson] (w : Workflow) : Prop := ∀ r, store w none = .ok r → skipComments (dumps r) = some (dumps r)

section Members

variable {ms ms' : List (String × Json)} {kvs : List (String × Option (List Char))} {k : String} {j : Json}
  {js : List Json} {s : List Char}

theorem memberLiterals_append (ms ms' : List (String × Json)) :
    memberLiterals (ms ++ ms') = memberLiterals ms ++ memberLiterals ms' := by
  induction ms with
  | nil => rfl
  | cons m ms ih =>
    obtain ⟨k, j⟩ := m
    rw [List.cons_append, memberLiterals, memberLiterals, ih, List.cons_append, List.append_assoc]

theorem itemLiterals_of_forall₂ {α : Type} {f : α → List (List Char)} {as : List α}
    (h : List.Forall₂ (fun a j => literals j = f a) as js) : itemLiterals js = as.flatMap f := by
  induction h with
  | nil => rfl
  | cons ha _ ih => rw [itemLiterals, List.flatMap_cons, ha, ih]

theorem setMember_of_forall_ne (h : ∀ m ∈ ms, m.1 ≠ k) : setMember ms k j = ms ++ [(k, j)] := by
  unfold setMember
  rw [if_neg]
  rw [List.any_eq_true]
  rintro ⟨m, hm, hk⟩
  exact h m hm (of_decide_eq_true hk)

theorem setMember_append_singleton (h : ∀ m ∈ ms, m.1 ≠ k) (i : Json) :
    setMember (ms ++ [(k, i)]) k j = ms ++ [(k, j)] := by
  have hany : (ms ++ [(k, i)]).any (fun m => m.1 = k) = true :=
    List.any_eq_true.mpr ⟨(k, i), List.mem_append_right _ List.mem_cons_self, decide_eq_true rfl⟩
  have hmap : ms.map (fun m => if m.1 = k then (k, j) else m) = ms := by
    conv_rhs => rw [← List.map_id ms]
    exact List.map_congr_left fun m hm => if_neg (h m hm)
  unfold setMember
  rw [if_pos hany, List.map_append, hmap, List.map_singleton, if_pos rfl]

/-- Members with different names are added one after the other. -/
theorem addAllToJson_eq_append (h : addAllToJson ms kvs = some ms') (hms : ∀ m ∈ ms, ∀ kv ∈ kvs, kv.2.isSome → m.1 ≠ kv.1)
    (hkvs : kvs.Pairwise fun a b => a.1 ≠ b.1) :
    ms' = ms ++ kvs.filterMap fun kv => kv.2.map fun s => (kv.1, string s) := by
  induction kvs generalizing ms with
  | nil =>
    cases h
    rw [List.filterMap_nil, List.append_nil]
  | cons kv kvs ih =>
    unfold addAllToJson at h
    rw [List.foldlM_cons] at h
    obtain ⟨ms₁, h₁, h⟩ := Option.bind_eq_some_iff.mp h
    obtain ⟨hkv, htail⟩ := List.pairwise_cons.mp hkvs
    obtain ⟨-, rfl⟩ := addToJson_eq_some_iff.mp h₁
    obtain ⟨k, s⟩ := kv
    cases s with
    | none => exact ih h (fun m hm kv hkv => hms m hm kv (List.mem_cons_of_mem _ hkv)) htail
    | some s =>
      have hset : setMember ms k (string s) = ms ++ [(k, string s)] :=
        setMember_of_forall_ne fun m hm => hms m hm _ List.mem_cons_self rfl
      rw [Option.elim_some, hset] at h
      rw [ih h ?_ htail, List.append_assoc]
      · rfl
      · intro m hm kv' hkv' hs
        rcases List.mem_append.mp hm with hm | hm
        · exact hms m hm kv' (List.mem_cons_of_mem _ hkv') hs
        · rw [List.mem_singleton.mp hm]
          exact hkv kv' hkv'

theorem memberLiterals_filterMap (kvs : List (String × Option (List Char))) :
    memberLiterals (kvs.filterMap fun kv => kv.2.map fun s => (kv.1, string s)) = pastedMembers kvs := by
  induction kvs with
  | nil => rfl
  | cons kv kvs ih =>
    obtain ⟨k, s⟩ := kv
    rw [pastedMembers, List.flatMap_cons, ← pastedMembers, ← ih]
    cases s with
    | none => rfl
    | some s => rfl

theorem memberLiterals_of_addAllToJson (h : addAllToJson [] kvs = some ms)
    (hkvs : kvs.Pairwise fun a b => a.1 ≠ b.1) : memberLiterals ms = pastedMembers kvs := by
  rw [addAllToJson_eq_append h (fun m hm => absurd hm List.not_mem_nil) hkvs, List.nil_append,
    memberLiterals_filterMap]

/-- Of several members with one name that is new the last one is kept. -/
theorem addAllToJson_same (h : addAllToJson ms kvs = some ms') (hms : ∀ m ∈ ms, m.1 ≠ k)
    (hkvs : ∀ kv ∈ kvs, kv.1 = k ∧ kv.2.isSome) :
    ms' = ms ++ kvs.getLast?.toList.filterMap fun kv => kv.2.map fun s => (kv.1, string s) := by
  induction kvs using List.reverseRecOn generalizing ms' with
  | nil =>
    cases h
    exact (List.append_nil ms).symm
  | append_singleton kvs kv ih =>
    have hfront : (addAllToJson ms kvs).isSome := by
      rw [addAllToJson_isSome_iff]
      intro kv' hkv'
      exact addAllToJson_isSome_iff.mp (Option.isSome_of_eq_some h) kv' (List.mem_append_left _ hkv')
    obtain ⟨ms₁, h₁⟩ := Option.isSome_iff_exists.mp hfront
    rw [addAllToJson_append h₁] at h
    obtain ⟨ms₂, h₂, h⟩ := Option.bind_eq_some_iff.mp h
    cases h
    obtain ⟨-, rfl⟩ := addToJson_eq_some_iff.mp h₂
    have hkv := hkvs kv (List.mem_append_right _ List.mem_cons_self)
    obtain ⟨s, hs⟩ := Option.isSome_iff_exists.mp hkv.2
    rw [List.getLast?_concat, Option.toList_some, List.filterMap_cons, hs, Option.elim_some, hkv.1]
    show setMember ms₁ k (string s) = ms ++ [(k, string s)]
    rw [ih h₁ fun kv' hkv' => hkvs kv' (List.mem_append_left _ hkv')]
    cases hlast : kvs.getLast? with
    | none =>
      rw [Option.toList_none, List.filterMap_nil, List.append_nil]
      exact setMember_of_forall_ne hms
    | some kv' =>
      have hkv' := hkvs kv' (List.mem_append_left _ (List.mem_of_getLast? hlast))
      obtain ⟨s', hs'⟩ := Option.isSome_iff_exists.mp hkv'.2
      rw [Option.toList_some, List.filterMap_cons, hs', hkv'.1]
      exact setMember_append_singleton hms _

end Members

section Requests

variable {w : Workflow} {t : Task} {i : Nat} {r e : Json} {ms ms' : List (String × Json)}

theorem isSome_of_mem_commandTexts {kv : String × Option (List Char)} (h : kv ∈ commandTexts t) : kv.2.isSome := by
  unfold commandTexts at h
  split at h
  · obtain ⟨a, ha, rfl⟩ := List.mem_map.mp h
    obtain ⟨-, ha⟩ := List.mem_filter.mp ha
    cases a with
    | none => cases ha
    | some kv => rfl
  · cases h

theorem pairwise_taskTexts (t : Task) : (taskTexts t).Pairwise fun a b => a.1 ≠ b.1 := by
  have hkeys : (["name", "type", "operator", "on_error", "on_exit", "run", "checkpoint"]).Pairwise (· ≠ ·) := by
    decide
  exact (List.pairwise_map (f := Prod.fst) (l := taskTexts t)).mp hkeys

theorem map_fst_headerTexts (w : Workflow) : (headerTexts w none).map Prod.fst =
    ["name", "author", "abstract", "url", "sessionid", "exec_mode", "ncores", "nhost", "nthreads", "project", "on_error",
      "on_exit", "run", "checkpoint", "cwd", "cdd", "cube", "callback_url", "command", "host_partition"] := rfl

theorem pairwise_headerTexts (w : Workflow) : (headerTexts w none).Pairwise fun a b => a.1 ≠ b.1 := by
  apply List.pairwise_map.mp
  rw [map_fst_headerTexts]
  decide

theorem pairwise_depTexts (d : Dep) : (depTexts d).Pairwise fun a b => a.1 ≠ b.1 := by
  have hkeys : (["argument", "order", "task", "type", "filter", "output_argument", "output_order"]).Pairwise (· ≠ ·) := by
    decide
  exact (List.pairwise_map (f := Prod.fst) (l := depTexts d)).mp hkeys

theorem members_of_storeTask (hms : addAllToJson [] (taskTexts t) = some ms)
    (hms' : addAllToJson ms (commandTexts t) = some ms') :
    ms' = (taskTexts t ++ (commandTexts t).getLast?.toList).filterMap fun kv =>
      kv.2.map fun s => (kv.1, string s) := by
  have htask := addAllToJson_eq_append hms (fun m hm => absurd hm List.not_mem_nil) (pairwise_taskTexts t)
  rw [List.nil_append] at htask
  rw [List.filterMap_append, ← htask]
  by_cases herase : eraseCommand t = true
  · refine addAllToJson_same hms' (k := "operator") ?_ fun kv hkv =>
      ⟨fst_of_mem_commandTexts hkv, isSome_of_mem_commandTexts hkv⟩
    -- the operator itself has not been written
    intro m hm
    rw [htask, List.mem_filterMap] at hm
    obtain ⟨kv, hkv, hm⟩ := hm
    obtain ⟨s, hs, rfl⟩ := Option.map_eq_some_iff.mp hm
    rintro hk
    have hnone : ∀ kv ∈ taskTexts t, kv.1 = "operator" → kv.2 = none := by
      unfold taskTexts
      simp [herase]
    rw [hnone kv hkv hk] at hs
    cases hs
  · have hnil : commandTexts t = [] := if_neg herase
    rw [hnil] at hms' ⊢
    cases hms'
    exact (List.append_nil ms).symm

theorem literals_of_argumentText {a : Option (List Char × List Char)} (h : argumentText a = some e) :
    literals e = a.elim [] fun kv => [printed (kv.1 ++ '=' :: kv.2)] := by
  obtain ⟨kv, rfl, hkv⟩ := Option.bind_eq_some_iff.mp h
  obtain ⟨-, rfl⟩ := ofText_eq_some_iff.mp hkv
  rfl

theorem literals_of_storeDep {d : Dep} (h : storeDep d = some e) : literals e = pastedMembers (depTexts d) := by
  obtain ⟨ms, hms, rfl⟩ := Option.map_eq_some_iff.mp h
  exact memberLiterals_of_addAllToJson hms (pairwise_depTexts d)

theorem literals_of_storeTask (h : storeTask w none i t = some e) : literals e = pastedTask w i t := by
  obtain ⟨ms, args, ms', deps, vars, hms, hargs, hms', hdeps, hvars, rfl⟩ := storeTask_eq_some_iff.mp h
  cases hvars
  have hmembers := members_of_storeTask hms hms'
  have hkeys : ∀ m ∈ ms', m.1 ∉ ["arguments", "dependencies"] := by
    intro m hm
    rw [hmembers, List.mem_filterMap] at hm
    obtain ⟨kv, hkv, hm⟩ := hm
    obtain ⟨s, -, rfl⟩ := Option.map_eq_some_iff.mp hm
    rcases List.mem_append.mp hkv with hkv | hkv
    · have hall : ∀ k ∈ (taskTexts t).map Prod.fst, k ∉ ["arguments", "dependencies"] := by
        show ∀ k ∈ ["name", "type", "operator", "on_error", "on_exit", "run", "checkpoint"], _
        decide
      exact hall kv.1 (List.mem_map_of_mem hkv)
    · rw [fst_of_mem_commandTexts (List.mem_of_getLast? (Option.mem_toList.mp hkv))]
      decide
  have harguments : setMember ms' "arguments" (.array args) = ms' ++ [("arguments", .array args)] := by
    apply setMember_of_forall_ne
    rintro m hm hk
    exact hkeys m hm (hk ▸ List.mem_cons_self)
  have hargs' : itemLiterals args =
      (storedArguments t).flatMap fun a => a.elim [] fun kv => [printed (kv.1 ++ '=' :: kv.2)] :=
    itemLiterals_of_forall₂ ((mapM_eq_some_iff.mp hargs).imp fun _ _ ha => literals_of_argumentText ha)
  have hbody : memberLiterals (ms' ++ [("arguments", .array args)]) =
      pastedMembers (taskTexts t ++ (commandTexts t).getLast?.toList) ++
        "arguments".toList :: (storedArguments t).flatMap fun a => a.elim [] fun kv => [printed (kv.1 ++ '=' :: kv.2)] := by
    rw [memberLiterals_append, hmembers, memberLiterals_filterMap, ← hargs']
    show _ ++ "arguments".toList :: (itemLiterals args ++ []) = _
    rw [List.append_nil]
  unfold storeDeps at hdeps
  show memberLiterals (setOptional (setMember ms' "arguments" (.array args)) "dependencies" deps) = _
  rw [harguments]
  split at hdeps
  · next hnil =>
    cases hdeps
    rw [pastedTask, if_pos hnil, List.append_nil, ← hbody]
    rfl
  · next hne =>
    obtain ⟨ds, hds, hdeps⟩ := Option.bind_eq_some_iff.mp hdeps
    cases hdeps
    have hds' : itemLiterals ds =
        (t.deps.filter (keepsDep w none i)).flatMap fun d => pastedMembers (depTexts d) :=
      itemLiterals_of_forall₂ ((mapM_eq_some_iff.mp hds).imp fun _ _ hd => literals_of_storeDep hd)
    have hset : setMember (ms' ++ [("arguments", .array args)]) "dependencies" (.array ds) =
        (ms' ++ [("arguments", .array args)]) ++ [("dependencies", .array ds)] := by
      apply setMember_of_forall_ne
      intro m hm hk
      rcases List.mem_append.mp hm with hm | hm
      · exact hkeys m hm (hk ▸ List.mem_cons_of_mem _ List.mem_cons_self)
      · rw [List.mem_singleton.mp hm] at hk
        exact absurd (show "arguments" = "dependencies" from hk) (by decide)
    rw [pastedTask, if_neg hne, ← hbody, ← hds']
    show memberLiterals (setMember (ms' ++ [("arguments", .array args)]) "dependencies" (.array ds)) = _
    rw [hset, memberLiterals_append _ [("dependencies", _)]]
    show _ ++ "dependencies".toList :: (itemLiterals ds ++ []) = _
    rw [List.append_nil]

theorem literals_of_store (h : store w none = .ok r) : literals r = pasted w := by
  obtain ⟨ms, es, hms, hes, -, rfl⟩ := store_none_eq_ok_iff.mp h
  have hmembers := addAllToJson_eq_append hms (fun m hm => absurd hm List.not_mem_nil) (pairwise_headerTexts w)
  have hset : setMember ms "tasks" (.array es) = ms ++ [("tasks", .array es)] := by
    apply setMember_of_forall_ne
    intro m hm
    rw [hmembers, List.nil_append, List.mem_filterMap] at hm
    obtain ⟨kv, hkv, hm⟩ := hm
    obtain ⟨s, -, rfl⟩ := Option.map_eq_some_iff.mp hm
    have hall : ∀ k ∈ (headerTexts w none).map Prod.fst, k ≠ "tasks" := by
      rw [map_fst_headerTexts]
      decide
    exact hall kv.1 (List.mem_map_of_mem hkv)
  have htasks : itemLiterals es = w.tasks.zipIdx.flatMap fun p => pastedTask w p.2 p.1 :=
    itemLiterals_of_forall₂ (hes.imp fun _ _ he => literals_of_storeTask he)
  show memberLiterals (setMember ms "tasks" (.array es)) = _
  rw [hset, memberLiterals_append, memberLiterals_of_addAllToJson hms (pairwise_headerTexts w), pasted, ← htasks]
  show _ ++ "tasks".toList :: (itemLiterals es ++ []) = _
  rw [List.append_nil]

theorem compound_of_store (h : store w none = .ok r) : Compound r := by
  obtain ⟨ms, es, -, -, -, rfl⟩ := store_none_eq_ok_iff.mp h
  exact .object _

/-- The stored request is given back by the stripper exactly if its texts are undisturbed. -/
theorem survives_iff [Jansson] (h : store w none = .ok r) : Survives w ↔ Undisturbed false (pasted w) := by
  rw [← literals_of_store h, ← skipComments_dumps_iff (compound_of_store h)]
  constructor
  · exact fun hs => hs r h
  · intro hr r' hr'
    cases h.symm.trans hr'
    exact hr

end Requests

end OphidiaWorkflow.Request
