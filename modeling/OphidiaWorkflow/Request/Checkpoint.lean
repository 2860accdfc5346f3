import OphidiaWorkflow.Lib.Loops
import OphidiaWorkflow.Request.Environment

/-!
What `oph_workflow_store` writes at a checkpoint: one entry for each task that is not over yet.
-/
namespace OphidiaWorkflow.Request

open Json Lib

/-- A task the checkpoint has to keep: not over, nor in a flow control block whose head is over. -/
def Pending (w : Workflow) (p : Nat × Task) : Prop :=
  w.tasks[p.1]? = some p.2 ∧ p.2.status < .completed ∧
    (0 ≤ p.2.parent → ∀ t, w.tasks[p.2.parent.toNat]? = some t → t.status < .completed)

/-- The request is produced and has one entry for each pending task, in their order, after the restoring task. -/
def StoresEach (w : Workflow) (label : List Char) : Prop :=
  ∃ r ps es, store w (some label) = .ok r ∧
    (r.get? "tasks").map Json.items = some ((restoring w (some label)).toList ++ es) ∧
    (∀ p, p ∈ ps ↔ Pending w p) ∧ ps.Pairwise (fun p q => p.1 < q.1) ∧
    List.Forall₂ (fun p e => e.getText? "name" = some p.2.name) ps es

/-- Every text that the entry of the task needs, its variables apart, is there and is UTF-8. -/
structure WritableTask (w : Workflow) (label : List Char) (p : Nat × Task) : Prop where
  texts : ∀ kv ∈ taskTexts p.2, ∀ s ∈ kv.2, validUtf8 s = true
  commands : ∀ kv ∈ commandTexts p.2, ∀ s ∈ kv.2, validUtf8 s = true
  arguments : ∀ a ∈ storedArguments p.2, ∃ kv, a = some kv ∧ validUtf8 (printed (kv.1 ++ '=' :: kv.2)) = true
  deps : ∀ d ∈ p.2.deps, keepsDep w (some label) p.1 d = true → ∀ kv ∈ depTexts d, ∀ s ∈ kv.2, validUtf8 s = true

/-- Moreover the table of variables of the task, if any, starts with a variable that can be stored. -/
structure StorableTask (w : Workflow) (label : List Char) (p : Nat × Task) : Prop extends WritableTask w label p where
  vars : ∀ vars, p.2.vars = some vars →
    ∃ kv, vars.head? = some kv ∧ validUtf8 kv.1 = true ∧ validUtf8 kv.2.svalue = true

/-- The header can be written. -/
def WritableHeader (w : Workflow) (label : List Char) : Prop :=
  ∀ kv ∈ headerTexts w (some label), ∀ s ∈ kv.2, validUtf8 s = true

/-- The header can be written, and the entry of every pending task. -/
def Storable (w : Workflow) (label : List Char) : Prop :=
  WritableHeader w label ∧ ∀ p, Pending w p → StorableTask w label p

section Emitted

variable {w : Workflow} {label : List Char} {p : Nat × Task} {i : Nat} {t : Task} {e : Json}

theorem isOver_eq_true_iff {i : Int} :
    w.isOver i = true ↔ 0 ≤ i ∧ ∃ t, w.tasks[i.toNat]? = some t ∧ t.status.Terminal := by
  unfold Workflow.isOver
  rw [Bool.and_eq_true, decide_eq_true_iff, Option.any_eq_true]
  simp only [decide_eq_true_iff]

theorem isOver_natCast_iff (h : w.tasks[i]? = some t) : w.isOver (i : Int) = true ↔ t.status.Terminal := by
  rw [isOver_eq_true_iff, Int.toNat_natCast, h]
  constructor
  · rintro ⟨-, _, ⟨⟩, ht⟩
    exact ht
  · exact fun ht => ⟨Int.natCast_nonneg i, t, rfl, ht⟩

theorem mem_emittedTasks_iff : p ∈ emittedTasks w (some label) ↔ Pending w p := by
  obtain ⟨i, t⟩ := p
  unfold emittedTasks Pending
  rw [List.mem_filter, List.mem_map]
  constructor
  · rintro ⟨⟨⟨t, i⟩, hm, ⟨⟩⟩, hem⟩
    have ht : w.tasks[i]? = some t := List.mem_zipIdx_iff_getElem?.mp hm
    unfold emitted at hem
    rw [Option.isNone_some, Bool.false_or, Bool.not_eq_true', Bool.or_eq_false_iff, ht, Option.any_some] at hem
    refine ⟨ht, ?_, fun hp u hu => ?_⟩
    · rw [← JobStatus.not_terminal_iff, ← isOver_natCast_iff ht, hem.1]
      exact Bool.false_ne_true
    · rw [← JobStatus.not_terminal_iff]
      intro hover
      rw [isOver_eq_true_iff.mpr ⟨hp, u, hu, hover⟩] at hem
      cases hem.2
  · rintro ⟨ht, hs, hp⟩
    refine ⟨⟨(t, i), List.mem_zipIdx_iff_getElem?.mpr ht, rfl⟩, ?_⟩
    unfold emitted
    rw [Option.isNone_some, Bool.false_or, Bool.not_eq_true', Bool.or_eq_false_iff, ht, Option.any_some]
    constructor
    · rw [← Bool.not_eq_true, isOver_natCast_iff ht, JobStatus.not_terminal_iff]
      exact hs
    · rw [← Bool.not_eq_true, isOver_eq_true_iff]
      rintro ⟨h0, u, hu, hover⟩
      exact JobStatus.not_terminal_iff.mpr (hp h0 u hu) hover

theorem pairwise_emittedTasks (w : Workflow) (label : Option (List Char)) :
    (emittedTasks w label).Pairwise fun p q => p.1 < q.1 := by
  apply List.Pairwise.filter
  rw [List.pairwise_map]
  have h := List.pairwise_lt_range' (s := 0) (n := w.tasks.length)
  rw [← List.zipIdx_map_snd 0 w.tasks, List.pairwise_map] at h
  exact h

end Emitted

section Entry

variable {w : Workflow} {label : List Char} {p : Nat × Task} {e : Json} {vars : Table}

theorem validUtf8_decimal (n : Int) : validUtf8 (decimal n) = true := by
  apply validUtf8_of_ascii
  intro c hc
  rcases isDigit_or_of_mem_decimal hc with hd | rfl
  · exact Nat.le_trans (Char.isDigit_iff_toNat.mp hd).2 (by decide)
  · decide

theorem argumentText_isSome_iff {a : Option (List Char × List Char)} :
    (argumentText a).isSome ↔ ∃ kv, a = some kv ∧ validUtf8 (printed (kv.1 ++ '=' :: kv.2)) = true := by
  cases a with
  | none => exact iff_of_false Bool.false_ne_true fun ⟨kv, h, _⟩ => nomatch h
  | some kv =>
    show (ofText _).isSome ↔ _
    unfold ofText
    constructor
    · intro h
      split at h
      · next hv => exact ⟨kv, rfl, hv⟩
      · cases h
    · rintro ⟨_, ⟨⟩, hv⟩
      rw [if_pos hv]
      rfl

theorem storeVariable_isSome_iff {kv : List Char × Var} :
    (storeVariable kv).isSome ↔ validUtf8 kv.1 = true ∧ validUtf8 kv.2.svalue = true := by
  unfold storeVariable
  rw [Option.isSome_map, addAllToJson_isSome_iff]
  simp [validUtf8_decimal]

/-- Something is stored as soon as the first variable is. -/
theorem storeVariables_eq_nil_iff :
    storeVariables vars = [] ↔
      ¬ ∃ kv, vars.head? = some kv ∧ validUtf8 kv.1 = true ∧ validUtf8 kv.2.svalue = true := by
  cases vars with
  | nil => exact iff_of_true rfl fun ⟨kv, h, _⟩ => nomatch h
  | cons kv vars =>
    rw [storeVariables]
    cases h : storeVariable kv with
    | none =>
      refine iff_of_true rfl ?_
      rintro ⟨_, ⟨⟩, hv⟩
      rw [← storeVariable_isSome_iff, h] at hv
      cases hv
    | some j => exact iff_of_false (List.cons_ne_nil _ _) fun hn => hn ⟨kv, rfl, storeVariable_isSome_iff.mp (h ▸ rfl)⟩

theorem storeTaskVars_isSome_iff {t : Task} :
    (storeTaskVars (some label) t).isSome ↔ ∀ vars, t.vars = some vars →
      ∃ kv, vars.head? = some kv ∧ validUtf8 kv.1 = true ∧ validUtf8 kv.2.svalue = true := by
  unfold storeTaskVars
  rw [Option.bind_some]
  cases t.vars with
  | none => exact iff_of_true rfl fun vars h => nomatch h
  | some vars =>
    show (if storeVariables vars = [] then none else _).isSome = true ↔ _
    split
    · next h =>
      exact iff_of_false Bool.false_ne_true fun hv => storeVariables_eq_nil_iff.mp h (hv vars rfl)
    · next h =>
      rw [storeVariables_eq_nil_iff, not_not] at h
      refine iff_of_true rfl ?_
      rintro _ ⟨⟩
      exact h

theorem storeDeps_isSome_iff {label : Option (List Char)} {i : Nat} {t : Task} :
    (storeDeps w label i t).isSome ↔
      ∀ d ∈ t.deps, keepsDep w label i d = true → ∀ kv ∈ depTexts d, ∀ s ∈ kv.2, validUtf8 s = true := by
  have hmap : ((t.deps.filter (keepsDep w label i)).mapM storeDep).isSome ↔
      ∀ d ∈ t.deps, keepsDep w label i d = true → ∀ kv ∈ depTexts d, ∀ s ∈ kv.2, validUtf8 s = true := by
    rw [mapM_isSome_iff]
    simp only [List.mem_filter, and_imp, storeDep, Option.isSome_map, addAllToJson_isSome_iff]
  unfold storeDeps
  split
  · next h =>
    refine iff_of_true rfl ?_
    rw [h]
    exact fun d hd => absurd hd List.not_mem_nil
  · rw [← hmap]
    cases (t.deps.filter (keepsDep w label i)).mapM storeDep with
    | none => exact Iff.rfl
    | some ds => exact Iff.rfl

/-- What a stored entry is put together from. -/
theorem storeTask_eq_some_iff {label : Option (List Char)} {i : Nat} {t : Task} {e : Json} :
    storeTask w label i t = some e ↔ ∃ ms args ms' deps vars, addAllToJson [] (taskTexts t) = some ms ∧
      (storedArguments t).mapM argumentText = some args ∧ addAllToJson ms (commandTexts t) = some ms' ∧
      storeDeps w label i t = some deps ∧ storeTaskVars label t = some vars ∧
      e = .object (setOptional (setOptional (setMember ms' "arguments" (.array args)) "dependencies" deps) "variables"
        vars) := by
  unfold storeTask
  constructor
  · intro h
    obtain ⟨ms, hms, h⟩ := Option.bind_eq_some_iff.mp h
    obtain ⟨args, hargs, h⟩ := Option.bind_eq_some_iff.mp h
    obtain ⟨ms', hms', h⟩ := Option.bind_eq_some_iff.mp h
    obtain ⟨deps, hdeps, h⟩ := Option.bind_eq_some_iff.mp h
    obtain ⟨vars, hvars, h⟩ := Option.bind_eq_some_iff.mp h
    exact ⟨ms, args, ms', deps, vars, hms, hargs, hms', hdeps, hvars, (Option.some.inj h).symm⟩
  · rintro ⟨ms, args, ms', deps, vars, hms, hargs, hms', hdeps, hvars, rfl⟩
    simp only [hms, hargs, hms', hdeps, hvars, Option.bind_eq_bind, Option.bind_some]

theorem storeTask_isSome_iff : (storeTask w (some label) p.1 p.2).isSome ↔ StorableTask w label p := by
  constructor
  · intro h
    obtain ⟨e, he⟩ := Option.isSome_iff_exists.mp h
    obtain ⟨ms, args, ms', deps, vars, hms, hargs, hms', hdeps, hvars, -⟩ := storeTask_eq_some_iff.mp he
    refine ⟨⟨?_, ?_, ?_, ?_⟩, ?_⟩
    · exact addAllToJson_isSome_iff.mp (Option.isSome_of_eq_some hms)
    · exact addAllToJson_isSome_iff.mp (Option.isSome_of_eq_some hms')
    · exact fun a ha => argumentText_isSome_iff.mp (mapM_isSome_iff.mp (Option.isSome_of_eq_some hargs) a ha)
    · exact storeDeps_isSome_iff.mp (Option.isSome_of_eq_some hdeps)
    · exact storeTaskVars_isSome_iff.mp (Option.isSome_of_eq_some hvars)
  · intro h
    obtain ⟨ms, hms⟩ := Option.isSome_iff_exists.mp ((@addAllToJson_isSome_iff [] _).mpr h.texts)
    obtain ⟨args, hargs⟩ := Option.isSome_iff_exists.mp
      (mapM_isSome_iff.mpr fun a ha => argumentText_isSome_iff.mpr (h.arguments a ha))
    obtain ⟨ms', hms'⟩ := Option.isSome_iff_exists.mp ((@addAllToJson_isSome_iff ms _).mpr h.commands)
    obtain ⟨deps, hdeps⟩ := Option.isSome_iff_exists.mp (storeDeps_isSome_iff.mpr h.deps)
    obtain ⟨vars, hvars⟩ := Option.isSome_iff_exists.mp ((@storeTaskVars_isSome_iff label _).mpr h.vars)
    exact Option.isSome_of_eq_some
      (storeTask_eq_some_iff.mpr ⟨ms, args, ms', deps, vars, hms, hargs, hms', hdeps, hvars, rfl⟩)

theorem lastText_of_forall_ne {k : String} {kvs : List (String × Option (List Char))} (h : ∀ kv ∈ kvs, k ≠ kv.1)
    (before : Option Json) : lastText k kvs before = before := by
  induction kvs generalizing before with
  | nil => rfl
  | cons kv kvs ih =>
    rw [lastText, List.foldl_cons, if_neg (h kv List.mem_cons_self)]
    exact ih (fun kv hkv => h kv (List.mem_cons_of_mem _ hkv)) before

theorem fst_of_mem_commandTexts {t : Task} {kv : String × Option (List Char)} (h : kv ∈ commandTexts t) :
    kv.1 = "operator" := by
  unfold commandTexts at h
  split at h
  · obtain ⟨a, -, rfl⟩ := List.mem_map.mp h
    rfl
  · cases h

theorem get?_setOptional (ms : List (String × Json)) (k k' : String) (j : Option Json) :
    (object (setOptional ms k j)).get? k' = if k' = k then j.or ((object ms).get? k') else (object ms).get? k' := by
  cases j with
  | none => exact (ite_self _).symm
  | some j => exact get?_object_setMember ms k k' j

theorem getText?_name_of_storeTask {label : Option (List Char)} (h : storeTask w label p.1 p.2 = some e) :
    e.getText? "name" = some p.2.name := by
  obtain ⟨ms, args, ms', deps, vars, hms, -, hms', -, -, rfl⟩ := storeTask_eq_some_iff.mp h
  have hname : (object ms).get? "name" = some (.string p.2.name) := by
    rw [get?_addAllToJson hms]
    rfl
  have hcommand : (object ms').get? "name" = some (.string p.2.name) := by
    rw [get?_addAllToJson hms', lastText_of_forall_ne _ _, hname]
    intro kv hkv
    rw [fst_of_mem_commandTexts hkv]
    decide
  rw [getText?, get?_setOptional, if_neg (by decide), get?_setOptional, if_neg (by decide), get?_object_setMember,
    if_neg (by decide), hcommand]
  rfl

end Entry

section Whole

variable {w : Workflow} {label : List Char} {r : Json}

/-- What a successful call has done. -/
theorem store_eq_ok_iff {label : Option (List Char)} :
    store w label = .ok r ↔ ∃ ms es, addAllToJson [] (headerTexts w label) = some ms ∧
      List.Forall₂ (fun p e => storeTask w label p.1 p.2 = some e) (emittedTasks w label) es ∧ es ≠ [] ∧
      r = .object (setMember ms "tasks" (.array ((restoring w label).toList ++ es))) := by
  unfold store
  constructor
  · intro h
    split at h
    · cases h
    · next ms hms =>
      split at h
      · cases h
      · next es hes =>
        split at h
        · cases h
        · next hne =>
          cases h
          exact ⟨ms, es, hms, mapM_eq_some_iff.mp hes, hne, rfl⟩
  · rintro ⟨ms, es, hms, hes, hne, rfl⟩
    simp only [hms, mapM_eq_some_iff.mpr hes]
    rw [if_neg hne]

/--
A checkpoint is written, with an entry for each task it has to keep, exactly if every one of these entries can be
written. An empty table of variables is what prevents it.
-/
theorem storesEach_iff_storable (w : Workflow) (label : List Char) (h : ∃ p, Pending w p) :
    StoresEach w label ↔ Storable w label := by
  constructor
  · rintro ⟨r, -, -, hr, -⟩
    obtain ⟨ms, es, hms, hes, -, -⟩ := store_eq_ok_iff.mp hr
    refine ⟨addAllToJson_isSome_iff.mp (Option.isSome_of_eq_some hms), fun p hp => ?_⟩
    rw [← storeTask_isSome_iff]
    exact mapM_isSome_iff.mp (Option.isSome_of_eq_some (mapM_eq_some_iff.mpr hes)) p (mem_emittedTasks_iff.mpr hp)
  · rintro ⟨hheader, htasks⟩
    obtain ⟨ms, hms⟩ := Option.isSome_iff_exists.mp ((@addAllToJson_isSome_iff [] _).mpr hheader)
    have hsome : ((emittedTasks w (some label)).mapM fun p => storeTask w (some label) p.1 p.2).isSome := by
      rw [mapM_isSome_iff]
      exact fun p hp => storeTask_isSome_iff.mpr (htasks p (mem_emittedTasks_iff.mp hp))
    obtain ⟨es, hes⟩ := Option.isSome_iff_exists.mp hsome
    have hes := mapM_eq_some_iff.mp hes
    have hne : es ≠ [] := by
      rintro rfl
      obtain ⟨p, hp⟩ := h
      have hp := (@mem_emittedTasks_iff w label p).mpr hp
      rw [List.forall₂_nil_right_iff.mp hes] at hp
      cases hp
    refine ⟨_, emittedTasks w (some label), es, store_eq_ok_iff.mpr ⟨ms, es, hms, hes, hne, rfl⟩, ?_,
      fun p => mem_emittedTasks_iff, pairwise_emittedTasks w (some label), ?_⟩
    · rw [get?_object_setMember, if_pos rfl]
      rfl
    · exact hes.imp fun p e he => getText?_name_of_storeTask he

end Whole

/-- What a checkpoint needs: for each task that it keeps, texts that are UTF-8 and a table of variables that is not empty.
The value of its first variable is what the freed block happens to hold. -/
def Legible (env : Environment) (mem : Memory) (w : Workflow) (label : List Char) : Prop :=
  WritableHeader w label ∧ ∀ p, Pending w p → WritableTask w label p ∧
    ∃ kv, (mem.order (env.taskVars p.1)).head? = some kv ∧ validUtf8 kv.1 = true ∧
      validUtf8 (mem.contents kv.2.svalue) = true

section Reading

variable {env : Environment} {mem : Memory} {w : Workflow} {label : List Char} {p : Nat × Task} {i : Nat}

/-- Task `i` as `oph_workflow_store` reads it. -/
def Environment.readTask (env : Environment) (mem : Memory) (i : Nat) (t : Task) : Task :=
  { t with vars := some (readTableIn env.heap mem (env.taskVars i)) }

theorem getElem?_tasks_readIn (i : Nat) :
    (env.readIn mem w).tasks[i]? = (w.tasks[i]?).map (env.readTask mem i) := List.getElem?_mapIdx

theorem isOver_readIn (i : Int) : (env.readIn mem w).isOver i = w.isOver i := by
  unfold Workflow.isOver
  rw [getElem?_tasks_readIn, Option.any_map]
  rfl

theorem firstNamed_readIn (name : List Char) : firstNamed (env.readIn mem w) name = firstNamed w name := by
  have h : (env.readIn mem w).tasks.map Task.name = w.tasks.map Task.name := by
    apply List.ext_getElem?
    intro i
    rw [List.getElem?_map, getElem?_tasks_readIn, List.getElem?_map, Option.map_map]
    rfl
  have hmap (ts : List Task) : (ts.findIdx? fun t => t.name = name) = (ts.map Task.name).findIdx? (· = name) := by
    rw [List.findIdx?_map]
    rfl
  unfold firstNamed
  rw [hmap, h, ← hmap]

theorem keepsDep_readIn (i : Nat) (d : Dep) :
    keepsDep (env.readIn mem w) (some label) i d = keepsDep w (some label) i d := by
  unfold keepsDep
  rw [firstNamed_readIn]
  simp only [isOver_readIn]

theorem pending_readIn_iff {u : Task} :
    Pending (env.readIn mem w) (i, u) ↔ ∃ t, u = env.readTask mem i t ∧ Pending w (i, t) := by
  have hparent {k : Nat} : (∀ v, (env.readIn mem w).tasks[k]? = some v → v.status < .completed) ↔
      ∀ v, w.tasks[k]? = some v → v.status < .completed := by
    rw [getElem?_tasks_readIn]
    constructor
    · intro h v hv
      exact h (env.readTask mem k v) (by rw [hv]; rfl)
    · intro h v hv
      obtain ⟨v₀, hv₀, rfl⟩ := Option.map_eq_some_iff.mp hv
      exact h v₀ hv₀
  constructor
  · rintro ⟨hu, hs, hp⟩
    obtain ⟨t, ht, rfl⟩ := Option.map_eq_some_iff.mp ((getElem?_tasks_readIn i).symm.trans hu)
    exact ⟨t, rfl, ht, hs, fun h0 => hparent.mp (hp h0)⟩
  · rintro ⟨t, rfl, ht, hs, hp⟩
    refine ⟨?_, hs, fun h0 => hparent.mpr (hp h0)⟩
    exact (getElem?_tasks_readIn i).trans (by rw [ht]; rfl)

theorem Pending.readIn (hp : Pending w p) (env : Environment) (mem : Memory) :
    Pending (env.readIn mem w) (p.1, env.readTask mem p.1 p.2) :=
  pending_readIn_iff.mpr ⟨p.2, rfl, hp⟩

theorem writableTask_readIn_iff {t : Task} :
    WritableTask (env.readIn mem w) label (i, env.readTask mem i t) ↔ WritableTask w label (i, t) := by
  have hdeps (d : Dep) : keepsDep (env.readIn mem w) (some label) i d = keepsDep w (some label) i d := keepsDep_readIn i d
  constructor
  · rintro ⟨htexts, hcommands, harguments, hd⟩
    exact ⟨htexts, hcommands, harguments, fun d hm hk => hd d hm ((hdeps d).trans hk)⟩
  · rintro ⟨htexts, hcommands, harguments, hd⟩
    exact ⟨htexts, hcommands, harguments, fun d hm hk => hd d hm ((hdeps d).symm.trans hk)⟩

theorem head?_readTableIn {t : RecordTable} (ht : ∀ kv ∈ t, env.heap.Dangling kv.2.svalue) :
    (∃ kv, (readTableIn env.heap mem t).head? = some kv ∧ validUtf8 kv.1 = true ∧ validUtf8 kv.2.svalue = true) ↔
      ∃ kv, (mem.order t).head? = some kv ∧ validUtf8 kv.1 = true ∧ validUtf8 (mem.contents kv.2.svalue) = true := by
  unfold readTableIn
  rw [List.head?_map]
  constructor
  · rintro ⟨_, h, hk, hv⟩
    obtain ⟨kv, hkv, rfl⟩ := Option.map_eq_some_iff.mp h
    have hmem : kv ∈ t := (mem.perm t).mem_iff.mp (List.mem_of_head? hkv)
    rw [Record.readIn_of_dangling (ht kv hmem)] at hv
    exact ⟨kv, hkv, hk, hv⟩
  · rintro ⟨kv, hkv, hk, hv⟩
    have hmem : kv ∈ t := (mem.perm t).mem_iff.mp (List.mem_of_head? hkv)
    refine ⟨_, Option.map_eq_some_iff.mpr ⟨kv, hkv, rfl⟩, hk, ?_⟩
    rw [Record.readIn_of_dangling (ht kv hmem)]
    exact hv

theorem storable_readIn_iff (henv : env.Stale) :
    Storable (env.readIn mem w) label ↔ Legible env mem w label := by
  have hvars (i : Nat) (t : Task) : (∀ vars, (env.readTask mem i t).vars = some vars →
      ∃ kv, vars.head? = some kv ∧ validUtf8 kv.1 = true ∧ validUtf8 kv.2.svalue = true) ↔
      ∃ kv, (mem.order (env.taskVars i)).head? = some kv ∧ validUtf8 kv.1 = true ∧
        validUtf8 (mem.contents kv.2.svalue) = true := by
    rw [← head?_readTableIn (henv.taskVars i)]
    exact ⟨fun h => h _ rfl, fun h vars hv => Option.some.inj hv ▸ h⟩
  constructor
  · rintro ⟨hheader, htasks⟩
    refine ⟨hheader, fun p hp => ?_⟩
    have h := htasks _ (hp.readIn env mem)
    exact ⟨writableTask_readIn_iff.mp h.toWritableTask, (hvars p.1 p.2).mp h.vars⟩
  · rintro ⟨hheader, htasks⟩
    refine ⟨hheader, ?_⟩
    rintro ⟨i, u⟩ hp
    obtain ⟨t, rfl, ht⟩ := pending_readIn_iff.mp hp
    obtain ⟨htask, hv⟩ := htasks (i, t) ht
    exact ⟨writableTask_readIn_iff.mpr htask, (hvars i t).mpr hv⟩

end Reading

/--
A checkpoint is written, with an entry for each task it has to keep, exactly if every one of these entries can be
written. An empty table of variables prevents it; otherwise it depends on what is left of the values that have been
freed.
-/
theorem storesEach_iff_legible (calls : List Writer) (mem : Memory) (w : Workflow) (label : List Char)
    (h : ∃ p, Pending w p) :
    StoresEach ((environment calls).readIn mem w) label ↔ Legible (environment calls) mem w label := by
  obtain ⟨p, hp⟩ := h
  rw [← storable_readIn_iff (stale_environment calls)]
  exact storesEach_iff_storable _ _ ⟨_, hp.readIn _ mem⟩

/-- Tables in the order in which they have been filled, and freed blocks that hold one text. -/
def Memory.filledWith (s : List Char) : Memory where
  contents _ := s
  order t := t
  perm _ := List.Perm.refl _

/-- No call is sure to succeed: what is left of the values may be no text. -/
theorem exists_memory_not_storesEach (calls : List Writer) (w : Workflow) (label : List Char)
    (h : ∃ p, Pending w p) : ∃ mem, ¬ StoresEach ((environment calls).readIn mem w) label := by
  obtain ⟨p, hp⟩ := h
  refine ⟨.filledWith [Char.ofNat 255], fun hs => ?_⟩
  rw [storesEach_iff_storable _ _ ⟨_, hp.readIn _ _⟩,
    storable_readIn_iff (stale_environment calls)] at hs
  obtain ⟨-, kv, -, -, hv⟩ := hs.2 p hp
  revert hv
  show ¬ validUtf8 [Char.ofNat 255] = true
  decide

/-- A workflow with one task. -/
def oneTask : Workflow where
  name := "w".toList
  tasks := [{ name := "A".toList, operator := "oph_list".toList }]

theorem pending_oneTask : Pending oneTask (0, { name := "A".toList, operator := "oph_list".toList }) :=
  ⟨rfl, by decide, fun h => absurd h (by decide)⟩

/-- The loader gives the task a table without variables, and then nothing is written at all. -/
theorem not_storesEach_oneTask :
    (∃ p, Pending oneTask p) ∧
      store ((environment [.load 0 []]).readIn (.filledWith []) oneTask) (some "1".toList) = .error .badParamError ∧
      ¬ StoresEach ((environment [.load 0 []]).readIn (.filledWith []) oneTask) "1".toList := by
  have hs : store ((environment [.load 0 []]).readIn (.filledWith []) oneTask) (some "1".toList) =
      .error .badParamError := by rfl
  refine ⟨⟨_, pending_oneTask⟩, hs, ?_⟩
  rintro ⟨r, ps, es, hr, -⟩
  rw [hs] at hr
  cases hr

/-- With a variable `i` in the request, and whatever text is left of its value, the entry is written. -/
theorem storesEach_loadedTask :
    (∃ p, Pending oneTask p) ∧
      StoresEach ((environment [.load 0 [{ key := "i".toList, caller := 0, svalue := "1".toList }]]).readIn
        (.filledWith "?".toList) oneTask) "1".toList := by
  have hp : ∃ p, Pending oneTask p := ⟨_, pending_oneTask⟩
  refine ⟨hp, (storesEach_iff_legible _ (.filledWith "?".toList) oneTask "1".toList hp).mpr ⟨?_, ?_⟩⟩
  · unfold WritableHeader
    decide +kernel
  rintro ⟨i, t⟩ ⟨ht, -, -⟩
  cases i with
  | succ i => cases ht
  | zero =>
    cases ht
    refine ⟨⟨by decide +kernel, by decide +kernel, ?_, ?_⟩, _, rfl, by decide +kernel, by decide +kernel⟩
    · intro a ha
      cases ha
    · intro d hd
      cases hd

end OphidiaWorkflow.Request
