import OphidiaWorkflow.Request.Carried
import OphidiaWorkflow.Request.Pasted

/-!
`oph_workflow_store` after `oph_workflow_load`, for a whole request: the requests whose tasks are the same once they
have been stored and loaded again.
-/
namespace OphidiaWorkflow.Request

open Json Lib

/-- The amount of a resource that the request asks for. -/
def asked (j : Json) : Resource → Int
  | .ncores => (global j "ncores").elim 0 readInt
  | .nhost => (global j "nhost").elim 0 readInt
  | .nthreads => (global j "nthreads").elim 0 readInt

/-- The arguments of an entry. -/
def pairs (e : Json) : Pairs := (itemsOf e "arguments").filterMap fun a => a.text?.bind (cutAt '=')

/-- A dependency that carries no data. -/
def isEmbedded (d : Json) : Bool :=
  (d.unpack depKeys "type").elim (d.unpack depKeys "argument").isNone fun type => type = "embedded".toList

/-- What the request adds to the arguments of an entry, unless they are there already. -/
def offered (j e : Json) : Pairs :=
  ((nonempty (global j "project")).map fun v => ("project".toList, v)).toList ++
    [("cwd".toList, (nonempty (global j "cwd")).getD rootFolder)] ++
    [("cdd".toList, (nonempty (global j "cdd")).getD rootFolder)] ++
    (if (itemsOf e "dependencies").all isEmbedded then
      ((nonempty (global j "cube")).map fun v => ("cube".toList, v)).toList else [])

/-- The first entry with that name. -/
def firstEntry (j : Json) (name : List Char) : Option Nat :=
  (itemsOf j "tasks").findIdx? fun e => own e "name" = some name

/-- Entry `i` of the request, in what `oph_workflow_store` can write again. -/
structure Preserved (j : Json) (i : Nat) (e : Json) : Prop where
  /-- All arguments are texts. -/
  texts : ∀ a ∈ itemsOf e "arguments", a.text?.isSome
  /-- A resource of the workflow is not asked for with another amount, nor twice. -/
  resources : ∀ r : Resource, asked j r ≠ 0 →
    values r.key (pairs e) = [] ∨ (values r.key (pairs e)).map readInt = [asked j r]
  /-- If the workflow asks for hosts, there is an argument left when they are looked for. -/
  hosts : asked j .nhost ≠ 0 → left .ncores (asked j .ncores) (pairs e) ≠ []
  /-- An operator that is stored as an argument is the only one. -/
  command : own e "type" = some "cdo".toList ∨ own e "type" = some "generic".toList →
    values "command".toList (pairs e) = []
  /-- The arguments fit the buffer they are printed into. -/
  short : ∀ kv ∈ pairs e, Short kv ∨ ∃ r : Resource, asked j r ≠ 0 ∧ kv.1 = r.key
  offered : ∀ kv ∈ offered j e, values kv.1 (pairs e) = [] → Short kv
  /-- A dependency is on another entry. -/
  deps : ∀ d ∈ itemsOf e "dependencies", ∃ name k, d.unpack depKeys "task" = some name ∧
    firstEntry j name = some k ∧ k ≠ i
  run : global j "run" = some "no".toList → own e "run" = none ∨ own e "run" = some "no".toList
  /-- `save` is never written. -/
  save : (own e "save").or (global j "save") ≠ some "no".toList
  exitAction : own e "on_exit" = some [] →
    nonempty (global j "on_exit") = none ∨ nonempty (global j "on_exit") = some "nop".toList

/-- The name can be written where it is cut off, and every entry can. -/
structure Reloadable (j : Json) : Prop where
  name : ∀ s ∈ global j "name", validUtf8 (printed s) = true
  entries : ∀ p ∈ (itemsOf j "tasks").zipIdx, Preserved j p.2 p.1

section Loaded

variable {srv : Server} {j e r : Json} {i : Nat} {w h : Workflow} {t u : Task} {as : Arguments}

theorem items_of_get? {o a : Json} {k : String} (h : o.get? k = some a) : itemsOf o k = a.items := by
  rw [itemsOf, h]
  rfl

theorem loadJson_eq_ok_iff :
    loadJson srv j = .ok w ↔ ∃ h, readHeader srv j = .ok h ∧ itemsOf j "tasks" ≠ [] ∧
      List.Forall₂ (fun p u => ∃ t, Reads srv j p.2 p.1 t ∧ runStages (stages h) t = .ok u)
        (itemsOf j "tasks").zipIdx w.tasks ∧ w = { h with tasks := w.tasks } := by
  unfold loadJson
  rw [bind_eq_ok_iff]
  apply exists_congr
  intro h
  apply and_congr_right
  intro _
  cases hk : j.get? "tasks" with
  | none =>
    refine iff_of_false (fun h => by cases h) ?_
    rintro ⟨hne, -⟩
    apply hne
    rw [itemsOf, hk]
    rfl
  | some a =>
    rw [items_of_get? hk]
    show (if a.items = [] then _ else _) = _ ↔ _
    split
    · next hnil => exact iff_of_false (fun h => by cases h) fun h => h.1 hnil
    · next hne =>
      rw [bind_eq_ok_iff]
      simp only [bind_eq_ok_iff, mapM_eq_ok_iff, foldlM_mapM_eq_ok_iff, readTask_eq_ok_iff]
      rw [forall₂_exists_iff]
      constructor
      · rintro ⟨ts, hts, us, hus, ⟨⟩⟩
        exact ⟨hne, ⟨ts, hts, hus⟩, rfl⟩
      · rintro ⟨-, ⟨ts, hts, hus⟩, hw⟩
        exact ⟨ts, hts, w.tasks, hus, congrArg Except.ok hw.symm⟩

/-- A workflow, against the request that it comes from. -/
structure LoadedFrom (srv : Server) (j : Json) (w : Workflow) : Prop where
  heads : Heads j w
  normal : Normal w
  tasks : itemsOf j "tasks" ≠ []
  entries : List.Forall₂ (fun p u => ∃ t, Reads srv j p.2 p.1 t ∧ runStages (stages w) t = .ok u)
    (itemsOf j "tasks").zipIdx w.tasks

theorem Heads.withTasks (hh : Heads j h) (ts : List Task) : Heads j { h with tasks := ts } :=
  ⟨hh.name, hh.author, hh.abstract, hh.url, hh.sessionid, hh.execMode, hh.ncores, hh.nhosts, hh.nthreads, hh.project,
    hh.onError, hh.onExit, hh.run, hh.checkpoint, hh.cwd, hh.cdd, hh.cube, hh.callbackUrl, hh.command, hh.hostPartition,
    hh.hostPartitionOrig⟩

theorem Normal.withTasks (hh : Normal h) (ts : List Task) : Normal { h with tasks := ts } := by
  refine ⟨fun r => ?_, hh.project, hh.cwd, hh.cdd, hh.cube, hh.onError, hh.onExit, hh.checkpoint⟩
  cases r with
  | ncores => exact hh.amounts .ncores
  | nhost => exact hh.amounts .nhost
  | nthreads => exact hh.amounts .nthreads

theorem loadedFrom_of_loadJson (h : loadJson srv j = .ok w) : LoadedFrom srv j w := by
  obtain ⟨h, hh, hne, hentries, hw⟩ := loadJson_eq_ok_iff.mp h
  rw [hw]
  exact ⟨(heads_of_readHeader hh).withTasks _, (normal_of_readHeader hh).withTasks _, hne, hentries⟩

theorem LoadedFrom.headerOf (h : LoadedFrom srv j w) : HeaderOf srv j w :=
  ⟨h.normal, h.heads.onError, h.heads.onExit, h.heads.checkpoint, h.heads.run⟩

theorem arguments_of_readArgument {js : List Json} (h : List.Forall₂ (fun j a => readArgument j = .ok a) js as) :
    (none ∉ as ↔ ∀ a ∈ js, a.text?.isSome) ∧
    (none ∉ as → as = (js.filterMap fun a => a.text?.bind (cutAt '=')).map some) := by
  induction h with
  | nil => exact ⟨iff_of_true List.not_mem_nil fun a ha => absurd ha List.not_mem_nil, fun _ => rfl⟩
  | @cons j a js as ha _ ih =>
    rw [List.forall_mem_cons, List.mem_cons, not_or, List.filterMap_cons]
    unfold readArgument at ha
    cases hj : j.text? with
    | none =>
      rw [hj] at ha
      cases ha
      exact ⟨iff_of_false (fun h => h.1 rfl) (fun h => Bool.false_ne_true h.1), fun h => absurd rfl h.1⟩
    | some s =>
      rw [hj] at ha
      dsimp only at ha
      cases hcut : cutAt '=' s with
      | none =>
        rw [hcut] at ha
        cases ha
      | some kv =>
        rw [hcut] at ha
        cases ha
        refine ⟨and_congr (iff_of_true nofun rfl) ih.1, fun hn => ?_⟩
        rw [Option.bind_some, hcut, List.map_cons, ← ih.2 hn.2]

theorem arguments_eq_pairs (h : Reads srv j i e t) (hn : none ∉ t.arguments) : t.arguments = (pairs e).map some :=
  (arguments_of_readArgument h.arguments).2 hn

theorem texts_iff (h : Reads srv j i e t) : none ∉ t.arguments ↔ ∀ a ∈ itemsOf e "arguments", a.text?.isSome :=
  (arguments_of_readArgument h.arguments).1

theorem none_not_mem_of_storeTask (h : storeTask w none i u = some e) : none ∉ u.arguments := by
  intro hu
  have hstored : none ∈ storedArguments u := by
    unfold storedArguments
    split
    · exact List.mem_filter.mpr ⟨hu, rfl⟩
    · exact hu
  obtain ⟨ms, args, ms', deps, vars, -, hargs, -, -, -, -⟩ := storeTask_eq_some_iff.mp h
  obtain ⟨b, -, hb⟩ := exists_of_forall₂_of_mem (mapM_eq_some_iff.mp hargs) hstored
  cases hb

theorem none_not_mem_of_store (h : store w none = .ok r) (hu : u ∈ w.tasks) : none ∉ u.arguments := by
  obtain ⟨ms, es, -, hes, -, -⟩ := store_none_eq_ok_iff.mp h
  obtain ⟨i, hi⟩ := List.getElem?_of_mem hu
  have hmem : (u, i) ∈ w.tasks.zipIdx := List.mem_zipIdx_iff_getElem?.mpr hi
  obtain ⟨e, -, he⟩ := exists_of_forall₂_of_mem hes hmem
  exact none_not_mem_of_storeTask he

end Loaded

section Printed

variable {P Q : List Char → Prop} {srv : Server} {j e r : Json} {w : Workflow} {u : Task}

theorem Texts.imp (h : ∀ s, P s → Q s) (hj : Texts P j) : Texts Q j := by
  induction hj with
  | string hs => exact .string (h _ hs)
  | array _ ih => exact .array ih
  | object hk _ ih => exact .object (fun m hm => h _ (hk m hm)) ih
  | other => exact .other

theorem validUtf8_of_plain {s : List Char} (h : s.all isPlain = true) : validUtf8 s = true := by
  apply validUtf8_of_ascii
  intro c hc
  have hplain := List.all_eq_true.mp h c hc
  unfold isPlain at hplain
  rcases Bool.or_eq_true_iff.mp hplain with hplain | hplain
  · unfold Char.isAlphanum Char.isAlpha Char.isUpper Char.isLower Char.isDigit at hplain
    simp only [Bool.or_eq_true, Bool.and_eq_true, decide_eq_true_eq] at hplain
    show c.val.toNat ≤ 0x7F
    simp only [UInt32.le_iff_toNat_le] at hplain
    rcases hplain with (⟨-, h⟩ | ⟨-, h⟩) | ⟨-, h⟩ <;> exact Nat.le_trans h (by decide)
  · have hmem : c ∈ ['-', '_', '/'] := of_decide_eq_true hplain
    have hascii : ∀ c ∈ ['-', '_', '/'], c.toNat ≤ 0x7F := by simp
    exact hascii c hmem

theorem LoadedFrom.textsOf (hl : LoadedFrom srv j w) (hP : Carried P) (hj : Texts P j) (hu : u ∈ w.tasks)
    (hn : none ∉ u.arguments) : TextsOf P u := by
  obtain ⟨p, hp, t, hreads, hrun⟩ := exists_of_forall₂_of_mem hl.entries.flip hu
  have hn' : none ∉ t.arguments := fun h => hn (none_mem_of_runStages hrun h)
  have he : Texts P p.1 := texts_itemsOf hj (List.fst_mem_of_mem_zipIdx hp)
  exact textsOf_of_stages hP hj he hl.normal hl.heads hreads (arguments_eq_pairs hreads hn') hrun

theorem LoadedFrom.texts_of_store (hl : LoadedFrom srv j w) (hP : Carried P) (hj : Texts P j)
    (hr : store w none = .ok r)
    (hQ : ∀ s, P s → validUtf8 s = true → Q s)
    (hprinted : ∀ s, Comes P s → validUtf8 (printed s) = true → Q (printed s)) : Texts Q r := by
  have hplain (s : List Char) (hs : s.all isPlain = true) : Q s := hQ s (hP.plain s hs) (validUtf8_of_plain hs)
  obtain ⟨hname, hheader⟩ := texts_of_heads hP hj hl.heads
  apply Request.texts_of_store hplain _ _ hr
  · intro kv hkv s hs hv
    rcases List.mem_cons.mp hkv with rfl | hkv
    · cases hs
      rw [Option.elim_none, List.append_nil] at hv ⊢
      exact hprinted _ (.inl hname) hv
    · exact hQ s (hheader kv hkv s hs) hv
  · intro u hu i e he
    have htexts := hl.textsOf hP hj hu (none_not_mem_of_storeTask he)
    exact texts_of_storeTask hplain (fun kv hkv s hs => hQ s (htexts.texts kv hkv s hs))
      (fun kv hkv => hprinted _ (htexts.arguments kv hkv)) (fun d hd kv hkv s hs => hQ s (htexts.deps d hd kv hkv s hs)) he

theorem nested_of_storeTask {e : Json} {i : Nat} (h : storeTask w none i u = some e) : Nested 4 e := by
  obtain ⟨ms, args, ms', deps, vars, hms, hargs, hms', hds, hvars, rfl⟩ := storeTask_eq_some_iff.mp h
  cases hvars
  have hargs' : ∀ a ∈ args, Nested 2 a := by
    intro a ha
    obtain ⟨b, -, hab⟩ := exists_of_forall₂_of_mem (mapM_eq_some_iff.mp hargs).flip ha
    obtain ⟨kv, -, hkv⟩ := Option.bind_eq_some_iff.mp hab
    obtain ⟨-, rfl⟩ := ofText_eq_some_iff.mp hkv
    exact .string _
  have hwith : Nested 4 (object (setMember ms' "arguments" (.array args))) :=
    nested_setMember (nested_addAllToJson (nested_addAllToJson (.object (by simp)) hms) hms') (.array hargs')
  unfold storeDeps at hds
  split at hds
  · cases hds
    exact hwith
  · obtain ⟨ds, hds', hds⟩ := Option.bind_eq_some_iff.mp hds
    cases hds
    refine nested_setMember hwith (.array fun d hd => ?_)
    obtain ⟨b, -, hab⟩ := exists_of_forall₂_of_mem (mapM_eq_some_iff.mp hds').flip hd
    obtain ⟨ms, hms, rfl⟩ := Option.map_eq_some_iff.mp hab
    exact nested_addAllToJson (.object (by simp)) hms

theorem nested_of_store (h : store w none = .ok r) : Nested 6 r := by
  obtain ⟨ms, es, hms, hes, -, rfl⟩ := store_none_eq_ok_iff.mp h
  refine nested_setMember (nested_addAllToJson (.object (by simp)) hms) (.array fun e he => ?_)
  obtain ⟨p, -, hstore⟩ := exists_of_forall₂_of_mem hes.flip he
  exact nested_of_storeTask hstore

/-- The library gives back what has been printed, if the comment stripper does. -/
theorem LoadedFrom.load_dumps [Jansson] (hl : LoadedFrom srv j w) (hs : Sound j) (hsurvives : Survives w)
    (hr : store w none = .ok r) : load srv (dumps r) = loadJson srv r := by
  have hnull : Texts ('\x00' ∉ ·) j := Texts.imp (fun s hs => of_decide_eq_true (Bool.and_eq_true_iff.mp hs).2) hs
  have hsound : Sound r := by
    apply hl.texts_of_store carried_not_mem_null hnull hr
    · exact fun s hs hv => Bool.and_eq_true_iff.mpr ⟨hv, decide_eq_true hs⟩
    · exact fun s hs hv => Bool.and_eq_true_iff.mpr ⟨hv, decide_eq_true (not_mem_printed_of_comes hs)⟩
  have hloads : loads (dumps r) = some r :=
    Jansson.loads_dumps (compound_of_store hr) hsound ((nested_of_store hr).mono (by decide))
  unfold load
  rw [hsurvives r hr]
  dsimp only
  rw [hloads]

end Printed

section Conditions

variable {srv : Server} {j e : Json} {i : Nat} {w : Workflow} {t u : Task} {as : Pairs} {kv : List Char × List Char}

theorem Heads.amount_eq_asked (hh : Heads j w) (r : Resource) : r.amount w = asked j r := by
  cases r with
  | ncores => exact hh.ncores
  | nhost => exact hh.nhosts
  | nthreads => exact hh.nthreads

theorem mem_left_of_ne {r : Resource} {n : Int} (hne : n ≠ 0 → kv.1 ≠ r.key) (h : kv ∈ as) : kv ∈ left r n as := by
  unfold left
  split
  · exact h
  · next hn => exact (List.mem_eraseP_of_neg fun hk => hne hn (keyed_eq_true_iff.mp hk)).mpr h

/-- All the arguments for the resources of the workflow are taken away, if there is at most one for each. -/
theorem mem_remaining_iff (h : ∀ r : Resource, r.amount w ≠ 0 → (values r.key as).tail = []) :
    kv ∈ remaining w as ↔ kv ∈ as ∧ ∀ r : Resource, r.amount w ≠ 0 → kv.1 ≠ r.key := by
  constructor
  · intro hkv
    refine ⟨mem_of_mem_remaining hkv, fun r hr hk => ?_⟩
    have hvalues := values_remaining w as r
    rw [if_neg hr, h r hr] at hvalues
    exact values_eq_nil_iff.mp hvalues kv hkv hk
  · rintro ⟨hkv, hne⟩
    exact mem_left_of_ne (hne .nthreads) (mem_left_of_ne (hne .nhost) (mem_left_of_ne (hne .ncores) hkv))

theorem short_passed_iff {ds : List Dep} (h : ∀ r : Resource, r.amount w ≠ 0 → (values r.key as).tail = []) :
    (∀ kv ∈ passed w ds as, Short kv) ↔
      (∀ kv ∈ as, Short kv ∨ ∃ r : Resource, r.amount w ≠ 0 ∧ kv.1 = r.key) ∧
      ∀ kv ∈ w.settings ds, values kv.1 as = [] → Short kv := by
  have hvalues (kv : List Char × List Char) (hkv : kv ∈ w.settings ds) :
      values kv.1 (remaining w as) = values kv.1 as :=
    values_remaining_ne (ne_key_of_mem_settingKeys (fst_mem_settingKeys hkv)) w as
  have hmem (kv : List Char × List Char) := @mem_addPairs_iff (remaining w as) (w.settings ds) (nodup_settings w ds) kv
  constructor
  · intro hshort
    constructor
    · intro kv hkv
      by_cases hr : ∃ r : Resource, r.amount w ≠ 0 ∧ kv.1 = r.key
      · exact .inr hr
      · push Not at hr
        exact .inl (hshort kv ((hmem kv).mpr (.inl ((mem_remaining_iff h).mpr ⟨hkv, hr⟩))))
    · intro kv hkv hv
      rw [← hvalues kv hkv] at hv
      exact hshort kv ((hmem kv).mpr (.inr ⟨hkv, hv⟩))
  · rintro ⟨hown, hset⟩ kv hkv
    rcases (hmem kv).mp hkv with hkv | ⟨hkv, hv⟩
    · obtain ⟨hkv, hne⟩ := (mem_remaining_iff h).mp hkv
      refine (hown kv hkv).resolve_right ?_
      rintro ⟨r, hr, hk⟩
      exact hne r hr hk
    · rw [hvalues kv hkv] at hv
      exact hset kv hkv hv

theorem forall₂_of_readDeps {auto : Nat} {js : List Json} {ds : List Dep} (h : readDeps auto js = .ok ds) :
    List.Forall₂ (fun o d => o.unpack depKeys "task" = some d.taskName ∧ isEmbedded o = decide (d.type = .embedded))
      js ds := by
  induction js generalizing auto ds with
  | nil =>
    cases h
    exact .nil
  | cons o js ih =>
    obtain ⟨d, hd, h⟩ := bind_eq_ok_iff.mp h
    obtain ⟨ds, hds, h⟩ := bind_eq_ok_iff.mp h
    cases h
    refine .cons ?_ (ih hds)
    obtain ⟨name, hname, hd⟩ := bind_eq_ok_iff.mp hd
    obtain ⟨type, htype, hd⟩ := bind_eq_ok_iff.mp hd
    cases hd
    refine ⟨required_eq_ok_iff.mp hname, ?_⟩
    show isEmbedded o = decide (type = .embedded)
    unfold isEmbedded
    cases hgiven : o.unpack depKeys "type" with
    | none =>
      rw [hgiven] at htype
      cases htype
      cases o.unpack depKeys "argument" <;> rfl
    | some s =>
      rw [hgiven, Option.elim_some, choose_eq_ok_iff (by decide)] at htype
      obtain ⟨-, rfl⟩ := htype
      rw [Option.elim_some]
      cases type <;> rfl

theorem settings_eq_offered (hh : Heads j w) (hr : Reads srv j i e t) : w.settings t.deps = offered j e := by
  have hdeps : embeddedOnly t.deps = (itemsOf e "dependencies").all isEmbedded := by
    have hds := forall₂_of_readDeps hr.deps
    unfold embeddedOnly
    generalize itemsOf e "dependencies" = js at hds
    generalize t.deps = ds at hds
    induction hds with
    | nil => rfl
    | cons hd _ ih => rw [List.all_cons, List.all_cons, ih, hd.2]
  unfold Workflow.settings offered
  rw [hdeps, hh.project, hh.cwd, hh.cdd, hh.cube]
  rfl

private theorem wraps_iff_text (type : TaskType) :
    type.wraps = true ↔ some type.text = some "cdo".toList ∨ some type.text = some "generic".toList := by
  cases type <;> decide +kernel

theorem wraps_iff (hr : Reads srv j i e t) :
    t.type.wraps = true ↔ own e "type" = some "cdo".toList ∨ own e "type" = some "generic".toList := by
  have htype := hr.type
  unfold readType at htype
  obtain ⟨type, hchoose, h⟩ := bind_eq_ok_iff.mp htype
  split at h
  · cases h
  · have htype : type = t.type := Except.ok.inj h
    rw [← htype]
    cases hown : own e "type" with
    | none =>
      rw [hown] at hchoose
      cases hchoose
      simp [TaskType.wraps]
    | some s =>
      rw [hown, Option.elim_some, choose_eq_ok_iff (by decide +kernel)] at hchoose
      obtain ⟨-, rfl⟩ := hchoose
      exact wraps_iff_text type

theorem LoadedFrom.firstNamed_eq (hl : LoadedFrom srv j w) (hn : ∀ u ∈ w.tasks, none ∉ u.arguments) (name : List Char) :
    firstNamed w name = firstEntry j name := by
  have hboth := (List.forall₂_and_left _ _).mpr ⟨hn, hl.entries.flip⟩
  have hnames : List.Forall₂ (fun u p => some u.name = own p.1 "name") w.tasks (itemsOf j "tasks").zipIdx := by
    refine hboth.imp ?_
    rintro u p ⟨hn, t, hreads, hrun⟩
    have hargs := arguments_eq_pairs hreads fun h => hn (none_mem_of_runStages hrun h)
    obtain ⟨v, bs, rfl, hv, hcore, -⟩ := exists_of_stages hl.normal hargs hreads.resources hrun
    have hname : v.name = t.name := eq_of_core hcore Task.name fun _ => rfl
    have hrtype : v.rtype = t.rtype := eq_of_core hcore Task.rtype fun _ => rfl
    rw [hreads.name, finalizeType_eq (hrtype.trans hreads.rtype) hv]
    exact congrArg some hname
  have hmap : w.tasks.map (fun u => some u.name) = (itemsOf j "tasks").map fun e => own e "name" := by
    rw [← List.zipIdx_map_fst 0 (itemsOf j "tasks"), List.map_map, ← List.forall₂_eq_eq_eq, List.forall₂_map_left_iff,
      List.forall₂_map_right_iff]
    exact hnames
  have hfind := congrArg (List.findIdx? fun a => decide (a = some name)) hmap
  rw [List.findIdx?_map, List.findIdx?_map] at hfind
  unfold firstNamed firstEntry
  refine Eq.trans ?_ hfind
  congr 1
  funext u
  simp

theorem keepsDep_none_iff {d : Dep} : keepsDep w none i d = true ↔ ∃ k, firstNamed w d.taskName = some k ∧ k ≠ i := by
  unfold keepsDep
  rw [Option.isNone_none, Bool.true_or, Bool.true_and, Option.any_eq_true]
  simp

/-- The condition on an entry is that nothing of its task is lost, and that it gets the hosts it is to get. -/
theorem LoadedFrom.preserved_iff (hl : LoadedFrom srv j w) (hn : ∀ u ∈ w.tasks, none ∉ u.arguments)
    (hr : Reads srv j i e t) (hnone : none ∉ t.arguments) :
    Preserved j i e ↔ Lossless w j e i t (pairs e) ∧ (w.nhosts ≠ 0 → left .ncores w.ncores (pairs e) ≠ []) := by
  have hamount := hl.heads.amount_eq_asked
  have hncores : w.ncores = asked j .ncores := hamount .ncores
  have hnhosts : w.nhosts = asked j .nhost := hamount .nhost
  have hoffered := settings_eq_offered hl.heads hr
  have hds := forall₂_of_readDeps hr.deps
  have hdep (o : Json) (d : Dep) (h : o.unpack depKeys "task" = some d.taskName) : keepsDep w none i d = true ↔
      ∃ name k, o.unpack depKeys "task" = some name ∧ firstEntry j name = some k ∧ k ≠ i := by
    rw [keepsDep_none_iff, hl.firstNamed_eq hn]
    constructor
    · rintro ⟨k, hk, hne⟩
      exact ⟨_, k, h, hk, hne⟩
    · rintro ⟨name, k, hname, hk, hne⟩
      cases h.symm.trans hname
      exact ⟨k, hk, hne⟩
  constructor
  · intro hp
    have htail (r : Resource) (h : r.amount w ≠ 0) : (values r.key (pairs e)).tail = [] :=
      tail_eq_nil_of_map (hp.resources r (hamount r ▸ h))
    constructor
    · constructor
      · intro r h
        rw [hamount] at h ⊢
        exact hp.resources r h
      · exact fun h => hp.command ((wraps_iff hr).mp h)
      · rw [short_passed_iff htail, hoffered]
        simp only [hamount]
        exact ⟨hp.short, hp.offered⟩
      · intro d hd
        obtain ⟨o, ho, h⟩ := exists_of_forall₂_of_mem hds.flip hd
        exact (hdep o d h.1).mpr (hp.deps o ho)
      · exact hp.run
      · exact hp.save
      · exact hp.exitAction
    · rw [hncores, hnhosts]
      exact hp.hosts
  · rintro ⟨hp, hhosts⟩
    have htail (r : Resource) (h : r.amount w ≠ 0) : (values r.key (pairs e)).tail = [] :=
      tail_eq_nil_of_map (hp.resources r h)
    have hshort := (short_passed_iff htail).mp hp.short
    simp only [hamount, hoffered] at hshort
    constructor
    · exact (texts_iff hr).mp hnone
    · intro r h
      rw [← hamount] at h ⊢
      exact hp.resources r h
    · rw [← hncores, ← hnhosts]
      exact hhosts
    · exact fun h => hp.command ((wraps_iff hr).mpr h)
    · exact hshort.1
    · exact hshort.2
    · intro o ho
      obtain ⟨d, hd, h⟩ := exists_of_forall₂_of_mem hds ho
      exact (hdep o d h.1).mp (hp.deps d hd)
    · exact hp.run
    · exact hp.save
    · exact hp.exitAction

end Conditions

section Reloaded

variable {srv : Server} {j e r e' : Json} {i : Nat} {w : Workflow} {t t₂ u u' : Task}

/-- Hosts that went astray are found when the task is loaded again, since it has arguments then. -/
theorem not_agree_of_bare (hw : Normal w) (hr : Reads srv j i e t) (hnone : none ∉ t.arguments) (hne : w.nhosts ≠ 0)
    (hbare : left .ncores w.ncores (pairs e) = []) (hrun : runStages (stages w) t = .ok u) (he : IsEntry w i u e')
    (hr₂ : Reads srv r i e' t₂) (hrun₂ : runStages (stages w) t₂ = .ok u') : ¬ Agree u u' := by
  obtain ⟨v, rfl, hv, hcore, hhosts⟩ :=
    stages_of_bare (arguments_eq_pairs hr hnone) hr.resources hw.amounts hne hbare hrun
  have hpassed : addPairs (w.settings t.deps) [] = passed w t.deps [] := by
    rw [passed, remaining_of_values fun _ _ => rfl]
  rw [hpassed] at hv
  have hrtype : v.rtype = none := (eq_of_core hcore Task.rtype fun _ => rfl).trans hr.rtype
  have hargs := he.arguments
  rw [storedArguments_finalizeType hrtype hv] at hargs
  have hkeys : ∀ kv ∈ storedPairs v.type (passed w t.deps []), '=' ∉ kv.1 :=
    fun kv hkv => fst_of_mem_passed (fun kv h => absurd h List.not_mem_nil) (mem_of_mem_storedPairs hkv)
  obtain ⟨cs, hcs, hpairs⟩ := arguments_again hkeys hargs hr₂.arguments
  have hmap := keys_of_forall₂ hpairs
  have hleft := left_ne_nil_of_cwd hw hmap
    fun key hkey => values_storedPairs_ne (ne_command_of_mem_settingKeys hkey) _ _
  obtain ⟨-, rfl⟩ := (stages_eq_ok_iff hcs hr₂.resources hw.amounts (.inr hleft)).mp hrun₂
  have hvalues : values Resource.nhost.key cs = [] := by
    rw [values_eq_of_keys hmap, values_storedPairs_ne (by decide), values_passed_resource,
      if_neg (show Resource.nhost.amount w ≠ 0 from hne)]
    rfl
  have hshare : share w cs .nhost = w.nhosts := share_of_values_eq_nil hvalues
  intro hagree
  have hnhosts := hagree.nhosts
  rw [handDown, finalizeType_eq (by exact hr₂.rtype) rfl, finalizeType_eq hrtype hv] at hnhosts
  change share w cs .nhost = v.nhosts at hnhosts
  rw [hshare, hhosts] at hnhosts
  exact hne hnhosts

/-- One task: its entry, once it has been stored, loads into the same task exactly if all of it is preserved. -/
theorem LoadedFrom.reloads_iff (hl : LoadedFrom srv j w) (hn : ∀ u ∈ w.tasks, none ∉ u.arguments)
    (hr : Reads srv j i e t) (hrun : runStages (stages w) t = .ok u) (hnone : none ∉ t.arguments)
    (hstore : store w none = .ok r) (he : IsEntry w i u e') :
    (∃ t₂ u', Reads srv r i e' t₂ ∧ runStages (stages w) t₂ = .ok u' ∧ Agree u u') ↔ Preserved j i e := by
  have hargs := arguments_eq_pairs hr hnone
  rw [hl.preserved_iff hn hr hnone]
  by_cases hne : w.nhosts = 0 ∨ left .ncores w.ncores (pairs e) ≠ []
  · obtain ⟨hshare, rfl⟩ := (stages_eq_ok_iff hargs hr.resources hl.normal.amounts hne).mp hrun
    have hkeys : ∀ kv ∈ pairs e, '=' ∉ kv.1 := by
      intro kv hkv
      obtain ⟨a, -, ha⟩ := List.mem_filterMap.mp hkv
      obtain ⟨s, -, hcut⟩ := Option.bind_eq_some_iff.mp ha
      exact (eq_of_cutAt hcut).2
    apply (again_iff hl.headerOf hr hkeys hshare hstore he).trans
    exact ⟨fun h => ⟨h, fun h0 => hne.resolve_left h0⟩, And.left⟩
  · push Not at hne
    refine iff_of_false ?_ fun h => h.2 hne.1 hne.2
    rintro ⟨t₂, u', hr₂, hrun₂, hagree⟩
    exact not_agree_of_bare hl.normal hr hnone hne.1 hne.2 hrun he hr₂ hrun₂ hagree

theorem carried_validUtf8 : Carried (validUtf8 · = true) := by
  constructor
  · exact fun s hs => validUtf8_of_plain hs
  · exact fun k v h => validUtf8_of_append_cons (by decide) h

theorem validUtf8_of_comes {s : List Char} (h : Comes (validUtf8 · = true) s) : validUtf8 s = true := by
  rcases h with h | ⟨key, hkey, v, hv, rfl⟩
  · exact h
  · have hkeys : ∀ key ∈ settingKeys, (key ++ ['=']).all (fun c => decide (c.toNat ≤ 0x7F)) = true := by decide
    have hascii := List.all_eq_true.mp (hkeys key hkey)
    rw [List.append_cons, validUtf8_append_of_ascii fun c hc => of_decide_eq_true (hascii c hc)]
    exact hv

theorem LoadedFrom.storeTask_isSome (hl : LoadedFrom srv j w) (hs : Sound j) (hn : ∀ u ∈ w.tasks, none ∉ u.arguments)
    (hu : u ∈ w.tasks) (hr : Reads srv j i e t) (hrun : runStages (stages w) t = .ok u) (hnone : none ∉ t.arguments)
    (hp : Preserved j i e) : (storeTask w none i u).isSome := by
  have hvalid : Texts (validUtf8 · = true) j := Texts.imp (fun s hs => (Bool.and_eq_true_iff.mp hs).1) hs
  have htexts := hl.textsOf carried_validUtf8 hvalid hu (hn u hu)
  obtain ⟨hlossless, hhosts⟩ := (hl.preserved_iff hn hr hnone).mp hp
  have hargs : ∀ a ∈ storedArguments u, (argumentText a).isSome := by
    intro a ha
    have hne : w.nhosts = 0 ∨ left .ncores w.ncores (pairs e) ≠ [] := or_iff_not_imp_left.mpr hhosts
    obtain ⟨-, hdown⟩ :=
      (stages_eq_ok_iff (arguments_eq_pairs hr hnone) hr.resources hl.normal.amounts hne).mp hrun
    have hstored : storedArguments u = (storedPairs t.type (passed w t.deps (pairs e))).map some := by
      rw [hdown]
      exact storedArguments_finalizeType hr.rtype rfl
    rw [hstored] at ha
    obtain ⟨kv, hkv, rfl⟩ := List.mem_map.mp ha
    have hkv' : some kv ∈ storedArguments u := hstored ▸ List.mem_map_of_mem hkv
    rw [argumentText_isSome_iff]
    refine ⟨kv, rfl, ?_⟩
    rw [printed_of_short (hlossless.short kv (mem_of_mem_storedPairs hkv))]
    exact validUtf8_of_comes (htexts.arguments kv hkv')
  have hdeps : (storeDeps w none i u).isSome :=
    storeDeps_isSome_iff.mpr fun d hd _ => htexts.deps d hd
  have hall := List.forall_mem_append.mp htexts.texts
  obtain ⟨ms, hms⟩ := Option.isSome_iff_exists.mp ((@addAllToJson_isSome_iff [] _).mpr hall.1)
  obtain ⟨args, hargs⟩ := Option.isSome_iff_exists.mp (mapM_isSome_iff.mpr hargs)
  obtain ⟨ms', hms'⟩ := Option.isSome_iff_exists.mp ((@addAllToJson_isSome_iff ms _).mpr hall.2)
  obtain ⟨deps, hdeps⟩ := Option.isSome_iff_exists.mp hdeps
  exact Option.isSome_of_eq_some
    (storeTask_eq_some_iff.mpr ⟨ms, args, ms', deps, none, hms, hargs, hms', hdeps, rfl, rfl⟩)

theorem LoadedFrom.none_not_mem (hl : LoadedFrom srv j w)
    (h : ∀ p ∈ (itemsOf j "tasks").zipIdx, ∀ a ∈ itemsOf p.1 "arguments", a.text?.isSome) :
    ∀ u ∈ w.tasks, none ∉ u.arguments := by
  intro u hu
  obtain ⟨p, hp, t, hr, hrun⟩ := exists_of_forall₂_of_mem hl.entries.flip hu
  have hargs := arguments_eq_pairs hr ((texts_iff hr).mpr (h p hp))
  obtain ⟨v, bs, rfl, hv, hcore, -⟩ := exists_of_stages hl.normal hargs hr.resources hrun
  have hrtype : v.rtype = none := (eq_of_core hcore Task.rtype fun _ => rfl).trans hr.rtype
  rw [finalizeType_eq hrtype hv]
  exact fun hmem => by simp at hmem

theorem LoadedFrom.exists_store (hl : LoadedFrom srv j w) (hs : Sound j) (h : Reloadable j) :
    ∃ r, store w none = .ok r := by
  have hvalid : Texts (validUtf8 · = true) j := Texts.imp (fun s hs => (Bool.and_eq_true_iff.mp hs).1) hs
  have hn := hl.none_not_mem fun p hp => (h.entries p hp).texts
  have hheader : (addAllToJson [] (headerTexts w none)).isSome := by
    rw [addAllToJson_isSome_iff]
    intro kv hkv s hs
    rcases List.mem_cons.mp hkv with rfl | hkv
    · cases hs
      rw [Option.elim_none, List.append_nil]
      exact h.name _ hl.heads.name
    · exact (texts_of_heads carried_validUtf8 hvalid hl.heads).2 kv hkv s hs
  obtain ⟨ms, hms⟩ := Option.isSome_iff_exists.mp hheader
  obtain ⟨hlen, hentries⟩ := forall₂_zipIdx_iff.mp hl.entries
  have hall : ∀ p ∈ w.tasks.zipIdx, ∃ e, storeTask w none p.2 p.1 = some e := by
    rintro ⟨u, i⟩ hp
    have hu : w.tasks[i]? = some u := List.mem_zipIdx_iff_getElem?.mp hp
    obtain ⟨hi, -⟩ := List.getElem?_eq_some_iff.mp hu
    have he : (itemsOf j "tasks")[i]? = some _ := List.getElem?_eq_getElem (hlen ▸ hi)
    obtain ⟨t, hr, hrun⟩ := hentries i _ u he hu
    have hpreserved := h.entries (_, i) (List.mem_zipIdx_iff_getElem?.mpr he)
    exact Option.isSome_iff_exists.mp (hl.storeTask_isSome hs hn (List.mem_of_getElem? hu) hr hrun
      ((texts_iff hr).mpr hpreserved.texts) hpreserved)
  obtain ⟨es, hes⟩ := exists_forall₂ hall
  have hne : es ≠ [] := by
    rintro rfl
    rw [List.forall₂_nil_right_iff, List.zipIdx_eq_nil_iff] at hes
    rw [hes] at hlen
    exact hl.tasks (List.eq_nil_of_length_eq_zero hlen)
  exact ⟨_, store_none_eq_ok_iff.mpr ⟨ms, es, hms, hes, hne, rfl⟩⟩

/-- The stored request, once parsed, against the tasks of the workflow. -/
theorem LoadedFrom.loadJson_iff (hl : LoadedFrom srv j w) (hstore : store w none = .ok r) :
    (∃ w', loadJson srv r = .ok w' ∧ List.Forall₂ Agree w.tasks w'.tasks) ↔
      ∀ p ∈ (itemsOf j "tasks").zipIdx, Preserved j p.2 p.1 := by
  have hn : ∀ u ∈ w.tasks, none ∉ u.arguments := fun u hu => none_not_mem_of_store hstore hu
  obtain ⟨h, hh, hstages⟩ := @readHeader_of_store w r srv hl.normal hstore
  obtain ⟨es, hget, hne, hes⟩ := itemsOf_of_store hstore
  have hitems : itemsOf r "tasks" = es := items_of_get? hget
  obtain ⟨hlen, hentries⟩ := forall₂_zipIdx_iff.mp hl.entries
  obtain ⟨hlen', hes⟩ := forall₂_zipIdx_iff.mp hes
  have hreloads (i : Nat) (e e' : Json) (u : Task) (he : (itemsOf j "tasks")[i]? = some e) (hu : w.tasks[i]? = some u)
      (he' : es[i]? = some e') :
      (∃ t₂ u', Reads srv r i e' t₂ ∧ runStages (stages w) t₂ = .ok u' ∧ Agree u u') ↔ Preserved j i e := by
    obtain ⟨t, hr, hrun⟩ := hentries i e u he hu
    have hnone : none ∉ t.arguments := fun h => hn u (List.mem_of_getElem? hu) (none_mem_of_runStages hrun h)
    exact hl.reloads_iff hn hr hrun hnone hstore (isEntry_of_storeTask (hes i u e' hu he'))
  constructor
  · rintro ⟨w', hw', hagree⟩ ⟨e, i⟩ hp
    have he : (itemsOf j "tasks")[i]? = some e := List.mem_zipIdx_iff_getElem?.mp hp
    obtain ⟨hi, -⟩ := List.getElem?_eq_some_iff.mp he
    have hu : w.tasks[i]? = some _ := List.getElem?_eq_getElem (hlen ▸ hi)
    have he' : es[i]? = some _ := List.getElem?_eq_getElem (hlen' ▸ hlen ▸ hi)
    obtain ⟨h₂, hh₂, -, hentries₂, -⟩ := loadJson_eq_ok_iff.mp hw'
    cases hh.symm.trans hh₂
    rw [hitems, hstages] at hentries₂
    obtain ⟨hlen₂, hentries₂⟩ := forall₂_zipIdx_iff.mp hentries₂
    have hu' : w'.tasks[i]? = some _ := List.getElem?_eq_getElem (hlen₂ ▸ hlen' ▸ hlen ▸ hi)
    obtain ⟨t₂, hr₂, hrun₂⟩ := hentries₂ i _ _ he' hu'
    have hag := (List.forall₂_iff_get.mp hagree).2 i (hlen ▸ hi) (hlen₂ ▸ hlen' ▸ hlen ▸ hi)
    exact (hreloads i e _ _ he hu he').mp ⟨t₂, _, hr₂, hrun₂, hag⟩
  · intro hall
    have hagain : ∀ p ∈ es.zipIdx, ∃ u', (∃ t₂, Reads srv r p.2 p.1 t₂ ∧ runStages (stages w) t₂ = .ok u') ∧
        ∀ u ∈ w.tasks[p.2]?, Agree u u' := by
      rintro ⟨e', i⟩ hp
      have he' : es[i]? = some e' := List.mem_zipIdx_iff_getElem?.mp hp
      obtain ⟨hi, -⟩ := List.getElem?_eq_some_iff.mp he'
      have hu : w.tasks[i]? = some _ := List.getElem?_eq_getElem (hlen' ▸ hi)
      have he : (itemsOf j "tasks")[i]? = some _ := List.getElem?_eq_getElem (hlen ▸ hlen' ▸ hi)
      obtain ⟨t₂, u', hr₂, hrun₂, hag⟩ :=
        (hreloads i _ e' _ he hu he').mpr (hall (_, i) (List.mem_zipIdx_iff_getElem?.mpr he))
      refine ⟨u', ⟨t₂, hr₂, hrun₂⟩, fun u hu₂ => ?_⟩
      cases hu.symm.trans hu₂
      exact hag
    obtain ⟨us, hus⟩ := exists_forall₂ hagain
    refine ⟨{ h with tasks := us }, loadJson_eq_ok_iff.mpr ⟨h, hh, ?_, ?_, rfl⟩, ?_⟩
    · rw [hitems]
      exact hne
    · rw [hitems, hstages]
      exact hus.imp fun p u' hp => hp.1
    · obtain ⟨hlen₂, hus⟩ := forall₂_zipIdx_iff.mp hus
      rw [List.forall₂_iff_get]
      refine ⟨hlen'.trans hlen₂, fun i hi hi₂ => ?_⟩
      exact (hus i _ _ (List.getElem?_eq_getElem (hlen' ▸ hi)) (List.getElem?_eq_getElem hi₂)).2 _
        (List.getElem?_eq_getElem hi)

theorem LoadedFrom.roundTrips_iff [Jansson] (hl : LoadedFrom srv j w) (hs : Sound j) (hsurvives : Survives w) :
    RoundTrips srv w ↔ Reloadable j := by
  constructor
  · rintro ⟨r, w', hstore, hw', hagree⟩
    rw [hl.load_dumps hs hsurvives hstore] at hw'
    refine ⟨?_, (hl.loadJson_iff hstore).mp ⟨w', hw', hagree⟩⟩
    obtain ⟨ms, es, hms, -⟩ := store_none_eq_ok_iff.mp hstore
    intro name hname
    cases hl.heads.name.symm.trans hname
    have hvalid := addAllToJson_isSome_iff.mp (Option.isSome_of_eq_some hms) _ List.mem_cons_self _ rfl
    rwa [Option.elim_none, List.append_nil] at hvalid
  · intro h
    obtain ⟨r, hstore⟩ := hl.exists_store hs h
    obtain ⟨w', hw', hagree⟩ := (hl.loadJson_iff hstore).mpr h.entries
    exact ⟨r, w', hstore, (hl.load_dumps hs hsurvives hstore).trans hw', hagree⟩

theorem load_of_request [Jansson] {s : List Char} (h : request s = some j) : load srv s = loadJson srv j ∧ Sound j := by
  obtain ⟨text, htext, hloads⟩ := Option.bind_eq_some_iff.mp h
  refine ⟨?_, Jansson.sound_of_loads hloads⟩
  unfold load
  rw [htext]
  dsimp only
  rw [hloads]

end Reloaded

section Samples

theorem request_dumps {ms : List (String × Json)} (hs : Sound (object ms)) (h : Undisturbed false (literals (object ms))) :
    request (dumps (object ms)) = some (object ms) := by
  unfold request
  rw [(skipComments_dumps_iff (.object ms)).mpr h, Option.bind_some]
  exact parse_print hs (.object ms)

/-- A task that asks for as many cores as the workflow. -/
def listTask : Json :=
  .object [("name", .string "A".toList), ("operator", .string "oph_list".toList),
    ("arguments", .array [.string "level=1".toList, .string "ncores=2".toList])]

/-- A command that waits for it. -/
def shellTask : Json :=
  .object [("name", .string "B".toList), ("operator", .string "ls".toList), ("type", .string "generic".toList),
    ("dependencies", .array [.object [("task", .string "A".toList)]])]

def chained : List (String × Json) :=
  [("name", .string "w".toList), ("ncores", .string "2".toList), ("tasks", .array [listTask, shellTask])]

def unsaved : List (String × Json) :=
  [("name", .string "w".toList), ("tasks", .array [.object [("name", .string "A".toList),
    ("operator", .string "oph_list".toList), ("save", .string "no".toList)]])]

theorem sound_chained : Sound (object chained) := by
  have hend {P : String × Json → Prop} :
      ∀ m ∈ ([] : List (String × Json)), P m := fun m hm => absurd hm List.not_mem_nil
  have hend' {P : Json → Prop} : ∀ m ∈ ([] : List Json), P m := fun m hm => absurd hm List.not_mem_nil
  refine .object (by decide +kernel) ?_
  unfold chained
  simp only [List.forall_mem_cons]
  refine ⟨.string (by decide +kernel), .string (by decide +kernel), .array ?_, hend⟩
  simp only [List.forall_mem_cons]
  refine ⟨.object (by decide +kernel) ?_, .object (by decide +kernel) ?_, hend'⟩
  · simp only [List.forall_mem_cons]
    refine ⟨.string (by decide +kernel), .string (by decide +kernel), .array ?_, hend⟩
    simp only [List.forall_mem_cons]
    exact ⟨.string (by decide +kernel), .string (by decide +kernel), hend'⟩
  · simp only [List.forall_mem_cons]
    refine ⟨.string (by decide +kernel), .string (by decide +kernel), .string (by decide +kernel), .array ?_, hend⟩
    simp only [List.forall_mem_cons]
    refine ⟨.object (by decide +kernel) ?_, hend'⟩
    simp only [List.forall_mem_cons]
    exact ⟨.string (by decide +kernel), hend⟩

theorem reloadable_chained : Reloadable (object chained) := by
  constructor
  · decide +kernel
  · have hitems : (itemsOf (object chained) "tasks").zipIdx = [(listTask, 0), (shellTask, 1)] := by rfl
    rw [hitems]
    simp only [List.forall_mem_cons]
    refine ⟨?_, ?_, fun p hp => absurd hp List.not_mem_nil⟩
    · constructor
      · decide +kernel
      · intro r
        cases r <;> decide +kernel
      · decide +kernel
      · decide +kernel
      · exact fun kv hkv => .inl (by revert kv; decide +kernel)
      · decide +kernel
      · have hdeps : itemsOf listTask "dependencies" = [] := by rfl
        rw [hdeps]
        exact fun d hd => absurd hd List.not_mem_nil
      · decide +kernel
      · decide +kernel
      · decide +kernel
    · constructor
      · decide +kernel
      · intro r
        cases r <;> decide +kernel
      · decide +kernel
      · decide +kernel
      · exact fun kv hkv => .inl (by revert kv; decide +kernel)
      · decide +kernel
      · intro d hd
        cases List.mem_singleton.mp hd
        exact ⟨"A".toList, 0, by decide +kernel⟩
      · decide +kernel
      · decide +kernel
      · decide +kernel

end Samples

end OphidiaWorkflow.Request
