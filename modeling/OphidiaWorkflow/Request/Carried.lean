import OphidiaWorkflow.Request.RoundTrip

/-!
Where the texts come from that `oph_workflow_store` writes for a workflow: from the request that has been loaded, but
for plain words.
-/
namespace OphidiaWorkflow.Request

open Json Lib

/-- The characters of the words that the loader and `oph_workflow_store` add. -/
def isPlain (c : Char) : Bool := c.isAlphanum || c ∈ ['-', '_', '/']

/-- A property of the texts of a request that the texts of the workflow have as well. -/
structure Carried (P : List Char → Prop) : Prop where
  plain : ∀ s : List Char, s.all isPlain = true → P s
  value : ∀ k v : List Char, P (k ++ '=' :: v) → P v

/-- A text of the request, or a setting as an argument. -/
def Comes (P : List Char → Prop) (s : List Char) : Prop :=
  P s ∨ ∃ key ∈ settingKeys, ∃ v, P v ∧ s = key ++ '=' :: v

section Texts

variable {P : List Char → Prop} {srv : Server} {j e o : Json} {i : Nat} {w h : Workflow} {t u : Task} {k : String}
  {s : List Char} {keys : List String}

theorem texts_unpack (ho : Texts P o) (h : o.unpack keys k = some s) : P s := by
  unfold unpack at h
  split at h
  · exact ho.getText? h
  · cases h

theorem texts_itemsOf (ho : Texts P o) (h : e ∈ itemsOf o k) : Texts P e := by
  unfold itemsOf at h
  cases hk : o.get? k with
  | none =>
    rw [hk] at h
    cases h
  | some a =>
    rw [hk] at h
    exact (ho.get? hk).items h

theorem of_nonempty {a : Option (List Char)} (ha : ∀ s ∈ a, P s) : ∀ s ∈ nonempty a, P s :=
  fun s hs => ha s (nonempty_eq_some_iff.mp hs).1

theorem all_isPlain_decimal (n : Int) : (decimal n).all isPlain = true := by
  rw [List.all_eq_true]
  intro c hc
  unfold isPlain
  rcases isDigit_or_of_mem_decimal hc with hd | rfl
  · rw [Char.isAlphanum, hd, Bool.or_true, Bool.true_or]
  · rfl

/-- The settings of the workflow, against the request. -/
structure Heads (j : Json) (h : Workflow) : Prop where
  name : global j "name" = some h.name
  author : h.author = nonempty (global j "author")
  abstract : h.abstract = nonempty (global j "abstract")
  url : h.url = nonempty (global j "url")
  sessionid : h.sessionid = nonempty (global j "sessionid")
  execMode : h.execMode = nonempty (global j "exec_mode")
  ncores : h.ncores = (global j "ncores").elim 0 readInt
  nhosts : h.nhosts = (global j "nhost").elim 0 readInt
  nthreads : h.nthreads = (global j "nthreads").elim 0 readInt
  project : h.project = nonempty (global j "project")
  onError : h.onError = nonempty (global j "on_error")
  onExit : h.onExit = nonempty (global j "on_exit")
  run : readFlag (global j "run") = .ok h.run
  checkpoint : h.checkpoint = nonempty (global j "checkpoint")
  cwd : h.cwd = some ((nonempty (global j "cwd")).getD rootFolder)
  cdd : h.cdd = some ((nonempty (global j "cdd")).getD rootFolder)
  cube : h.cube = nonempty (global j "cube")
  callbackUrl : h.callbackUrl = nonempty (global j "callback_url")
  command : h.command = nonempty (global j "command")
  hostPartition : h.hostPartition = nonempty (global j "host_partition")
  hostPartitionOrig : h.hostPartitionOrig = none

theorem heads_of_readHeader (hh : readHeader srv j = .ok h) : Heads j h := by
  unfold readHeader at hh
  obtain ⟨name, hname, hh⟩ := bind_eq_ok_iff.mp hh
  obtain ⟨checkpoint, hcheckpoint, hh⟩ := bind_eq_ok_iff.mp hh
  obtain ⟨run, hrun, hh⟩ := bind_eq_ok_iff.mp hh
  obtain ⟨save, -, hh⟩ := bind_eq_ok_iff.mp hh
  obtain ⟨outputFormat, -, hh⟩ := bind_eq_ok_iff.mp hh
  obtain ⟨directOutput, -, hh⟩ := bind_eq_ok_iff.mp hh
  cases hh
  constructor
  case name => exact required_eq_ok_iff.mp hname
  case run => exact hrun
  case checkpoint => exact (readCheckpoint_eq_ok_iff.mp hcheckpoint).1.symm
  all_goals rfl

theorem texts_of_heads (hP : Carried P) (hj : Texts P j) (hh : Heads j h) :
    P h.name ∧ ∀ kv ∈ (headerTexts h none).tail, ∀ s ∈ kv.2, P s := by
  have hg (k : String) : ∀ s ∈ global j k, P s := fun s hs => texts_unpack hj hs
  have hn (k : String) : ∀ s ∈ nonempty (global j k), P s := of_nonempty (hg k)
  have hroot : P rootFolder := hP.plain _ (by decide)
  have hd (k : String) : P ((nonempty (global j k)).getD rootFolder) := by
    cases hk : nonempty (global j k) with
    | none => exact hroot
    | some s => exact hn k s hk
  refine ⟨hg _ _ hh.name, ?_⟩
  unfold headerTexts
  simp only [List.tail_cons, List.forall_mem_cons]
  refine ⟨?_, ?_, ?_, ?_, ?_, ?_, ?_, ?_, ?_, ?_, ?_, ?_, ?_, ?_, ?_, ?_, ?_, ?_, ?_, ?_⟩
  · rw [hh.author]; exact hn _
  · rw [hh.abstract]; exact hn _
  · rw [hh.url]; exact hn _
  · rw [hh.sessionid]; exact hn _
  · rw [hh.execMode]; exact hn _
  · rintro _ ⟨⟩
    exact hP.plain _ (all_isPlain_decimal _)
  · rintro _ ⟨⟩
    exact hP.plain _ (all_isPlain_decimal _)
  · rintro _ ⟨⟩
    exact hP.plain _ (all_isPlain_decimal _)
  · rw [hh.project]; exact hn _
  · rw [hh.onError]; exact hn _
  · rw [hh.onExit]; exact hn _
  · split
    · exact fun s hs => absurd hs (Option.not_mem_none s)
    · rintro _ ⟨⟩
      exact hP.plain _ (by decide)
  · rw [hh.checkpoint]; exact hn _
  · rw [hh.cwd]
    rintro _ ⟨⟩
    exact hd _
  · rw [hh.cdd]
    rintro _ ⟨⟩
    exact hd _
  · rw [hh.cube]; exact hn _
  · rw [hh.callbackUrl]; exact hn _
  · rw [hh.command]; exact hn _
  · rw [hh.hostPartitionOrig, hh.hostPartition]; exact hn _
  · exact fun kv hkv => absurd hkv List.not_mem_nil

theorem texts_settings (hP : Carried P) (hj : Texts P j) (hh : Heads j h) {ds : List Dep} {kv : List Char × List Char}
    (hkv : kv ∈ h.settings ds) : P kv.2 := by
  have hn (k : String) : ∀ s ∈ nonempty (global j k), P s := of_nonempty fun s hs => texts_unpack hj hs
  have hd (k : String) : P ((nonempty (global j k)).getD rootFolder) := by
    cases hk : nonempty (global j k) with
    | none => exact hP.plain _ (by decide)
    | some s => exact hn k s hk
  have hsome (key : List Char) (a : Option (List Char)) (ha : ∀ s ∈ a, P s)
      (hm : kv ∈ (a.map fun v => (key, v)).toList) : P kv.2 := by
    obtain ⟨v, hv, rfl⟩ := Option.map_eq_some_iff.mp (Option.mem_toList.mp hm)
    exact ha v hv
  unfold Workflow.settings at hkv
  rw [hh.project, hh.cwd, hh.cdd, hh.cube] at hkv
  rcases List.mem_append.mp hkv with hkv | hkv
  · rcases List.mem_append.mp hkv with hkv | hkv
    · rcases List.mem_append.mp hkv with hkv | hkv
      · exact hsome _ _ (hn _) hkv
      · refine hsome _ _ ?_ hkv
        rintro _ ⟨⟩
        exact hd _
    · refine hsome _ _ ?_ hkv
      rintro _ ⟨⟩
      exact hd _
  · split at hkv
    · exact hsome _ _ (hn _) hkv
    · cases hkv

theorem texts_of_readDep (hP : Carried P) {auto : Nat} {d : Dep} (ho : Texts P o) (h : readDep auto o = .ok d) :
    ∀ kv ∈ depTexts d, ∀ s ∈ kv.2, P s := by
  have hg (k : String) (c : List Char) (hc : P c) : P ((o.unpack depKeys k).getD c) := by
    cases hk : o.unpack depKeys k with
    | none => exact hc
    | some s => exact texts_unpack ho hk
  obtain ⟨name, hname, h⟩ := bind_eq_ok_iff.mp h
  obtain ⟨type, -, h⟩ := bind_eq_ok_iff.mp h
  cases h
  unfold depTexts
  simp only [List.forall_mem_cons, Option.mem_some_iff, forall_eq']
  refine ⟨?_, ?_, ?_, ?_, ?_, ?_, ?_, ?_⟩
  · exact hg _ _ (hP.plain _ (by decide))
  · exact hg _ _ (hP.plain _ (all_isPlain_decimal auto))
  · exact texts_unpack ho (required_eq_ok_iff.mp hname)
  · apply hP.plain
    cases type <;> decide
  · exact hg _ _ (hP.plain _ (by decide))
  · exact hg _ _ (hP.plain _ (by decide))
  · exact hg _ _ (hP.plain _ (by decide))
  · exact fun kv hkv => absurd hkv List.not_mem_nil

theorem texts_of_readDeps (hP : Carried P) {auto : Nat} {js : List Json} {ds : List Dep} (hj : ∀ j ∈ js, Texts P j)
    (h : readDeps auto js = .ok ds) : ∀ d ∈ ds, ∀ kv ∈ depTexts d, ∀ s ∈ kv.2, P s := by
  induction js generalizing auto ds with
  | nil =>
    cases h
    exact fun d hd => absurd hd List.not_mem_nil
  | cons j js ih =>
    obtain ⟨d, hd, h⟩ := bind_eq_ok_iff.mp h
    obtain ⟨ds, hds, h⟩ := bind_eq_ok_iff.mp h
    cases h
    rw [List.forall_mem_cons] at hj ⊢
    exact ⟨texts_of_readDep hP hj.1 hd, ih hj.2 hds⟩

theorem own_of_readTaskCheckpoint {g a c : Option (List Char)} (h : readTaskCheckpoint g a = .ok c) :
    ∀ s ∈ c, a = some s := by
  unfold readTaskCheckpoint at h
  obtain ⟨d, hd, h⟩ := bind_eq_ok_iff.mp h
  rintro s ⟨⟩
  cases d with
  | some d =>
    cases h
    exact (nonempty_eq_some_iff.mp (readCheckpoint_eq_ok_iff.mp hd).1).1
  | none =>
    dsimp only at h
    split at h
    · cases a with
      | none => cases h
      | some c =>
        cases h
        rfl
    · cases h

theorem texts_of_readArgument {as : Arguments} {js : List Json} (hj : ∀ j ∈ js, Texts P j)
    (h : List.Forall₂ (fun j a => readArgument j = .ok a) js as) :
    ∀ kv : List Char × List Char, some kv ∈ as → P (kv.1 ++ '=' :: kv.2) := by
  induction h with
  | nil => exact fun kv hkv => absurd hkv List.not_mem_nil
  | @cons j a js as ha _ ih =>
    rw [List.forall_mem_cons] at hj
    intro kv hkv
    rcases List.mem_cons.mp hkv with rfl | hkv
    · unfold readArgument at ha
      split at ha
      · cases ha
      · next s hs =>
        cases hcut : cutAt '=' s with
        | none =>
          rw [hcut] at ha
          cases ha
        | some kv' =>
          rw [hcut] at ha
          cases ha
          rw [← (eq_of_cutAt hcut).1]
          exact hj.1.text? hs
    · exact ih hj.2 kv hkv

/-- The texts that are written for a task. -/
structure TextsOf (P : List Char → Prop) (u : Task) : Prop where
  texts : ∀ kv ∈ taskTexts u ++ commandTexts u, ∀ s ∈ kv.2, P s
  arguments : ∀ kv : List Char × List Char, some kv ∈ storedArguments u → Comes P (kv.1 ++ '=' :: kv.2)
  deps : ∀ d ∈ u.deps, ∀ kv ∈ depTexts d, ∀ s ∈ kv.2, P s

theorem drop_wrapped (h : u.type.wraps = false) :
    (wrapped u).drop (if (finalizedType u).isSome then 4 else 0) = u.operator := by
  unfold wrapped finalizedType
  cases htype : u.type with
  | ophidia => rfl
  | control => rfl
  | cdo =>
    rw [htype] at h
    cases h
  | generic =>
    rw [htype] at h
    cases h

theorem textsOf_finalizeType (hP : Carried P) {bs : Pairs} (hr : u.rtype = none) (hu : u.arguments = bs.map some)
    (hname : P u.name) (hoperator : P u.operator) (hgiven : ∀ a ∈ [u.onError, u.onExit, u.checkpoint], ∀ s ∈ a, P s)
    (hbs : ∀ kv ∈ bs, Comes P (kv.1 ++ '=' :: kv.2)) (hds : ∀ d ∈ u.deps, ∀ kv ∈ depTexts d, ∀ s ∈ kv.2, P s) :
    TextsOf P (finalizeType u) := by
  have hf := finalizeType_eq hr hu
  have herase := eraseCommand_finalizeType hr hu
  have hrtype : (finalizeType u).rtype = finalizedType u := congrArg Task.rtype hf
  have hop : (finalizeType u).operator = wrapped u := congrArg Task.operator hf
  constructor
  · rw [List.forall_mem_append]
    constructor
    · unfold taskTexts
      rw [herase, hrtype, hop]
      simp only [List.forall_mem_cons] at hgiven ⊢
      refine ⟨?_, ?_, ?_, ?_, ?_, ?_, ?_, ?_⟩
      · rintro _ ⟨⟩
        rw [hf]
        exact hname
      · rintro _ ⟨⟩
        apply hP.plain
        cases (finalizedType u).getD (finalizeType u).type <;> decide
      · split
        · exact fun s hs => absurd hs (Option.not_mem_none s)
        · next hw =>
          rintro _ ⟨⟩
          rw [drop_wrapped (Bool.eq_false_iff.mpr hw)]
          exact hoperator
      · rw [hf]
        exact hgiven.1
      · rw [hf]
        exact hgiven.2.1
      · split
        · exact fun s hs => absurd hs (Option.not_mem_none s)
        · rintro _ ⟨⟩
          exact hP.plain _ (by decide)
      · rw [hf]
        exact hgiven.2.2.1
      · exact fun kv hkv => absurd hkv List.not_mem_nil
    · intro kv hkv
      unfold commandTexts at hkv
      rw [herase, hf] at hkv
      split at hkv
      · next hw =>
        obtain ⟨a, ha, rfl⟩ := List.mem_map.mp hkv
        obtain ⟨ha, hcommand⟩ := List.mem_filter.mp ha
        obtain ⟨kv', hkv', rfl⟩ := List.mem_map.mp ha
        rintro _ ⟨⟩
        have hkey : kv'.1 = "command".toList := of_decide_eq_true hcommand
        have hkeys : ∀ key ∈ settingKeys, '=' ∉ key := by decide
        rcases List.mem_append.mp hkv' with hkv' | hkv'
        · rcases hbs kv' hkv' with hs | ⟨key, hkey', v, hv, hs⟩
          · exact hP.value _ _ hs
          · have hcut := congrArg (cutAt '=') hs
            rw [hkey, cutAt_append_cons _ (by decide), cutAt_append_cons _ (hkeys key hkey')] at hcut
            cases hcut
            exact hv
        · rw [commandPair, if_pos hw] at hkv'
          cases List.mem_singleton.mp hkv'
          exact hoperator
      · cases hkv
  · intro kv hkv
    rw [storedArguments_finalizeType hr hu] at hkv
    obtain ⟨kv', hkv', ⟨⟩⟩ := List.mem_map.mp hkv
    exact hbs kv (mem_of_mem_storedPairs hkv')
  · rw [hf]
    exact hds

theorem eq_of_core {α : Type} (h : u.core = t.core) (f : Task → α) (hf : ∀ t, f t.core = f t) : f u = f t := by
  rw [← hf u, h, hf]

/-- A task after the stages, whether or not a number of hosts went astray. -/
theorem exists_of_stages {as : Pairs} (hw : Normal w) (ht : t.arguments = as.map some)
    (h0 : ∀ r : Resource, r.get t = 0)
    (h : runStages (stages w) t = .ok u) :
    ∃ v bs, u = finalizeType v ∧ v.arguments = List.map some bs ∧ v.core = t.core ∧
      ∀ kv ∈ bs, kv ∈ as ∨ kv ∈ w.settings t.deps := by
  by_cases hne : w.nhosts = 0 ∨ left .ncores w.ncores as ≠ []
  · obtain ⟨-, rfl⟩ := (stages_eq_ok_iff ht h0 hw.amounts hne).mp h
    refine ⟨beforeType w as t, passed w t.deps as, rfl, rfl, rfl, fun kv hkv => ?_⟩
    rcases (mem_addPairs_iff (nodup_settings w t.deps)).mp hkv with hkv | ⟨hkv, -⟩
    · exact .inl (mem_of_mem_remaining hkv)
    · exact .inr hkv
  · push Not at hne
    obtain ⟨v, rfl, hv, hcore, -⟩ := stages_of_bare ht h0 hw.amounts hne.1 hne.2 h
    refine ⟨v, _, rfl, hv, hcore, fun kv hkv => ?_⟩
    rcases (mem_addPairs_iff (nodup_settings w t.deps)).mp hkv with hkv | ⟨hkv, -⟩
    · cases hkv
    · exact .inr hkv

theorem textsOf_of_stages (hP : Carried P) (hj : Texts P j) (he : Texts P e) (hw : Normal w) (hh : Heads j w)
    {as : Pairs}
    (hr : Reads srv j i e t) (ht : t.arguments = as.map some) (h : runStages (stages w) t = .ok u) : TextsOf P u := by
  have hown (k : String) : ∀ s ∈ own e k, P s := fun s hs => texts_unpack he hs
  obtain ⟨v, bs, rfl, hbs, hcore, hfrom⟩ := exists_of_stages hw ht hr.resources h
  have hrtype : v.rtype = t.rtype := eq_of_core hcore Task.rtype fun _ => rfl
  have hname : v.name = t.name := eq_of_core hcore Task.name fun _ => rfl
  have hoperator : v.operator = t.operator := eq_of_core hcore Task.operator fun _ => rfl
  have hgiven : v.onError = t.onError ∧ v.onExit = t.onExit ∧ v.checkpoint = t.checkpoint :=
    ⟨eq_of_core hcore Task.onError fun _ => rfl, eq_of_core hcore Task.onExit fun _ => rfl, eq_of_core hcore Task.checkpoint fun _ => rfl⟩
  have hdeps : v.deps = t.deps := eq_of_core hcore Task.deps fun _ => rfl
  apply textsOf_finalizeType hP (hrtype.trans hr.rtype) hbs
  · rw [hname]
    exact hown _ _ hr.name
  · rw [hoperator]
    exact hown _ _ hr.operator
  · rw [hgiven.1, hgiven.2.1, hgiven.2.2, hr.onError, hr.onExit]
    simp only [List.forall_mem_cons]
    refine ⟨of_nonempty (hown _), of_nonempty (hown _), fun s hs => ?_, fun a ha => absurd ha List.not_mem_nil⟩
    exact hown _ _ (own_of_readTaskCheckpoint hr.checkpoint s hs)
  · intro kv hkv
    rcases hfrom kv hkv with hkv | hkv
    · left
      have hmem : some kv ∈ t.arguments := ht ▸ List.mem_map_of_mem hkv
      exact texts_of_readArgument (fun a ha => texts_itemsOf he ha) hr.arguments kv hmem
    · exact .inr ⟨kv.1, fst_mem_settingKeys hkv, kv.2, texts_settings hP hj hh hkv, rfl⟩
  · rw [hdeps]
    exact texts_of_readDeps hP (fun d hd => texts_itemsOf he hd) hr.deps

end Texts

section Written

variable {Q : List Char → Prop} {w : Workflow} {r e : Json} {i : Nat} {u : Task}

theorem texts_of_storeTask (hQ : ∀ s : List Char, s.all isPlain = true → Q s)
    (htexts : ∀ kv ∈ taskTexts u ++ commandTexts u, ∀ s ∈ kv.2, validUtf8 s = true → Q s)
    (harguments : ∀ kv : List Char × List Char, some kv ∈ storedArguments u →
      validUtf8 (printed (kv.1 ++ '=' :: kv.2)) = true → Q (printed (kv.1 ++ '=' :: kv.2)))
    (hdeps : ∀ d ∈ u.deps, ∀ kv ∈ depTexts d, ∀ s ∈ kv.2, validUtf8 s = true → Q s) (h : storeTask w none i u = some e) :
    Texts Q e := by
  obtain ⟨ms, args, ms', deps, vars, hms, hargs, hms', hds, hvars, rfl⟩ := storeTask_eq_some_iff.mp h
  cases hvars
  have hkeys : ∀ kv ∈ taskTexts u ++ commandTexts u, Q kv.1.toList := by
    rw [List.forall_mem_append]
    constructor
    · unfold taskTexts
      simp only [List.forall_mem_cons]
      exact ⟨hQ _ (by decide), hQ _ (by decide), hQ _ (by decide), hQ _ (by decide), hQ _ (by decide), hQ _ (by decide),
        hQ _ (by decide), fun kv hkv => absurd hkv List.not_mem_nil⟩
    · intro kv hkv
      rw [fst_of_mem_commandTexts hkv]
      exact hQ _ (by decide)
  have hobject : Texts Q (object ms') :=
    texts_addAllToJson (.object (by simp) (by simp)) ((addAllToJson_append hms _).trans hms') hkeys htexts
  have hargs' : ∀ a ∈ args, Texts Q a := by
    intro a ha
    obtain ⟨b, hb, hab⟩ := exists_of_forall₂_of_mem (mapM_eq_some_iff.mp hargs).flip ha
    obtain ⟨kv, rfl, hkv⟩ := Option.bind_eq_some_iff.mp hab
    obtain ⟨hv, rfl⟩ := ofText_eq_some_iff.mp hkv
    exact .string (harguments kv hb hv)
  have hwith : Texts Q (object (setMember ms' "arguments" (.array args))) :=
    texts_setMember hobject (hQ _ (by decide)) (.array hargs')
  unfold storeDeps at hds
  split at hds
  · cases hds
    exact hwith
  · obtain ⟨ds, hds', hds⟩ := Option.bind_eq_some_iff.mp hds
    cases hds
    refine texts_setMember hwith (hQ _ (by decide)) (.array fun d hd => ?_)
    obtain ⟨b, hb, hab⟩ := exists_of_forall₂_of_mem (mapM_eq_some_iff.mp hds').flip hd
    obtain ⟨ms, hms, rfl⟩ := Option.map_eq_some_iff.mp hab
    refine texts_addAllToJson (.object (by simp) (by simp)) hms ?_ (hdeps b (List.mem_of_mem_filter hb))
    unfold depTexts
    simp only [List.forall_mem_cons]
    exact ⟨hQ _ (by decide), hQ _ (by decide), hQ _ (by decide), hQ _ (by decide), hQ _ (by decide), hQ _ (by decide),
      hQ _ (by decide), fun kv hkv => absurd hkv List.not_mem_nil⟩

theorem texts_of_store (hQ : ∀ s : List Char, s.all isPlain = true → Q s)
    (hheader : ∀ kv ∈ headerTexts w none, ∀ s ∈ kv.2, validUtf8 s = true → Q s)
    (hentries : ∀ u ∈ w.tasks, ∀ i e, storeTask w none i u = some e → Texts Q e) (h : store w none = .ok r) :
    Texts Q r := by
  obtain ⟨ms, es, hms, hes, -, rfl⟩ := store_none_eq_ok_iff.mp h
  apply texts_setMember
  · refine texts_addAllToJson (.object (by simp) (by simp)) hms ?_ hheader
    unfold headerTexts
    simp only [List.forall_mem_cons]
    refine ⟨?_, ?_, ?_, ?_, ?_, ?_, ?_, ?_, ?_, ?_, ?_, ?_, ?_, ?_, ?_, ?_, ?_, ?_, ?_, ?_, ?_⟩ <;>
      first | exact hQ _ (by decide) | exact fun kv hkv => absurd hkv List.not_mem_nil
  · exact hQ _ (by decide)
  · refine .array fun e he => ?_
    obtain ⟨p, hp, hstore⟩ := exists_of_forall₂_of_mem hes.flip he
    exact hentries p.1 (List.fst_mem_of_mem_zipIdx hp) p.2 e hstore

end Written

section Nulls

variable {s : List Char}

theorem not_mem_of_plain {c : Char} (hc : isPlain c = false) (h : s.all isPlain = true) : c ∉ s := by
  intro hmem
  have hplain := List.all_eq_true.mp h c hmem
  rw [hc] at hplain
  cases hplain

/-- No text of the request has a null byte, so that none is cut off there. -/
theorem carried_not_mem_null : Carried ('\x00' ∉ ·) := by
  constructor
  · exact fun s hs => not_mem_of_plain (by decide) hs
  · intro k v h hmem
    exact h (List.mem_append_right _ (List.mem_cons_of_mem _ hmem))

theorem not_mem_printed_of_comes (h : Comes ('\x00' ∉ ·) s) : '\x00' ∉ printed s := by
  intro hmem
  have hs : '\x00' ∈ s := List.mem_of_mem_take hmem
  rcases h with h | ⟨key, hkey, v, hv, rfl⟩
  · exact h hs
  · have hkeys : ∀ key ∈ settingKeys, '\x00' ∉ key := by decide
    rcases List.mem_append.mp hs with hs | hs
    · exact hkeys key hkey hs
    · exact hv ((List.mem_cons.mp hs).resolve_left (by decide))

end Nulls

end OphidiaWorkflow.Request
