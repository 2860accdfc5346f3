import OphidiaWorkflow.Request.ReadBack

/-!
`oph_workflow_store` after `oph_workflow_load`: when the request that is written loads into the same tasks.
-/
namespace OphidiaWorkflow.Request

open Json Lib

section Pairs

variable {kv kv' : List Char × List Char} {type : TaskType} {w : Workflow} {as bs cs : Pairs} {ds : List Dep}

/-- `key=value` fits the buffer it is printed into. -/
def Short (kv : List Char × List Char) : Prop := kv.1.length + kv.2.length + 1 < maxString

instance (kv : List Char × List Char) : Decidable (Short kv) := inferInstanceAs (Decidable (_ < _))

theorem printed_of_short (h : Short kv) : printed (kv.1 ++ '=' :: kv.2) = kv.1 ++ '=' :: kv.2 := by
  apply List.take_of_length_le
  rw [List.length_append, List.length_cons]
  unfold Short at h
  omega

theorem cutAt_printed (hk : '=' ∉ kv.1) (h : Short kv) : cutAt '=' (printed (kv.1 ++ '=' :: kv.2)) = some kv := by
  rw [printed_of_short h, cutAt_append_cons _ hk]

/-- A pair that is found again has kept its key, and its value only if it fits the buffer. -/
theorem of_cutAt_printed (hk : '=' ∉ kv.1) (h : cutAt '=' (printed (kv.1 ++ '=' :: kv.2)) = some kv') :
    kv'.1 = kv.1 ∧ (kv' = kv → Short kv) := by
  obtain ⟨he, hk'⟩ := eq_of_cutAt h
  have htake : printed (kv.1 ++ '=' :: kv.2) <+: kv.1 ++ '=' :: kv.2 := List.take_prefix _ _
  rw [he] at htake
  obtain ⟨rest, hrest⟩ := htake
  rw [List.append_assoc, List.cons_append] at hrest
  have hcut : cutAt '=' (kv'.1 ++ '=' :: (kv'.2 ++ rest)) = cutAt '=' (kv.1 ++ '=' :: kv.2) := congrArg _ hrest
  rw [cutAt_append_cons _ hk', cutAt_append_cons _ hk] at hcut
  have hkey : kv'.1 = kv.1 := (Prod.mk.inj (Option.some.inj hcut)).1
  refine ⟨hkey, ?_⟩
  rintro rfl
  have hlen := congrArg List.length he
  rw [printed, List.length_take, List.length_append, List.length_cons] at hlen
  have hpos : 0 < maxString := by decide
  unfold Short
  omega

theorem length_storedPairs_le (type : TaskType) (bs : Pairs) : (storedPairs type bs).length ≤ bs.length := by
  unfold storedPairs
  split
  · exact List.length_filter_le _ _
  · exact Nat.le_refl _

theorem mem_of_mem_storedPairs (h : kv ∈ storedPairs type bs) : kv ∈ bs := by
  unfold storedPairs at h
  split at h
  · exact List.mem_of_mem_filter h
  · exact h

theorem storedPairs_of_values (h : type.wraps = true → values "command".toList bs = []) : storedPairs type bs = bs := by
  unfold storedPairs
  split
  · next hw =>
    rw [List.filter_eq_self]
    intro kv hkv
    have hne := values_eq_nil_iff.mp (h hw) kv hkv
    rw [Bool.not_eq_true', ← Bool.not_eq_true, keyed_eq_true_iff]
    exact hne
  · rfl

theorem values_of_length_storedPairs (h : bs.length ≤ (storedPairs type bs).length) (hw : type.wraps = true) :
    values "command".toList bs = [] := by
  rw [storedPairs, if_pos hw] at h
  have heq : bs.filter (fun kv => !keyed "command".toList kv) = bs :=
    List.filter_sublist.eq_of_length_le h
  rw [values_eq_nil_iff]
  intro kv hkv hk
  have hkeep := List.filter_eq_self.mp heq kv hkv
  rw [keyed_eq_true_iff.mpr hk] at hkeep
  cases hkeep

theorem values_eq_of_keys {key : List Char} (h : as.map Prod.fst = bs.map Prod.fst) :
    values key as = [] ↔ values key bs = [] := by
  have hmem (cs : Pairs) : values key cs = [] ↔ key ∉ cs.map Prod.fst := by
    rw [values_eq_nil_iff, List.mem_map]
    push Not
    rfl
  rw [hmem, hmem, h]

theorem values_storedPairs_ne {key : List Char} (h : key ≠ "command".toList) (type : TaskType) (bs : Pairs) :
    values key (storedPairs type bs) = values key bs := by
  unfold storedPairs
  split
  · rw [values, values, List.filter_filter]
    congr 1
    apply List.filter_congr
    intro kv _
    by_cases hk : kv.1 = key
    · have hc : keyed "command".toList kv = false := decide_eq_false fun hc => h (hk.symm.trans hc)
      rw [hc, Bool.not_false, Bool.and_true]
    · have hc : keyed key kv = false := decide_eq_false hk
      rw [hc, Bool.false_and]
  · rfl

theorem ne_command_of_mem_settingKeys {key : List Char} (h : key ∈ settingKeys) : key ≠ "command".toList := by
  revert key
  decide

/-- The arguments of a task with all the settings of the workflow. -/
def passed (w : Workflow) (ds : List Dep) (as : Pairs) : Pairs := addPairs (w.settings ds) (remaining w as)

theorem values_passed_resource (w : Workflow) (ds : List Dep) (as : Pairs) (r : Resource) :
    values r.key (passed w ds as) = if r.amount w = 0 then values r.key as else (values r.key as).tail := by
  rw [passed, values_addPairs_ne fun kv hkv => (ne_key_of_mem_settingKeys (fst_mem_settingKeys hkv) r).symm,
    values_remaining]

theorem values_passed_command (w : Workflow) (ds : List Dep) (as : Pairs) :
    values "command".toList (passed w ds as) = values "command".toList as := by
  have hne : ∀ key ∈ settingKeys, "command".toList ≠ key := by decide
  rw [passed, values_addPairs_ne fun kv hkv => hne _ (fst_mem_settingKeys hkv),
    values_remaining_ne fun r => by cases r <;> decide]

theorem passed_passed (h : ∀ r : Resource, r.amount w ≠ 0 → (values r.key as).tail = []) :
    remaining w (passed w ds as) = passed w ds as ∧ passed w ds (passed w ds as) = passed w ds as := by
  have hrem : remaining w (passed w ds as) = passed w ds as := by
    apply remaining_of_values
    intro r hr
    rw [values_passed_resource, if_neg hr]
    exact h r hr
  refine ⟨hrem, ?_⟩
  rw [passed, hrem]
  exact addPairs_of_values fun kv hkv => values_addPairs_ne_nil hkv _

theorem keys_of_forall₂ {R : List Char × List Char → List Char × List Char → Prop}
    (h : List.Forall₂ (fun kv kv' => kv'.1 = kv.1 ∧ R kv' kv) bs cs) : cs.map Prod.fst = bs.map Prod.fst := by
  rw [← List.forall₂_eq_eq_eq, List.forall₂_map_left_iff, List.forall₂_map_right_iff]
  exact h.flip.imp fun _ _ h => h.1

/-- Conversely, if they come out of the stages as they were before they were stored, nothing has been lost. -/
theorem of_passed_eq (hcs : List.Forall₂ (fun kv kv' => kv'.1 = kv.1 ∧ (kv' = kv → Short kv))
      (storedPairs type (passed w ds as)) cs) (h : passed w ds cs = passed w ds as) :
    cs = passed w ds as ∧ (∀ r : Resource, r.amount w ≠ 0 → (values r.key as).tail = []) ∧
    (type.wraps = true → values "command".toList as = []) ∧ ∀ kv ∈ passed w ds as, Short kv := by
  have hkeys := keys_of_forall₂ hcs
  -- the settings are there already, so that the stages can only take arguments away
  have hrem : passed w ds cs = remaining w cs := by
    apply addPairs_of_values
    intro kv hkv
    have hset := fst_mem_settingKeys hkv
    rw [values_remaining_ne (ne_key_of_mem_settingKeys hset), Ne, values_eq_of_keys hkeys,
      values_storedPairs_ne (ne_command_of_mem_settingKeys hset)]
    exact values_addPairs_ne_nil hkv _
  have hlen : cs.length = (storedPairs type (passed w ds as)).length := hcs.length_eq.symm
  have hle := length_storedPairs_le type (passed w ds as)
  have hrle := length_remaining_le w cs
  rw [← hrem, h] at hrle
  have hvalues (r : Resource) (hr : r.amount w ≠ 0) : values r.key cs = [] :=
    values_of_length_remaining (by rw [← hrem, h]; omega) r hr
  have hcs' : cs = passed w ds as := by
    rw [← h, hrem, remaining_of_values hvalues]
  have hcommand : type.wraps = true → values "command".toList (passed w ds as) = [] :=
    values_of_length_storedPairs (by omega)
  refine ⟨hcs', fun r hr => ?_, ?_, fun kv hkv => ?_⟩
  · have hv := hvalues r hr
    rw [hcs', values_passed_resource, if_neg hr] at hv
    exact hv
  · rw [values_passed_command] at hcommand
    exact hcommand
  · rw [storedPairs_of_values hcommand, hcs', List.forall₂_same] at hcs
    exact (hcs kv hkv).2 rfl

end Pairs

section Settings

variable {s g c : Option (List Char)} {b gb : Bool} {base : Int} {retry : Retry} {a : ExitAction} {type : TaskType}
  {operator : List Char}

theorem nonempty_some {c : List Char} (h : c ≠ []) : nonempty (some c) = some c := nonempty_eq_some_iff.mpr ⟨rfl, h⟩

theorem readOnError_nonempty (h : readOnError base (s.or g) = .ok retry) :
    readOnError base ((nonempty s).or (nonempty g)) = .ok retry := by
  have hne (c : List Char) (hc : readOnError base (some c) = .ok retry) : c ≠ [] := by
    rintro rfl
    cases hc
  cases s with
  | some c => rwa [nonempty_some (hne c h)]
  | none =>
    cases g with
    | some c => rwa [nonempty_some (hne c h)]
    | none => exact h

theorem readOnExit_nonempty (s : Option (List Char)) : readOnExit (nonempty s) = readOnExit s := by
  unfold readOnExit
  rw [nonempty_nonempty]

theorem choose_eq_ok_iff {α : Type} {text : α → List Char} {choices : List α} {s : List Char} {a : α}
    (hinj : ∀ a ∈ choices, ∀ b ∈ choices, text a = text b → a = b) :
    choose text choices s = .ok a ↔ a ∈ choices ∧ text a = s := by
  unfold choose
  cases h : choices.find? fun a => decide (text a = s) with
  | none =>
    refine iff_of_false nofun ?_
    rintro ⟨ha, hs⟩
    exact absurd (decide_eq_true hs) (List.find?_eq_none.mp h a ha)
  | some b =>
    have hd := List.find?_some h
    have hb : text b = s := of_decide_eq_true hd
    have hmem := List.mem_of_find?_eq_some h
    constructor
    · rintro ⟨⟩
      exact ⟨hmem, hb⟩
    · rintro ⟨ha, hs⟩
      exact congrArg Except.ok (hinj b hmem a ha (hb.trans hs.symm))

theorem ExitAction.text_injective (a b : ExitAction) (h : a.text = b.text) : a = b := by
  cases a <;> cases b <;> first | rfl | exact absurd h (by decide +kernel)

theorem readOnExit_eq_nop_iff : readOnExit s = .ok .nop ↔ nonempty s = none ∨ nonempty s = some "nop".toList := by
  unfold readOnExit
  cases nonempty s with
  | none => exact iff_of_true rfl (.inl rfl)
  | some c =>
    rw [Option.elim_some, choose_eq_ok_iff fun a _ b _ => ExitAction.text_injective a b]
    constructor
    · rintro ⟨-, rfl⟩
      exact .inr rfl
    · rintro (h | h)
      · cases h
      · cases h
        exact ⟨List.mem_cons_self, rfl⟩

theorem readOnExit_again_iff (h : readOnExit (s.or g) = .ok a) :
    readOnExit ((nonempty s).or (nonempty g)) = .ok a ↔
      (s = some [] → nonempty g = none ∨ nonempty g = some "nop".toList) := by
  match s with
  | none =>
    refine iff_of_true ?_ nofun
    rw [Option.none_or] at h
    show readOnExit (nonempty g) = _
    rw [readOnExit_nonempty, h]
  | some [] =>
    cases h
    show readOnExit (nonempty g) = _ ↔ _
    rw [readOnExit_nonempty, readOnExit_eq_nop_iff]
    exact ⟨fun h _ => h, fun h => h rfl⟩
  | some (x :: c) => exact iff_of_true h nofun

theorem readFlag_eq_false_iff : readFlag s = .ok false ↔ s = some "no".toList := by
  unfold readFlag
  cases h : nonempty s with
  | none =>
    refine iff_of_false nofun ?_
    rintro rfl
    cases h
  | some c =>
    obtain ⟨rfl, -⟩ := nonempty_eq_some_iff.mp h
    rw [Option.elim_some, choose_eq_ok_iff (by decide)]
    simp [flagText, eq_comm]

theorem readFlag_again (b gb : Bool) : readFlag ((if b then none else some "no".toList).or
    (if gb then none else some "no".toList)) = .ok (b && gb) := by
  cases b <;> cases gb <;> rfl

theorem and_eq_iff_of_readFlag (h : readFlag (s.or g) = .ok b) (hg : readFlag g = .ok gb) :
    (b && gb) = b ↔ (g = some "no".toList → s = none ∨ s = some "no".toList) := by
  cases gb with
  | true =>
    refine iff_of_true (Bool.and_true b) fun hno => ?_
    cases (readFlag_eq_false_iff.mpr hno).symm.trans hg
  | false =>
    have hno := readFlag_eq_false_iff.mp hg
    rw [Bool.and_false, eq_comm]
    constructor
    · rintro rfl -
      have hs := readFlag_eq_false_iff.mp h
      cases s with
      | none => exact .inl rfl
      | some c => exact .inr hs
    · intro hs
      rcases hs hno with rfl | rfl
      · cases h.symm.trans hg
        rfl
      · cases (readFlag_eq_false_iff.mpr rfl).symm.trans h
        rfl

theorem readFlag_eq_true_iff (h : readFlag s = .ok b) : b = true ↔ s ≠ some "no".toList := by
  rw [Ne, ← readFlag_eq_false_iff, h]
  cases b <;> simp

theorem readTaskCheckpoint_again (h : readTaskCheckpoint g s = .ok c) : readTaskCheckpoint g c = .ok c := by
  unfold readTaskCheckpoint at h ⊢
  obtain ⟨d, hd, h⟩ := bind_eq_ok_iff.mp h
  cases d with
  | some d =>
    cases h
    obtain ⟨hs, hd⟩ := readCheckpoint_eq_ok_iff.mp hd
    have hagain : readCheckpoint (some d) = .ok (some d) :=
      readCheckpoint_eq_ok_iff.mpr ⟨nonempty_some (nonempty_eq_some_iff.mp hs).2, hd⟩
    rw [hagain]
    rfl
  | none =>
    have hs := (readCheckpoint_eq_ok_iff.mp hd).1
    dsimp only at h
    split at h
    · next hg =>
      match s, hs with
      | some [], _ =>
        cases h
        rw [hd]
        show (if g.isSome then _ else _) = _
        rw [if_pos hg]
        rfl
    · next hg =>
      cases h
      show (if g.isSome then _ else _) = _
      rw [if_neg hg]

theorem readType_again (h : readType s operator = .ok type) : readType (some type.text) operator = .ok type := by
  unfold readType at h ⊢
  obtain ⟨u, -, h⟩ := bind_eq_ok_iff.mp h
  rw [Option.elim_some, choose_typeText]
  show (if _ then _ else _) = _
  split at h
  · cases h
  · next hc =>
    cases h
    exact if_neg hc

end Settings

/-- The tasks agree on all that a user can set. -/
structure Agree (t t' : Task) : Prop where
  name : t'.name = t.name
  type : t'.type = t.type
  rtype : t'.rtype = t.rtype
  operator : t'.operator = t.operator
  arguments : t'.arguments = t.arguments
  deps : t'.deps = t.deps
  ncores : t'.ncores = t.ncores
  nhosts : t'.nhosts = t.nhosts
  nthreads : t'.nthreads = t.nthreads
  run : t'.run = t.run
  save : t'.save = t.save
  retryNum : t'.retryNum = t.retryNum
  backoffTime : t'.backoffTime = t.backoffTime
  backoffType : t'.backoffType = t.backoffType
  exitAction : t'.exitAction = t.exitAction
  checkpoint : t'.checkpoint = t.checkpoint

/-- The request that is written for the workflow is loaded, and its tasks agree with those of the workflow. -/
def RoundTrips [Jansson] (srv : Server) (w : Workflow) : Prop :=
  ∃ r w', store w none = .ok r ∧ load srv (dumps r) = .ok w' ∧ List.Forall₂ Agree w.tasks w'.tasks

section Again

variable {srv : Server} {j e : Json} {i : Nat} {t t₂ u u' : Task} {w : Workflow} {as bs bs' cs : Pairs}

/-- What two tasks have to agree on before their types are finalized. -/
structure AgreeBefore (u u' : Task) : Prop where
  name : u'.name = u.name
  type : u'.type = u.type
  operator : u'.operator = u.operator
  retryNum : u'.retryNum = u.retryNum
  backoffTime : u'.backoffTime = u.backoffTime
  backoffType : u'.backoffType = u.backoffType
  checkpoint : u'.checkpoint = u.checkpoint

theorem agree_finalizeType_iff (hr : u.rtype = none) (hr' : u'.rtype = none) (hu : u.arguments = bs.map some)
    (hu' : u'.arguments = bs'.map some) (h : AgreeBefore u u') :
    Agree (finalizeType u) (finalizeType u') ↔
      bs' = bs ∧ u'.deps = u.deps ∧ (∀ r : Resource, r.get u' = r.get u) ∧ u'.run = u.run ∧ u'.save = u.save ∧
      u'.exitAction = u.exitAction := by
  have hpair : commandPair u' = commandPair u := by
    rw [commandPair, commandPair, h.type, h.operator]
  have hwrapped : wrapped u' = wrapped u := by
    rw [wrapped, wrapped, h.type, h.operator]
  have htype : finalizedType u' = finalizedType u := by
    rw [finalizedType, finalizedType, h.type]
  rw [finalizeType_eq hr hu, finalizeType_eq hr' hu', hpair, hwrapped, htype]
  constructor
  · intro ha
    refine ⟨?_, ha.deps, fun r => ?_, ha.run, ha.save, ha.exitAction⟩
    · have hargs : (bs' ++ commandPair u).map some = (bs ++ commandPair u).map some := ha.arguments
      exact List.append_cancel_right ((List.map_inj_right fun _ _ => Option.some.inj).mp hargs)
    · cases r with
      | ncores => exact ha.ncores
      | nhost => exact ha.nhosts
      | nthreads => exact ha.nthreads
  · rintro ⟨rfl, hdeps, hres, hrun, hsave, hexit⟩
    exact {
      name := h.name, type := rfl, rtype := rfl, operator := rfl, arguments := rfl, deps := hdeps,
      ncores := hres .ncores, nhosts := hres .nhost, nthreads := hres .nthreads, run := hrun, save := hsave,
      retryNum := h.retryNum, backoffTime := h.backoffTime, backoffType := h.backoffType, exitAction := hexit,
      checkpoint := h.checkpoint }

theorem taskIndex_of_readDeps {auto : Nat} {js : List Json} {ds : List Dep} (h : readDeps auto js = .ok ds) :
    ∀ d ∈ ds, d.taskIndex = 0 := by
  induction js generalizing auto ds with
  | nil =>
    cases h
    exact fun d hd => absurd hd List.not_mem_nil
  | cons j js ih =>
    obtain ⟨d, hd, h⟩ := bind_eq_ok_iff.mp h
    obtain ⟨ds, hds, h⟩ := bind_eq_ok_iff.mp h
    cases h
    obtain ⟨name, -, hd⟩ := bind_eq_ok_iff.mp hd
    obtain ⟨type, -, hd⟩ := bind_eq_ok_iff.mp hd
    cases hd
    exact List.forall_mem_cons.mpr ⟨rfl, ih hds⟩

theorem arguments_again {ps : Pairs} {js : List Json} {args : Arguments} (hk : ∀ kv ∈ ps, '=' ∉ kv.1)
    (h : List.Forall₂ (fun a j => argumentText a = some j) (ps.map some) js)
    (h' : List.Forall₂ (fun j a => readArgument j = .ok a) js args) :
    ∃ cs : Pairs, args = cs.map some ∧ List.Forall₂ (fun kv kv' => kv'.1 = kv.1 ∧ (kv' = kv → Short kv)) ps cs := by
  induction ps generalizing js args with
  | nil =>
    cases h
    cases h'
    exact ⟨[], rfl, .nil⟩
  | cons kv ps ih =>
    cases h with
    | cons ha h =>
      cases h' with
      | cons hb h' =>
        obtain ⟨cs, rfl, hcs⟩ := ih (fun kv' hkv => hk kv' (List.mem_cons_of_mem _ hkv)) h h'
        obtain ⟨-, rfl⟩ := ofText_eq_some_iff.mp ha
        unfold readArgument at hb
        dsimp only [text?] at hb
        cases hcut : cutAt '=' (printed (kv.1 ++ '=' :: kv.2)) with
        | none =>
          rw [hcut] at hb
          cases hb
        | some kv' =>
          rw [hcut] at hb
          cases hb
          exact ⟨kv' :: cs, rfl, .cons (of_cutAt_printed (hk kv List.mem_cons_self) hcut) hcs⟩

theorem readArgument_again {ps : Pairs} {js : List Json} (hk : ∀ kv ∈ ps, '=' ∉ kv.1) (hs : ∀ kv ∈ ps, Short kv)
    (h : List.Forall₂ (fun a j => argumentText a = some j) (ps.map some) js) :
    List.Forall₂ (fun j a => readArgument j = .ok a) js (ps.map some) := by
  induction ps generalizing js with
  | nil =>
    cases h
    exact .nil
  | cons kv ps ih =>
    cases h with
    | cons ha h =>
      refine .cons ?_ (ih (fun kv' hkv => hk kv' (List.mem_cons_of_mem _ hkv))
        (fun kv' hkv => hs kv' (List.mem_cons_of_mem _ hkv)) h)
      obtain ⟨-, rfl⟩ := ofText_eq_some_iff.mp ha
      unfold readArgument
      dsimp only [text?]
      rw [cutAt_printed (hk kv List.mem_cons_self) (hs kv List.mem_cons_self)]
      rfl

/-- What the loader makes sure of for a task `u` of a workflow, before its type is finalized. -/
structure Consistent (srv : Server) (w : Workflow) (u : Task) : Prop where
  type : readType (some u.type.text) u.operator = .ok u.type
  retry : readOnError srv.baseBackoff (u.onError.or w.onError) = .ok ⟨u.retryNum, u.backoffTime, u.backoffType⟩
  checkpoint : readTaskCheckpoint w.checkpoint u.checkpoint = .ok u.checkpoint
  onError : nonempty u.onError = u.onError
  onExit : nonempty u.onExit = u.onExit
  taskIndex : ∀ d ∈ u.deps, d.taskIndex = 0
  rtype : u.rtype = none
  parent : u.parent = -1
  status : u.status = .unknown

/-- What is found in the entry of such a task, and in the header. -/
structure Found (w : Workflow) (u : Task) (r e : Json) : Prop where
  name : own e "name" = some u.name
  type : own e "type" = some u.type.text
  operator : own e "operator" = some u.operator
  onError : own e "on_error" = u.onError
  onExit : own e "on_exit" = u.onExit
  run : own e "run" = if u.run then none else some "no".toList
  save : own e "save" = none
  checkpoint : own e "checkpoint" = u.checkpoint
  globalError : global r "on_error" = w.onError
  globalExit : global r "on_exit" = w.onExit
  globalRun : global r "run" = if w.run then none else some "no".toList
  globalSave : global r "save" = none
  globalCheckpoint : global r "checkpoint" = w.checkpoint

theorem found_of_store {r : Json} (hr : store w none = .ok r) (he : IsEntry w i (finalizeType u) e)
    (hn : u.rtype = none) (hu : u.arguments = bs.map some) : Found w u r e := by
  have hf := finalizeType_eq hn hu
  have hown (k : String) (hk : k ∈ taskKeys) (ho : k ≠ "operator") :
      own e k = lastGiven k (taskTexts (finalizeType u)) := by
    rw [he.own k hk, lastGiven_append, lastGiven_commandTexts ho, Option.none_or]
  have ht := lastGiven_taskTexts (finalizeType u)
  have hop := lastGiven_operator hn hu
  constructor
  · rw [hown _ (by decide) (by decide), ht.1, hf]
  · rw [he.own _ (by decide), hop.1]
  · rw [he.own _ (by decide), hop.2]
  · rw [hown _ (by decide) (by decide), ht.2.2.2.1, hf]
  · rw [hown _ (by decide) (by decide), ht.2.2.2.2.1, hf]
  · rw [hown _ (by decide) (by decide), ht.2.2.2.2.2.1, hf]
  · rw [hown _ (by decide) (by decide), ht.2.2.2.2.2.2.1]
  · rw [hown _ (by decide) (by decide), ht.2.2.2.2.2.2.2, hf]
  · rw [global_of_store hr (by decide)]
    simp [lastGiven, headerTexts]
  · rw [global_of_store hr (by decide)]
    simp [lastGiven, headerTexts]
  · rw [global_of_store hr (by decide)]
    simp [lastGiven, headerTexts]
  · rw [global_of_store hr (by decide)]
    simp [lastGiven, headerTexts]
  · rw [global_of_store hr (by decide)]
    simp [lastGiven, headerTexts]

theorem readDeps_again (he : IsEntry w i (finalizeType u) e) (hc : Consistent srv w u)
    (hu : u.arguments = bs.map some) :
    readDeps 0 (itemsOf e "dependencies") = .ok (u.deps.filter (keepsDep w none i)) := by
  have hdeps : (finalizeType u).deps = u.deps := by rw [finalizeType_eq hc.rtype hu]
  have hd := he.deps
  rw [hdeps] at hd
  exact readDeps_of_storeDep hd (fun d hd => hc.taskIndex d (List.mem_of_mem_filter hd)) 0

theorem of_reads_again {r : Json} (hw : Normal w) (hc : Consistent srv w u) (hu : u.arguments = bs.map some)
    (hf : Found w u r e) (he : IsEntry w i (finalizeType u) e) (h : Reads srv r i e t₂) :
    AgreeBefore u t₂ ∧ t₂.deps = u.deps.filter (keepsDep w none i) ∧ t₂.run = (u.run && w.run) ∧ t₂.save = true ∧
    readOnExit (u.onExit.or w.onExit) = .ok t₂.exitAction := by
  have hname : t₂.name = u.name := Option.some.inj (h.name.symm.trans hf.name)
  have hoperator : t₂.operator = u.operator := Option.some.inj (h.operator.symm.trans hf.operator)
  have htype := h.type
  rw [hf.type, hoperator, hc.type] at htype
  have hretry := h.retry
  rw [hf.onError, hf.globalError, hc.retry] at hretry
  have hcheckpoint := h.checkpoint
  rw [hf.globalCheckpoint, (readCheckpoint_eq_ok_iff.mp hw.checkpoint).1, hf.checkpoint, hc.checkpoint] at hcheckpoint
  have hdeps := h.deps
  rw [readDeps_again he hc hu] at hdeps
  have hrun := h.run
  rw [hf.run, hf.globalRun, readFlag_again] at hrun
  have hsave := h.save
  rw [hf.save, hf.globalSave] at hsave
  have hexit := h.exitAction
  rw [hf.onExit, hf.globalExit] at hexit
  have hretry' := Except.ok.inj hretry
  refine ⟨⟨hname, (Except.ok.inj htype).symm, hoperator, (congrArg Retry.retryNum hretry').symm,
    (congrArg Retry.backoffTime hretry').symm, (congrArg Retry.backoffType hretry').symm,
    (Except.ok.inj hcheckpoint).symm⟩, (Except.ok.inj hdeps).symm, (Except.ok.inj hrun).symm, ?_, hexit⟩
  exact (Except.ok.inj hsave).symm

/-- Conversely, the entry of `u` can be read if its arguments and the action at the exit can. -/
def againTask (w : Workflow) (i : Nat) (e : Json) (u : Task) (args : Arguments) (a : ExitAction) : Task :=
  { u with arguments := args, deps := u.deps.filter (keepsDep w none i), run := u.run && w.run, save := true
           exitAction := a, vars := some (readVars i [] (itemsOf e "variables")), ncores := 0, nhosts := 0
           nthreads := 0 }

theorem reads_again {r : Json} {args : Arguments} {a : ExitAction} (hw : Normal w) (hc : Consistent srv w u)
    (hu : u.arguments = bs.map some) (hf : Found w u r e) (he : IsEntry w i (finalizeType u) e)
    (ha : readOnExit (u.onExit.or w.onExit) = .ok a)
    (hargs : List.Forall₂ (fun j a => readArgument j = .ok a) (itemsOf e "arguments") args) :
    Reads srv r i e (againTask w i e u args a) := by
  constructor
  · exact hf.name
  · exact hf.operator
  · rw [hf.type]
    exact hc.type
  · exact hargs
  · exact readDeps_again he hc hu
  · rw [hf.onError, hf.globalError]
    exact hc.retry
  · rw [hf.onExit, hf.globalExit]
    exact ha
  · rw [hf.run, hf.globalRun]
    exact readFlag_again _ _
  · rw [hf.save, hf.globalSave]
    rfl
  · rw [hf.globalCheckpoint, (readCheckpoint_eq_ok_iff.mp hw.checkpoint).1, hf.checkpoint]
    exact hc.checkpoint
  · rw [hf.onError]
    exact hc.onError.symm
  · rw [hf.onExit]
    exact hc.onExit.symm
  · rfl
  · intro r'
    cases r' <;> rfl
  · exact hc.rtype
  · exact hc.parent
  · exact hc.status

/-- The header of the workflow, against the request. -/
structure HeaderOf (srv : Server) (j : Json) (w : Workflow) : Prop where
  normal : Normal w
  onError : w.onError = nonempty (global j "on_error")
  onExit : w.onExit = nonempty (global j "on_exit")
  checkpoint : w.checkpoint = nonempty (global j "checkpoint")
  run : readFlag (global j "run") = .ok w.run

/-- A task before its type is finalized, with all the settings of the workflow. -/
def beforeType (w : Workflow) (as : Pairs) (t : Task) : Task :=
  (settleResources w as t).withArguments ((passed w t.deps as).map some)

theorem consistent_of_reads (hh : HeaderOf srv j w) (h : Reads srv j i e t) (as : Pairs) :
    Consistent srv w (beforeType w as t) := by
  constructor
  · exact readType_again h.type
  · show readOnError _ (t.onError.or w.onError) = _
    rw [h.onError, hh.onError]
    exact readOnError_nonempty h.retry
  · show readTaskCheckpoint w.checkpoint t.checkpoint = _
    rw [hh.checkpoint]
    exact readTaskCheckpoint_again h.checkpoint
  · show nonempty t.onError = t.onError
    rw [h.onError, nonempty_nonempty]
  · show nonempty t.onExit = t.onExit
    rw [h.onExit, nonempty_nonempty]
  · exact taskIndex_of_readDeps h.deps
  · exact h.rtype
  · exact h.parent
  · exact h.status

theorem fst_of_mem_passed {ds : List Dep} {kv : List Char × List Char} (has : ∀ kv ∈ as, '=' ∉ kv.1)
    (h : kv ∈ passed w ds as) : '=' ∉ kv.1 := by
  rcases (mem_addPairs_iff (nodup_settings w ds)).mp h with h | ⟨h, -⟩
  · exact has kv (mem_of_mem_remaining h)
  · have hkeys : ∀ key ∈ settingKeys, '=' ∉ key := by decide
    exact hkeys _ (fst_mem_settingKeys h)

theorem left_ne_nil_of_cwd (hw : Normal w) {ds : List Dep} (hkeys : cs.map Prod.fst = bs.map Prod.fst)
    (hbs : ∀ key ∈ settingKeys, values key bs = values key (passed w ds as)) : left .ncores w.ncores cs ≠ [] := by
  obtain ⟨cwd, -, hcwd⟩ := hw.cwd
  have hmem : ("cwd".toList, cwd) ∈ w.settings ds := by
    unfold Workflow.settings
    rw [hcwd]
    simp
  have hv : values "cwd".toList bs ≠ [] := by
    rw [hbs _ (by decide)]
    exact values_addPairs_ne_nil hmem _
  intro hnil
  have hleft : values "cwd".toList (left .ncores w.ncores cs) = values "cwd".toList cs := values_left_ne (by decide) _ _
  rw [hnil, values_nil] at hleft
  exact hv ((values_eq_of_keys hkeys).mp hleft.symm)

/-- Nothing of a task is lost when it is stored. -/
structure Lossless (w : Workflow) (j e : Json) (i : Nat) (t : Task) (as : Pairs) : Prop where
  resources : ∀ r : Resource, r.amount w ≠ 0 →
    values r.key as = [] ∨ (values r.key as).map readInt = [r.amount w]
  command : t.type.wraps = true → values "command".toList as = []
  short : ∀ kv ∈ passed w t.deps as, Short kv
  deps : ∀ d ∈ t.deps, keepsDep w none i d = true
  run : global j "run" = some "no".toList → own e "run" = none ∨ own e "run" = some "no".toList
  save : (own e "save").or (global j "save") ≠ some "no".toList
  exitAction : own e "on_exit" = some [] →
    nonempty (global j "on_exit") = none ∨ nonempty (global j "on_exit") = some "nop".toList

theorem tail_eq_nil_of_map {vs : List (List Char)} {n : Int} (h : vs = [] ∨ vs.map readInt = [n]) : vs.tail = [] := by
  rcases h with rfl | h
  · rfl
  · match vs, h with
    | [v], _ => rfl

theorem share_passed {ds : List Dep} (h : ∀ r : Resource, r.amount w ≠ 0 →
      values r.key as = [] ∨ (values r.key as).map readInt = [r.amount w]) (r : Resource) :
    share w (passed w ds as) r = share w as r := by
  by_cases hr : r.amount w = 0
  · rw [share_of_amount_eq_zero hr, share_of_amount_eq_zero hr, values_passed_resource, if_pos hr]
  · have htail := tail_eq_nil_of_map (h r hr)
    rw [(share_eq_amount_iff hr htail).mpr (h r hr), share_of_values_eq_nil]
    rw [values_passed_resource, if_neg hr, htail]

theorem get_beforeType (w : Workflow) (as : Pairs) (t : Task) (r : Resource) :
    r.get (beforeType w as t) = share w as r := by
  cases r <;> rfl

/-- The entry of a task loads into the same task exactly if nothing is lost. -/
theorem again_iff {r e' : Json} (hh : HeaderOf srv j w) (h : Reads srv j i e t) (has : ∀ kv ∈ as, '=' ∉ kv.1)
    (hn : ∀ r, 0 ≤ share w as r) (hr : store w none = .ok r)
    (he : IsEntry w i (finalizeType (beforeType w as t)) e') :
    (∃ t₂ t', Reads srv r i e' t₂ ∧ runStages (stages w) t₂ = .ok t' ∧
      Agree (finalizeType (beforeType w as t)) t') ↔ Lossless w j e i t as := by
  have hc := consistent_of_reads hh h as
  have hu : (beforeType w as t).arguments = (passed w t.deps as).map some := rfl
  have hf := found_of_store hr he hc.rtype hu
  have hargs := he.arguments
  rw [storedArguments_finalizeType hc.rtype hu] at hargs
  have hk : ∀ kv ∈ storedPairs (beforeType w as t).type (passed w t.deps as), '=' ∉ kv.1 :=
    fun kv hkv => fst_of_mem_passed has (mem_of_mem_storedPairs hkv)
  have hexit : readOnExit (t.onExit.or w.onExit) = .ok t.exitAction ↔ (own e "on_exit" = some [] →
      nonempty (global j "on_exit") = none ∨ nonempty (global j "on_exit") = some "nop".toList) := by
    rw [h.onExit, hh.onExit]
    exact readOnExit_again_iff h.exitAction
  constructor
  · rintro ⟨t₂, t', h₂, hrun, hagree⟩
    obtain ⟨hb, hdeps, hrun₂, hsave₂, hexit₂⟩ := of_reads_again hh.normal hc hu hf he h₂
    obtain ⟨cs, hcs, hpairs⟩ := arguments_again hk hargs h₂.arguments
    have hne := left_ne_nil_of_cwd hh.normal (keys_of_forall₂ hpairs)
      fun key hkey => values_storedPairs_ne (ne_command_of_mem_settingKeys hkey) _ _
    obtain ⟨-, rfl⟩ := (stages_eq_ok_iff hcs h₂.resources hh.normal.amounts (.inr hne)).mp hrun
    have hb' : AgreeBefore (beforeType w as t) (beforeType w cs t₂) :=
      ⟨hb.name, hb.type, hb.operator, hb.retryNum, hb.backoffTime, hb.backoffType, hb.checkpoint⟩
    obtain ⟨hpassed, hdeps', hres, hrun', hsave', hexit'⟩ :=
      (agree_finalizeType_iff hc.rtype (show (beforeType w cs t₂).rtype = none from h₂.rtype) hu rfl hb').mp hagree
    change t₂.deps = t.deps at hdeps'
    change t₂.run = t.run at hrun'
    change t₂.save = t.save at hsave'
    change t₂.exitAction = t.exitAction at hexit'
    change t₂.deps = t.deps.filter _ at hdeps
    change t₂.run = (t.run && w.run) at hrun₂
    rw [hdeps'] at hpassed
    obtain ⟨rfl, htail, hcommand, hshort⟩ := of_passed_eq hpairs hpassed
    constructor
    · intro r' hr'
      have hshare := hres r'
      rw [get_beforeType, get_beforeType, share_of_values_eq_nil] at hshare
      · exact (share_eq_amount_iff hr' (htail r' hr')).mp hshare.symm
      · rw [values_passed_resource, if_neg hr', htail r' hr']
    · exact hcommand
    · exact hshort
    · exact List.filter_eq_self.mp (hdeps.symm.trans hdeps')
    · exact (and_eq_iff_of_readFlag h.run hh.run).mp (hrun₂.symm.trans hrun')
    · exact (readFlag_eq_true_iff h.save).mp (hsave'.symm.trans hsave₂)
    · exact hexit.mp (hexit'.symm ▸ hexit₂)
  · intro hl
    have htail (r' : Resource) (hr' : r'.amount w ≠ 0) : (values r'.key as).tail = [] :=
      tail_eq_nil_of_map (hl.resources r' hr')
    have hstored : storedPairs (beforeType w as t).type (passed w t.deps as) = passed w t.deps as := by
      apply storedPairs_of_values
      rw [values_passed_command]
      exact hl.command
    rw [hstored] at hargs hk
    have hargs₂ := readArgument_again hk hl.short hargs
    have h₂ := reads_again hh.normal hc hu hf he (hexit.mpr hl.exitAction) hargs₂
    have hdeps : t.deps.filter (keepsDep w none i) = t.deps := List.filter_eq_self.mpr hl.deps
    have hne : left .ncores w.ncores (passed w t.deps as) ≠ [] :=
      left_ne_nil_of_cwd hh.normal rfl fun key _ => rfl
    have hstages := (@stages_eq_ok_iff w _ _ _ rfl h₂.resources hh.normal.amounts (.inr hne)).mpr
      ⟨fun r' => (share_passed hl.resources r').symm ▸ hn r', rfl⟩
    have hagree := @agree_finalizeType_iff (beforeType w as t) (beforeType w (passed w t.deps as)
      (againTask w i e' (beforeType w as t) ((passed w t.deps as).map some) t.exitAction)) _ _ hc.rtype hc.rtype hu rfl
      ⟨rfl, rfl, rfl, rfl, rfl, rfl, rfl⟩
    refine ⟨_, _, h₂, hstages, hagree.mpr ⟨?_, hdeps, fun r' => ?_,
      (and_eq_iff_of_readFlag h.run hh.run).mpr hl.run, ?_, rfl⟩⟩
    · show passed w (t.deps.filter (keepsDep w none i)) (passed w t.deps as) = passed w t.deps as
      rw [hdeps]
      exact (passed_passed htail).2
    · rw [get_beforeType, get_beforeType]
      exact share_passed hl.resources r'
    · exact ((readFlag_eq_true_iff h.save).mpr hl.save).symm

end Again

end OphidiaWorkflow.Request
