import OphidiaWorkflow.Request.Nulls

/-!
The settings of a task and those of the workflow: a request is compared with the one in which each entry repeats the
settings of the workflow that it does not give.
-/
namespace OphidiaWorkflow.Request

open Json Lib

/-- The settings that a task inherits. -/
def inheritedKeys : List String := ["on_error", "on_exit", "run", "save", "checkpoint"]

/-- A setting is added to an entry that has no member with that name. -/
def give (e : Json) (k : String) (value : Option (List Char)) : Json :=
  match e, value with
  | .object ms, some s => if (e.get? k).isSome then e else .object (ms ++ [(k, .string s)])
  | e, _ => e

/-- The entry with the settings of the request. -/
def repeatIn (j e : Json) : Json := inheritedKeys.foldl (fun e k => give e k (global j k)) e

def repeatItems (j : Json) : Json → Json
  | .array l => .array (l.map (repeatIn j))
  | a => a

/-- The request with its settings repeated in each task. -/
def repeated (j : Json) : Json :=
  match j with
  | .object ms => .object (ms.map fun m => if m.1 = "tasks" then (m.1, repeatItems j m.2) else m)
  | j => j

/-- What the inherited settings set in a task. -/
structure Settings where
  retry : Retry
  exitAction : ExitAction
  run : Bool
  save : Bool
  checkpoint : Option (List Char)
  deriving DecidableEq, Repr

def Task.settings (t : Task) : Settings where
  retry := ⟨t.retryNum, t.backoffTime, t.backoffType⟩
  exitAction := t.exitAction
  run := t.run
  save := t.save
  checkpoint := t.checkpoint

/-- The setting that an entry gives, else that of the request, whatever the members before it are. -/
def effective (j e : Json) (k : String) : Option (List Char) := (e.getText? k).or (j.getText? k)

/-- The setting that the loader finds. -/
def found (j e : Json) (k : String) : Option (List Char) := (own e k).or (global j k)

/-- Every setting of the entry takes effect in the task, and so do those of the request that the entry does not give. -/
structure TakesEffect (srv : Server) (j e : Json) (t : Task) : Prop where
  retry : readOnError srv.baseBackoff (effective j e "on_error") = .ok t.settings.retry
  exitAction : readOnExit (effective j e "on_exit") = .ok t.exitAction
  run : readFlag (effective j e "run") = .ok t.run
  save : readFlag (effective j e "save") = .ok t.save
  checkpoint : nonempty (effective j e "checkpoint") = nonempty t.checkpoint

/-- The law of the inheritance. -/
structure Inherits (srv : Server) (j : Json) : Prop where
  safe : readAll srv j ≠ .error .nullPointer
  same : (loadJson srv j).map (fun w => w.tasks.map Task.settings) =
    (loadJson srv (repeated j)).map fun w => w.tasks.map Task.settings
  effect : ∀ w, loadJson srv j = .ok w → List.Forall₂ (TakesEffect srv j) (itemsOf j "tasks") w.tasks

/-! ## The repeated request -/

section Repeated

variable {j e : Json} {k k' : String} {value : Option (List Char)}

def isObject : Json → Bool
  | .object _ => true
  | _ => false

theorem isObject_give (e : Json) (k : String) (value : Option (List Char)) :
    isObject (give e k value) = isObject e := by
  unfold give
  split
  · split <;> rfl
  · rfl

theorem get?_give (h : isObject e = true) (k' : String) :
    (give e k value).get? k' = (e.get? k').or (if k' = k then value.map .string else none) := by
  cases e with
  | object ms =>
    cases value with
    | none =>
      rw [Option.map_none, ite_self, Option.or_none]
      rfl
    | some s =>
      show (if ((object ms).get? k).isSome then object ms else object (ms ++ [(k, .string s)])).get? k' = _
      split
      · next hk =>
        by_cases hkk : k' = k
        · subst hkk
          rw [Option.or_of_isSome hk]
        · rw [if_neg hkk, Option.or_none]
      · next hk =>
        refine (lookup_reverse_append_singleton k' (k, string s)).trans ?_
        by_cases hkk : k' = k
        · subst hkk
          rw [if_pos rfl, if_pos rfl, Option.not_isSome_iff_eq_none.mp hk]
          rfl
        · rw [if_neg hkk, if_neg hkk, Option.or_none]
          rfl
  | string | array | other => cases h

theorem get?_foldl_give (h : isObject e = true) (ks : List String) (f : String → Option (List Char)) :
    (ks.foldl (fun e k => give e k (f k)) e).get? k' =
      (e.get? k').or (if k' ∈ ks then (f k').map .string else none) := by
  induction ks generalizing e with
  | nil => simp
  | cons k ks ih =>
    rw [List.foldl_cons, ih ((isObject_give e k (f k)).trans h), get?_give h, Option.or_assoc]
    congr 1
    by_cases hk : k' = k
    · subst hk
      rw [if_pos rfl, if_pos List.mem_cons_self]
      split
      · cases f k' <;> rfl
      · rw [Option.or_none]
    · rw [if_neg hk, Option.none_or]
      simp [hk]

theorem get?_repeatIn (h : isObject e = true) (j : Json) (k : String) :
    (repeatIn j e).get? k = (e.get? k).or (if k ∈ inheritedKeys then (global j k).map .string else none) :=
  get?_foldl_give h inheritedKeys (global j)

theorem repeatIn_of_not_object (h : isObject e = false) (j : Json) : repeatIn j e = e := by
  cases e with
  | object ms => cases h
  | string | array | other => rfl

theorem acceptsText_repeatIn (j e : Json) (k : String) : (repeatIn j e).acceptsText k = e.acceptsText k := by
  cases h : isObject e with
  | false => rw [repeatIn_of_not_object h]
  | true =>
    rw [acceptsText, acceptsText, get?_repeatIn h]
    cases e.get? k with
    | some a => rfl
    | none =>
      rw [Option.none_or]
      split
      · cases global j k <;> rfl
      · rfl

theorem itemsOf_repeatIn (hk : k ∉ inheritedKeys) (j e : Json) : itemsOf (repeatIn j e) k = itemsOf e k := by
  cases h : isObject e with
  | false => rw [repeatIn_of_not_object h]
  | true => rw [itemsOf, get?_repeatIn h, if_neg hk, Option.or_none, itemsOf]

/-- A setting that is given, and can be reached behind the others, stays; one that is not given is that of the
request. -/
theorem own_repeatIn (h : isObject e = true) (j : Json) (k : String) :
    own (repeatIn j e) k = if k ∈ taskKeys.takeWhile e.acceptsText then
      (own e k).or (if k ∈ inheritedKeys then global j k else none) else none := by
  have haccepts : (repeatIn j e).acceptsText = e.acceptsText := funext (acceptsText_repeatIn j e)
  rw [own, own, unpack, unpack, haccepts]
  split
  · next hmem =>
    have hk : e.acceptsText k = true := List.mem_takeWhile_imp hmem
    rw [getText?, getText?, get?_repeatIn h]
    unfold acceptsText at hk
    cases ha : e.get? k with
    | some a =>
      rw [ha] at hk
      change a.text?.isSome = true at hk
      rw [Option.some_or, Option.bind_some, Option.or_of_isSome hk]
    | none =>
      rw [Option.none_or, Option.bind_none, Option.none_or]
      split
      · cases global j k <;> rfl
      · rfl
  · rfl

theorem own_repeatIn_of_not_inherited (hk : k ∉ inheritedKeys) (j e : Json) : own (repeatIn j e) k = own e k := by
  cases h : isObject e with
  | false => rw [repeatIn_of_not_object h]
  | true =>
    rw [own_repeatIn h, if_neg hk, Option.or_none]
    split
    · rfl
    · next hn => rw [own, unpack, if_neg hn]

theorem own_repeatIn_or (hk : k ∈ inheritedKeys) (j e : Json) :
    (own (repeatIn j e) k).or (global j k) = (own e k).or (global j k) := by
  cases h : isObject e with
  | false => rw [repeatIn_of_not_object h]
  | true =>
    rw [own_repeatIn h, if_pos hk]
    split
    · rw [Option.or_assoc, Option.or_self]
    · next hn =>
      have hown : own e k = none := by rw [own, unpack, if_neg hn]
      rw [hown]

theorem get?_repeated (j : Json) (k : String) :
    (repeated j).get? k = if k = "tasks" then (j.get? k).map (repeatItems j) else j.get? k := by
  cases j with
  | object ms =>
    show (ms.map _).reverse.lookup k = if k = "tasks" then (ms.reverse.lookup k).map _ else ms.reverse.lookup k
    rw [← List.map_reverse]
    induction ms.reverse with
    | nil => simp
    | cons m l ih =>
      rw [List.map_cons]
      by_cases hm : k = m.1
      · subst hm
        split
        · next ht => rw [List.lookup_cons_self, List.lookup_cons, beq_self_eq_true]; rfl
        · next ht => rw [List.lookup_cons, List.lookup_cons, beq_self_eq_true]
      · have hne : (if m.1 = "tasks" then (m.1, repeatItems (object ms) m.2) else m).1 = m.1 := by
          split <;> rfl
        rw [List.lookup_cons, hne, beq_false_of_ne hm, List.lookup_cons, beq_false_of_ne hm]
        exact ih
  | string | array | other => simp [repeated, get?]

theorem global_repeated (j : Json) (k : String) : global (repeated j) k = global j k := by
  have hget (k : String) (hk : k ∈ globalKeys) : (repeated j).get? k = j.get? k := by
    rw [get?_repeated, if_neg]
    rintro rfl
    revert hk
    decide
  have hkeys : globalKeys.takeWhile (repeated j).acceptsText = globalKeys.takeWhile j.acceptsText :=
    takeWhile_congr fun k hk => by rw [acceptsText, hget k hk, acceptsText]
  rw [global, global, unpack, unpack, hkeys]
  split
  · next hk => rw [getText?, getText?, hget k (List.takeWhile_sublist _ |>.subset hk)]
  · rfl

theorem readHeader_repeated (srv : Server) (j : Json) : readHeader srv (repeated j) = readHeader srv j := by
  unfold readHeader
  simp only [global_repeated]

end Repeated

/-! ## The loops -/

/-- The settings of a task, with the texts that the entry gives for two of them. -/
structure Told where
  settings : Settings
  onError : Option (List Char)
  onExit : Option (List Char)

def Task.told (t : Task) : Told := ⟨t.settings, t.onError, t.onExit⟩

/-- The task with other settings. -/
def Task.retell (F : Told → Told) (t : Task) : Task :=
  { t with
    onError := (F t.told).onError, onExit := (F t.told).onExit,
    retryNum := (F t.told).settings.retry.retryNum, backoffTime := (F t.told).settings.retry.backoffTime,
    backoffType := (F t.told).settings.retry.backoffType, exitAction := (F t.told).settings.exitAction,
    run := (F t.told).settings.run, save := (F t.told).settings.save, checkpoint := (F t.told).settings.checkpoint }

section Passing

variable {w : Workflow} {r : Resource} {t u : Task} {f : Task → Except Failure Task} {F : Told → Told}

/-- A loop that neither reads nor changes the settings. -/
def Blind (f : Task → Except Failure Task) : Prop := ∀ F t, f (t.retell F) = (f t).map (Task.retell F)

theorem substituted_retell (n : Int) (t : Task) (v : Option (List Char)) :
    substituted r n (t.retell F) v = (substituted r n t v).retell F := by
  cases v <;> cases r <;> rfl

theorem appended_retell (key value : List Char) (t : Task) (v : Option (List Char)) :
    appended key value (t.retell F) v = (appended key value t v).retell F := by
  unfold appended
  split <;> rfl

theorem map_findArgument {α β : Type} (g : α → β) (h : Option (List Char) → α) (h' : Option (List Char) → β)
    (hg : ∀ v, h' v = g (h v)) (x : Except Failure (Option (List Char))) : x.map h' = (x.map h).map g := by
  cases x with
  | error e => rfl
  | ok v => exact congrArg Except.ok (hg v)

theorem blind_substituteResource (r : Resource) (n : Int) : Blind (substituteResource r n) := by
  intro F t
  unfold substituteResource
  show (if t.arguments = [] then _ else _) = _
  split
  · cases r <;> rfl
  · exact map_findArgument _ _ _ (substituted_retell _ t) _

theorem nonnegative_retell (r : Resource) (t : Task) :
    nonnegative r (t.retell F) = (nonnegative r t).map (Task.retell F) := by
  have hget : r.get (t.retell F) = r.get t := by cases r <;> rfl
  unfold nonnegative
  rw [hget]
  split <;> rfl

theorem blind_finalizeResource (r : Resource) : Blind (finalizeResource r) := by
  intro F t
  have hget : r.get (t.retell F) = r.get t := by cases r <;> rfl
  have hset (n : Int) : r.set n (t.retell F) = (r.set n t).retell F := by cases r <;> rfl
  unfold finalizeResource
  rw [hget]
  split
  · show (findArgument r.key t.arguments).bind _ = _
    cases findArgument r.key t.arguments with
    | error e => rfl
    | ok v =>
      cases v with
      | none => exact nonnegative_retell r t
      | some v =>
        show nonnegative r (r.set (readInt v) (t.retell F)) = _
        rw [hset]
        exact nonnegative_retell r _
  · exact nonnegative_retell r t

theorem blind_substituteVar (key value : List Char) : Blind (substituteVar key value) :=
  fun _ t => map_findArgument _ _ _ (appended_retell key value t) _

theorem blind_substituteCube (pid : List Char) : Blind (substituteCube pid) := by
  intro F t
  refine map_findArgument _ _ _ (fun v => ?_) _
  show (if embeddedOnly t.deps then _ else _) = _
  split
  · exact appended_retell _ pid t v
  · rfl

theorem finalizeType_retell (t : Task) : finalizeType (t.retell F) = (finalizeType t).retell F := by
  have htype : (t.retell F).type = t.type := rfl
  unfold finalizeType
  rw [htype]
  split <;> rfl

theorem blind_of_mem_stages (hf : f ∈ stages w) : Blind f := by
  have hresource (r : Resource) (hf : f ∈ resourceStages w r) : Blind f := by
    unfold resourceStages at hf
    rcases List.mem_append.mp hf with hf | hf
    · split at hf
      · cases List.mem_singleton.mp hf
        exact blind_substituteResource r _
      · cases hf
    · cases List.mem_singleton.mp hf
      exact blind_finalizeResource r
  have hvar (key : List Char) (value : Option (List Char)) (hf : f ∈ (value.map (substituteVar key)).toList) :
      Blind f := by
    obtain ⟨v, -, rfl⟩ := Option.map_eq_some_iff.mp (Option.mem_toList.mp hf)
    exact blind_substituteVar key v
  simp only [stages, List.mem_append] at hf
  rcases hf with (((((((hf | hf) | hf) | hf) | hf) | hf) | hf) | hf)
  · exact hresource _ hf
  · exact hresource _ hf
  · exact hresource _ hf
  · exact hvar _ _ hf
  · exact hvar _ _ hf
  · exact hvar _ _ hf
  · obtain ⟨v, -, rfl⟩ := Option.map_eq_some_iff.mp (Option.mem_toList.mp hf)
    exact blind_substituteCube v
  · cases List.mem_singleton.mp hf
    exact fun F t => congrArg Except.ok (finalizeType_retell t)

theorem settings_of_blind (hf : Blind f) (h : f t = .ok u) : u.settings = t.settings := by
  have hsame : t.retell (fun _ => t.told) = t := rfl
  have hu := hf (fun _ => t.told) t
  rw [hsame, h] at hu
  have heq : u = u.retell fun _ => t.told := Except.ok.inj hu
  rw [heq]
  rfl

theorem settings_of_runStages {fs : List (Task → Except Failure Task)} (hfs : ∀ f ∈ fs, Blind f)
    (h : runStages fs t = .ok u) : u.settings = t.settings := by
  induction fs generalizing t with
  | nil =>
    cases h
    rfl
  | cons f fs ih =>
    obtain ⟨v, hv, h⟩ := runStages_cons_eq_ok_iff.mp h
    rw [ih (fun g hg => hfs g (List.mem_cons_of_mem _ hg)) h, settings_of_blind (hfs f List.mem_cons_self) hv]

theorem passDown_retell {fs : List (Task → Except Failure Task)} (hfs : ∀ f ∈ fs, Blind f) (ts : List Task) :
    passDown fs (ts.map (Task.retell F)) = (passDown fs ts).map (List.map (Task.retell F)) := by
  induction fs generalizing ts with
  | nil => rfl
  | cons f fs ih =>
    have hmap : (ts.map (Task.retell F)).mapM f = (ts.mapM f).map (List.map (Task.retell F)) := by
      rw [map_mapM, List.mapM_map]
      exact congrArg (List.mapM · ts) (funext (hfs f List.mem_cons_self F))
    unfold passDown at ih ⊢
    rw [List.foldlM_cons, List.foldlM_cons, hmap]
    cases ts.mapM f with
    | error e => rfl
    | ok us => exact ih (fun g hg => hfs g (List.mem_cons_of_mem _ hg)) us

end Passing

/-! ## Requests -/

section Requests

variable {srv : Server} {j e : Json} {i : Nat} {w : Workflow} {t u : Task} {s g : Option (List Char)}

/-- The checkpoint of the workflow is to be inherited, but the missing one of the entry is copied. -/
def CopiesNull (j e : Json) : Prop := nonempty (global j "checkpoint") ≠ none ∧ own e "checkpoint" = none

theorem required_ne_null (s : Option (List Char)) : required s ≠ .error .nullPointer := by cases s <;> nofun

theorem choose_ne_null {α : Type} (text : α → List Char) (choices : List α) (s : List Char) :
    choose text choices s ≠ .error .nullPointer := by
  unfold choose
  cases choices.find? _ <;> nofun

theorem readFlag_ne_null (s : Option (List Char)) : readFlag s ≠ .error .nullPointer := by
  unfold readFlag
  cases nonempty s with
  | none => nofun
  | some c => exact choose_ne_null _ _ _

theorem readOnExit_ne_null (s : Option (List Char)) : readOnExit s ≠ .error .nullPointer := by
  unfold readOnExit
  cases nonempty s with
  | none => nofun
  | some c => exact choose_ne_null _ _ _

theorem readOnError_ne_null (base : Int) (s : Option (List Char)) : readOnError base s ≠ .error .nullPointer := by
  cases s with
  | none => nofun
  | some c =>
    unfold readOnError
    dsimp only
    repeat' split
    all_goals nofun

theorem readType_ne_null (s : Option (List Char)) (operator : List Char) :
    readType s operator ≠ .error .nullPointer := by
  intro h
  unfold readType at h
  rcases bind_eq_error_iff.mp h with h | ⟨type, -, h⟩
  · cases s with
    | none => cases h
    | some c => exact choose_ne_null _ _ _ h
  · split at h <;> cases h

theorem readArgument_ne_null (j : Json) : readArgument j ≠ .error .nullPointer := by
  unfold readArgument
  split
  · nofun
  · cases cutAt '=' _ <;> nofun

theorem readDeps_ne_null (auto : Nat) (js : List Json) : readDeps auto js ≠ .error .nullPointer := by
  induction js generalizing auto with
  | nil => nofun
  | cons j js ih =>
    intro h
    rcases bind_eq_error_iff.mp h with h | ⟨d, -, h⟩
    · rcases bind_eq_error_iff.mp h with h | ⟨name, -, h⟩
      · exact required_ne_null _ h
      · rcases bind_eq_error_iff.mp h with h | ⟨type, -, h⟩
        · cases hd : j.unpack depKeys "type" with
          | none =>
            rw [hd] at h
            cases h
          | some c =>
            rw [hd] at h
            exact choose_ne_null _ _ _ h
        · cases h
    · rcases bind_eq_error_iff.mp h with h | ⟨ds, -, h⟩
      · exact ih _ h
      · cases h

theorem readCheckpoint_ne_null (s : Option (List Char)) : readCheckpoint s ≠ .error .nullPointer := by
  unfold readCheckpoint
  split <;> nofun

theorem readTaskCheckpoint_eq_null_iff : readTaskCheckpoint g s = .error .nullPointer ↔ g ≠ none ∧ s = none := by
  unfold readTaskCheckpoint
  constructor
  · intro h
    rcases bind_eq_error_iff.mp h with h | ⟨c, -, h⟩
    · exact absurd h (readCheckpoint_ne_null s)
    · cases c with
      | some c => cases h
      | none =>
        cases g with
        | none => cases h
        | some c =>
          cases s with
          | none => exact ⟨nofun, rfl⟩
          | some d => cases h
  · rintro ⟨hg, rfl⟩
    obtain ⟨c, rfl⟩ := Option.ne_none_iff_exists'.mp hg
    rfl

theorem copiesNull_of_readTask (h : readTask srv j i e = .error .nullPointer) : CopiesNull j e := by
  unfold readTask at h
  rcases bind_eq_error_iff.mp h with h | ⟨name, -, h⟩
  · exact absurd h (required_ne_null _)
  rcases bind_eq_error_iff.mp h with h | ⟨operator, -, h⟩
  · exact absurd h (required_ne_null _)
  rcases bind_eq_error_iff.mp h with h | ⟨type, -, h⟩
  · exact absurd h (readType_ne_null _ _)
  rcases bind_eq_error_iff.mp h with h | ⟨arguments, -, h⟩
  · obtain ⟨before, a, after, -, -, ha⟩ := mapM_eq_error_iff.mp h
    exact absurd ha (readArgument_ne_null a)
  rcases bind_eq_error_iff.mp h with h | ⟨deps, -, h⟩
  · exact absurd h (readDeps_ne_null _ _)
  rcases bind_eq_error_iff.mp h with h | ⟨retry, -, h⟩
  · exact absurd h (readOnError_ne_null _ _)
  rcases bind_eq_error_iff.mp h with h | ⟨exitAction, -, h⟩
  · exact absurd h (readOnExit_ne_null _)
  rcases bind_eq_error_iff.mp h with h | ⟨run, -, h⟩
  · exact absurd h (readFlag_ne_null _)
  rcases bind_eq_error_iff.mp h with h | ⟨save, -, h⟩
  · exact absurd h (readFlag_ne_null _)
  rcases bind_eq_error_iff.mp h with h | ⟨checkpoint, -, h⟩
  · exact readTaskCheckpoint_eq_null_iff.mp h
  · cases h

theorem readTask_ne_ok (h : CopiesNull j e) : readTask srv j i e ≠ .ok t := by
  intro ht
  have hc := (readTask_eq_ok_iff.mp ht).checkpoint
  rw [readTaskCheckpoint_eq_null_iff.mpr h] at hc
  cases hc

/-- The task without the texts that the entry gives for `on_error` and `on_exit`. -/
def Task.untold : Task → Task := Task.retell fun s => { s with onError := none, onExit := none }

theorem readTaskCheckpoint_repeatIn (h : ¬ CopiesNull j e) :
    readTaskCheckpoint (nonempty (global j "checkpoint")) (own (repeatIn j e) "checkpoint") =
      readTaskCheckpoint (nonempty (global j "checkpoint")) (own e "checkpoint") := by
  have hor := own_repeatIn_or (k := "checkpoint") (by decide) j e
  cases hown : own e "checkpoint" with
  | some c =>
    obtain hobj | hobj := Bool.eq_false_or_eq_true (isObject e)
    · have hmem : "checkpoint" ∈ taskKeys.takeWhile e.acceptsText := by
        by_contra hn
        rw [own, unpack, if_neg hn] at hown
        cases hown
      rw [own_repeatIn hobj, if_pos hmem, hown, Option.some_or]
    · rw [repeatIn_of_not_object hobj, hown]
  | none =>
    have hg : nonempty (global j "checkpoint") = none := by
      by_contra hg
      exact h ⟨hg, hown⟩
    rw [hown, Option.none_or] at hor
    rw [hg]
    -- what is repeated is empty
    cases hrep : own (repeatIn j e) "checkpoint" with
    | none => rfl
    | some c =>
      rw [hrep, Option.some_or] at hor
      rw [← hor] at hg
      rw [readTaskCheckpoint, readCheckpoint, hg]
      rfl

theorem readTask_repeatIn (h : readTask srv j i e ≠ .error .nullPointer) :
    (readTask srv j i e).map Task.untold = (readTask srv (repeated j) i (repeatIn j e)).map Task.untold := by
  have hown (k : String) (hk : k ∉ inheritedKeys) := own_repeatIn_of_not_inherited hk j e
  have hor (k : String) (hk : k ∈ inheritedKeys) := own_repeatIn_or hk j e
  unfold readTask at h ⊢
  simp only [global_repeated]
  rw [hown "name" (by decide), hown "operator" (by decide), hown "type" (by decide),
    itemsOf_repeatIn (k := "arguments") (by decide), itemsOf_repeatIn (k := "dependencies") (by decide),
    itemsOf_repeatIn (k := "variables") (by decide), hor "on_error" (by decide), hor "on_exit" (by decide),
    hor "run" (by decide), hor "save" (by decide)]
  refine map_bind_congr h fun name h => map_bind_congr h fun operator h => map_bind_congr h fun type h =>
    map_bind_congr h fun arguments h => map_bind_congr h fun deps h => map_bind_congr h fun retry h =>
    map_bind_congr h fun exitAction h => map_bind_congr h fun run h => map_bind_congr h fun save h => ?_
  have hnull : ¬ CopiesNull j e := fun hn => h (bind_eq_error_iff.mpr (.inl (readTaskCheckpoint_eq_null_iff.mpr hn)))
  rw [readTaskCheckpoint_repeatIn hnull]
  exact map_bind_congr h fun checkpoint _ => rfl

theorem readTasks_repeatIn {l : List Json} (h : l.zipIdx.mapM (fun p => readTask srv j p.2 p.1) ≠ .error .nullPointer) :
    (l.zipIdx.mapM fun p => readTask srv j p.2 p.1).map (List.map Task.untold) =
      ((l.map (repeatIn j)).zipIdx.mapM fun p => readTask srv (repeated j) p.2 p.1).map (List.map Task.untold) := by
  rw [List.zipIdx_map, List.mapM_map, map_mapM, map_mapM]
  refine mapM_congr (e := .nullPointer) (fun he => h ?_) fun p _ hp => readTask_repeatIn fun he => hp (by rw [he]; rfl)
  rw [← map_mapM] at he
  exact map_eq_error_iff.mp he

theorem readAll_repeated (h : readAll srv j ≠ .error .nullPointer) :
    (readAll srv j).map (Prod.map id (List.map Task.untold)) =
      (readAll srv (repeated j)).map (Prod.map id (List.map Task.untold)) := by
  have hpair (w : Workflow) (x : Except Failure (List Task)) :
      (x >>= fun ts => Except.ok (w, ts)).map (Prod.map id (List.map Task.untold)) =
        (x.map (List.map Task.untold)).map (Prod.mk w) := by
    cases x <;> rfl
  unfold readAll at h ⊢
  rw [readHeader_repeated, get?_repeated, if_pos rfl]
  refine map_bind_congr h fun w h => ?_
  cases ha : j.get? "tasks" with
  | none =>
    have hnone (k : Json → Except Failure (Workflow × List Task)) :
        ((none : Option Json).elim (.error (.exit .genericError)) .ok >>= k) = .error (.exit .genericError) := rfl
    rw [Option.map_none, hnone, hnone]
  | some a =>
    rw [ha] at h
    have hitems : (repeatItems j a).items = a.items.map (repeatIn j) := by cases a <;> rfl
    change (if a.items = [] then _ else _) ≠ _ at h
    show Except.map _ (if a.items = [] then _ else _) = Except.map _ (if (repeatItems j a).items = [] then _ else _)
    rw [hitems]
    by_cases hnil : a.items = []
    · rw [if_pos hnil, hnil, List.map_nil, if_pos rfl]
    · rw [if_neg hnil] at h
      rw [if_neg hnil, if_neg (by simpa using hnil)]
      refine (hpair w _).trans (Eq.trans ?_ (hpair w _).symm)
      rw [readTasks_repeatIn]
      intro he
      rw [he] at h
      exact h rfl

theorem same_of_safe (h : readAll srv j ≠ .error .nullPointer) :
    (loadJson srv j).map (fun w => w.tasks.map Task.settings) =
      (loadJson srv (repeated j)).map fun w => w.tasks.map Task.settings := by
  -- the settings are those of the tasks without the texts, with which the loops get along
  have hset (j : Json) : (loadJson srv j).map (fun w => w.tasks.map Task.settings) =
      (readAll srv j).map (Prod.map id (List.map Task.untold)) >>= fun p =>
        (passDown (stages p.1) p.2).map (List.map Task.settings) := by
    rw [loadJson_eq]
    cases readAll srv j with
    | error e => rfl
    | ok p =>
      dsimp only [bind, Except.bind, Except.map, Prod.map, id]
      rw [Task.untold, passDown_retell fun f hf => blind_of_mem_stages hf]
      cases passDown (stages p.1) p.2 with
      | error e => rfl
      | ok ts =>
        show Except.ok (ts.map Task.settings) = Except.ok ((ts.map _).map Task.settings)
        rw [List.map_map]
        rfl
  rw [hset, hset, readAll_repeated h]

/-- Of the entries before the first one with a null checkpoint, and that one itself, one is refused for another
reason. -/
def Guarded (srv : Server) (j : Json) : Prop :=
  ∀ w, readHeader srv j = .ok w → ∀ before p after, (itemsOf j "tasks").zipIdx = before ++ p :: after →
    CopiesNull j p.1 → ∃ q ∈ before ++ [p], ∃ c, readTask srv j q.2 q.1 = .error (.exit c)

theorem readHeader_ne_null (srv : Server) (j : Json) : readHeader srv j ≠ .error .nullPointer := by
  intro h
  unfold readHeader at h
  rcases bind_eq_error_iff.mp h with h | ⟨name, -, h⟩
  · exact required_ne_null _ h
  rcases bind_eq_error_iff.mp h with h | ⟨checkpoint, -, h⟩
  · exact readCheckpoint_ne_null _ h
  rcases bind_eq_error_iff.mp h with h | ⟨run, -, h⟩
  · exact readFlag_ne_null _ h
  rcases bind_eq_error_iff.mp h with h | ⟨save, -, h⟩
  · exact readFlag_ne_null _ h
  rcases bind_eq_error_iff.mp h with h | ⟨outputFormat, -, h⟩
  · unfold readOutputFormat at h
    cases hs : nonempty (global j "output_format") with
    | none =>
      rw [hs] at h
      cases h
    | some c =>
      rw [hs] at h
      exact choose_ne_null _ _ _ h
  rcases bind_eq_error_iff.mp h with h | ⟨directOutput, -, h⟩
  · unfold readDirectOutput at h
    cases hs : nonempty (global j "direct_output") with
    | none =>
      rw [hs] at h
      cases h
    | some c =>
      rw [hs] at h
      exact choose_ne_null _ _ _ h
  · cases h

theorem readAll_eq_null_iff : readAll srv j = .error .nullPointer ↔
    (∃ w, readHeader srv j = .ok w) ∧
      (itemsOf j "tasks").zipIdx.mapM (fun p => readTask srv j p.2 p.1) = .error .nullPointer := by
  unfold readAll
  rw [bind_eq_error_iff, or_iff_right (readHeader_ne_null srv j), ← exists_and_right]
  refine exists_congr fun w => and_congr_right fun _ => ?_
  unfold itemsOf
  cases j.get? "tasks" with
  | none => exact iff_of_false nofun nofun
  | some a =>
    show (if a.items = [] then _ else _) = _ ↔ a.items.zipIdx.mapM _ = _
    split
    · next hnil =>
      rw [hnil]
      exact iff_of_false nofun nofun
    · rw [bind_eq_error_iff]
      refine or_iff_left ?_
      rintro ⟨ts, -, h⟩
      cases h

theorem safe_iff : readAll srv j ≠ .error .nullPointer ↔ Guarded srv j := by
  rw [Ne, readAll_eq_null_iff]
  constructor
  · intro h w hw before p after hp hnull
    by_contra hn
    push Not at hn
    refine h ⟨⟨w, hw⟩, ?_⟩
    -- the entries up to this one are not all read, and none of them is refused with an exit code
    rw [hp, List.append_cons, List.mapM_append]
    cases hm : (before ++ [p]).mapM fun p => readTask srv j p.2 p.1 with
    | error e =>
      obtain ⟨done, q, rest, hq, -, he⟩ := mapM_eq_error_iff.mp hm
      have hmem : q ∈ before ++ [p] := by
        rw [hq]
        exact List.mem_append_right _ List.mem_cons_self
      cases e with
      | exit c => exact absurd he (hn q hmem c)
      | nullPointer => rfl
    | ok ts =>
      obtain ⟨t, -, ht⟩ := exists_of_forall₂_of_mem (mapM_eq_ok_iff.mp hm) (List.mem_append_right _ List.mem_cons_self)
      exact absurd ht (readTask_ne_ok hnull)
  · rintro h ⟨⟨w, hw⟩, hm⟩
    obtain ⟨before, p, after, hp, hbefore, he⟩ := mapM_eq_error_iff.mp hm
    obtain ⟨q, hq, c, hc⟩ := h w hw before p after hp (copiesNull_of_readTask he)
    rcases List.mem_append.mp hq with hq | hq
    · obtain ⟨t, ht⟩ := hbefore q hq
      cases hc.symm.trans ht
    · cases List.mem_singleton.mp hq
      cases hc.symm.trans he

/-- No setting is hidden behind a member that is not a text, unless it makes no difference. -/
structure Shown (srv : Server) (j e : Json) : Prop where
  retry : readOnError srv.baseBackoff (effective j e "on_error") = readOnError srv.baseBackoff (found j e "on_error")
  exitAction : readOnExit (effective j e "on_exit") = readOnExit (found j e "on_exit")
  run : readFlag (effective j e "run") = readFlag (found j e "run")
  save : readFlag (effective j e "save") = readFlag (found j e "save")
  checkpoint : nonempty (effective j e "checkpoint") = nonempty (found j e "checkpoint")

theorem nonempty_readTaskCheckpoint {c : Option (List Char)} (h : readTaskCheckpoint (nonempty g) s = .ok c) :
    nonempty (s.or g) = nonempty c := by
  obtain ⟨d, hd, h⟩ := bind_eq_ok_iff.mp h
  obtain ⟨rfl, -⟩ := readCheckpoint_eq_ok_iff.mp hd
  cases hs : s with
  | none =>
    subst hs
    cases hg : nonempty g with
    | none =>
      rw [hg] at h
      cases h
      exact hg
    | some b =>
      rw [hg] at h
      cases h
  | some a =>
    rw [Option.some_or]
    cases hn : nonempty (some a) with
    | some b =>
      rw [hs, hn] at h
      cases h
      rw [← hn, nonempty_nonempty]
    | none =>
      rw [hs, hn] at h
      cases hg : nonempty g with
      | none =>
        rw [hg] at h
        cases h
        rfl
      | some b =>
        rw [hg] at h
        cases h
        exact hn.symm

theorem takesEffect_iff (hr : Reads srv j i e t) (hu : u.settings = t.settings) :
    TakesEffect srv j e u ↔ Shown srv j e := by
  have hretry : readOnError srv.baseBackoff (found j e "on_error") = .ok u.settings.retry := hu ▸ hr.retry
  have hexit : readOnExit (found j e "on_exit") = .ok u.settings.exitAction := hu ▸ hr.exitAction
  have hrun : readFlag (found j e "run") = .ok u.settings.run := hu ▸ hr.run
  have hsave : readFlag (found j e "save") = .ok u.settings.save := hu ▸ hr.save
  have hcheckpoint : nonempty (found j e "checkpoint") = nonempty u.settings.checkpoint := by
    rw [hu]
    exact nonempty_readTaskCheckpoint hr.checkpoint
  constructor
  · rintro ⟨hretry', hexit', hrun', hsave', hcheckpoint'⟩
    exact ⟨hretry'.trans hretry.symm, hexit'.trans hexit.symm, hrun'.trans hrun.symm, hsave'.trans hsave.symm,
      hcheckpoint'.trans hcheckpoint.symm⟩
  · rintro ⟨hretry', hexit', hrun', hsave', hcheckpoint'⟩
    exact ⟨hretry'.trans hretry, hexit'.trans hexit, hrun'.trans hrun, hsave'.trans hsave,
      hcheckpoint'.trans hcheckpoint⟩

theorem effect_iff (h : loadJson srv j = .ok w) :
    List.Forall₂ (TakesEffect srv j) (itemsOf j "tasks") w.tasks ↔ ∀ e ∈ itemsOf j "tasks", Shown srv j e := by
  refine forall₂_iff_forall_mem ((loadedFrom_of_loadJson h).forall₂_entries.imp ?_)
  rintro e u ⟨i, t, hr, hu⟩
  exact takesEffect_iff hr (settings_of_runStages (fun f hf => blind_of_mem_stages hf) hu)

/-- A task has to give a checkpoint if the workflow does, and no setting is to be hidden. -/
theorem inherits_iff (srv : Server) (j : Json) :
    Inherits srv j ↔
      Guarded srv j ∧ ∀ w, loadJson srv j = .ok w → ∀ e ∈ itemsOf j "tasks", Shown srv j e := by
  constructor
  · intro h
    exact ⟨safe_iff.mp h.safe, fun w hw => (effect_iff hw).mp (h.effect w hw)⟩
  · rintro ⟨hsafe, hshown⟩
    exact ⟨safe_iff.mpr hsafe, same_of_safe (safe_iff.mpr hsafe), fun w hw => (effect_iff hw).mpr (hshown w hw)⟩

/-- Only the workflow has a checkpoint. -/
def inheritedCheckpoint : Json :=
  .object [("name", .string "w".toList), ("checkpoint", .string "c1".toList),
    ("tasks", .array [.object [("name", .string "A".toList), ("operator", .string "oph_list".toList)]])]

theorem not_inherits_inheritedCheckpoint : ¬ ∀ srv j, Inherits srv j := by
  intro h
  have hload : loadJson {} inheritedCheckpoint = .error .nullPointer := by decide +kernel
  rw [loadJson_eq] at hload
  rcases bind_eq_error_iff.mp hload with hread | ⟨⟨w, ts⟩, hread, hpass⟩
  · exact (h {} inheritedCheckpoint).safe hread
  · have herr : (readAll {} inheritedCheckpoint).isOk = false := by decide +kernel
    rw [hread] at herr
    cases herr

end Requests

end OphidiaWorkflow.Request
