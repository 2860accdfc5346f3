import OphidiaWorkflow.Request.Amounts

/-!
The null pointers among the arguments of a request: an item of an array of arguments that is not a text leaves its key
and its value null, and the loops that hand the settings down compare all the keys.
-/
namespace OphidiaWorkflow.Request

open Json Lib

/-- `oph_workflow_load` up to the loops that hand the settings down. -/
def readAll (srv : Server) (j : Json) : Except Failure (Workflow × List Task) := do
  let w ← readHeader srv j
  let tasks ← (j.get? "tasks").elim (.error (.exit .genericError)) .ok
  if tasks.items = [] then .error badParam
  else do
    let ts ← tasks.items.zipIdx.mapM fun p => readTask srv j p.2 p.1
    .ok (w, ts)

/-- The loops that hand the settings down. -/
def passDown (fs : List (Task → Except Failure Task)) (ts : List Task) : Except Failure (List Task) :=
  fs.foldlM (fun ts f => ts.mapM f) ts

section Loops

variable {w : Workflow} {r : Resource} {t u : Task} {as : Arguments} {key : List Char}
  {f : Task → Except Failure Task} {c : ExitCode}

theorem findArgument_ne_error (h : none ∉ as) (e : Failure) : findArgument key as ≠ .error e := by
  induction as with
  | nil =>
    intro hf
    cases hf
  | cons a as ih =>
    cases a with
    | none => exact absurd List.mem_cons_self h
    | some kv =>
      rw [findArgument]
      split
      · intro hf
        cases hf
      · exact ih fun hm => h (List.mem_cons_of_mem _ hm)

theorem not_mem_removeArgument (h : none ∉ as) : none ∉ removeArgument key as := by
  intro hm
  unfold removeArgument at hm
  rcases List.mem_append.mp hm with hm | hm
  · exact Bool.false_ne_true (List.mem_filter.mp hm).2
  · exact h (List.mem_of_mem_eraseP (List.mem_of_mem_filter hm))

theorem map_eq_error_iff {α β ε : Type} {g : α → β} {x : Except ε α} {e : ε} : x.map g = .error e ↔ x = .error e := by
  cases x <;> simp [Except.map]

/-- A loop without null pointers: it leaves none, and stops at a negative number only. -/
structure Safe (f : Task → Except Failure Task) : Prop where
  keeps : ∀ t u, none ∉ t.arguments → f t = .ok u → none ∉ u.arguments
  passes : ∀ t, none ∉ t.arguments → f t ≠ .error .nullPointer

theorem safe_substituteResource (r : Resource) (n : Int) : Safe (substituteResource r n) := by
  constructor
  · intro t u ht hu
    unfold substituteResource at hu
    split at hu
    · cases hu
      cases r <;> exact ht
    · obtain ⟨found, -, rfl⟩ := map_eq_ok_iff.mp hu
      cases found with
      | none =>
        rw [substituted, set_arguments]
        exact ht
      | some v => exact not_mem_removeArgument ht
  · intro t ht hu
    unfold substituteResource at hu
    split at hu
    · cases hu
    · exact findArgument_ne_error ht _ (map_eq_error_iff.mp hu)

theorem nonnegative_eq_error_iff {e : Failure} :
    nonnegative r t = .error e ↔ r.get t < 0 ∧ e = .exit .genericError := by
  unfold nonnegative
  split
  · next h => exact ⟨fun he => ⟨h, (Except.error.inj he).symm⟩, fun he => congrArg Except.error he.2.symm⟩
  · next h => exact iff_of_false nofun fun he => h he.1

theorem safe_finalizeResource (r : Resource) : Safe (finalizeResource r) := by
  constructor
  · intro t u ht hu
    rw [arguments_finalizeResource hu]
    exact ht
  · intro t ht hu
    unfold finalizeResource at hu
    split at hu
    · rcases bind_eq_error_iff.mp hu with hu | ⟨v, -, hu⟩
      · exact findArgument_ne_error ht _ hu
      · exact absurd (nonnegative_eq_error_iff.mp hu).2 nofun
    · exact absurd (nonnegative_eq_error_iff.mp hu).2 nofun

theorem not_mem_appended {value : List Char} {found : Option (List Char)} (h : none ∉ t.arguments) :
    none ∉ (appended key value t found).arguments := by
  unfold appended
  split
  · exact h
  · intro hm
    rcases List.mem_append.mp hm with hm | hm
    · exact h hm
    · cases List.mem_singleton.mp hm

theorem safe_substituteVar (key value : List Char) : Safe (substituteVar key value) := by
  constructor
  · intro t u ht hu
    obtain ⟨found, -, rfl⟩ := map_eq_ok_iff.mp hu
    exact not_mem_appended ht
  · intro t ht hu
    exact findArgument_ne_error ht _ (map_eq_error_iff.mp hu)

theorem safe_substituteCube (pid : List Char) : Safe (substituteCube pid) := by
  constructor
  · intro t u ht hu
    obtain ⟨found, -, rfl⟩ := map_eq_ok_iff.mp hu
    split
    · exact not_mem_appended ht
    · exact ht
  · intro t ht hu
    exact findArgument_ne_error ht _ (map_eq_error_iff.mp hu)

theorem not_mem_finalizeType (h : none ∉ t.arguments) : none ∉ (finalizeType t).arguments := by
  have hcommand (kv : List Char × List Char) : none ∉ t.arguments ++ [some kv] := by
    intro hm
    rcases List.mem_append.mp hm with hm | hm
    · exact h hm
    · cases List.mem_singleton.mp hm
  unfold finalizeType
  split
  · exact h
  · exact h
  · exact hcommand _

theorem safe_finalizeType : Safe fun t => .ok (finalizeType t) := by
  constructor
  · intro t u ht hu
    obtain rfl := Except.ok.inj hu
    exact not_mem_finalizeType ht
  · intro t _ hu
    exact Except.noConfusion rfl rfl (heq_of_eq hu)

theorem safe_of_mem_stages (hf : f ∈ stages w) : Safe f := by
  have hresource (r : Resource) (hf : f ∈ resourceStages w r) : Safe f := by
    unfold resourceStages at hf
    rcases List.mem_append.mp hf with hf | hf
    · split at hf
      · cases List.mem_singleton.mp hf
        exact safe_substituteResource r _
      · cases hf
    · cases List.mem_singleton.mp hf
      exact safe_finalizeResource r
  have hvar (key : List Char) (value : Option (List Char)) (hf : f ∈ (value.map (substituteVar key)).toList) :
      Safe f := by
    obtain ⟨v, -, rfl⟩ := Option.map_eq_some_iff.mp (Option.mem_toList.mp hf)
    exact safe_substituteVar key v
  simp only [stages, List.mem_append] at hf
  rcases hf with (((((((hf | hf) | hf) | hf) | hf) | hf) | hf) | hf)
  · exact hresource _ hf
  · exact hresource _ hf
  · exact hresource _ hf
  · exact hvar _ _ hf
  · exact hvar _ _ hf
  · exact hvar _ _ hf
  · obtain ⟨v, -, rfl⟩ := Option.map_eq_some_iff.mp (Option.mem_toList.mp hf)
    exact safe_substituteCube v
  · cases List.mem_singleton.mp hf
    exact safe_finalizeType

theorem error_of_findArgument {e : Failure} (h : findArgument key as = .error e) : e = .nullPointer := by
  induction as with
  | nil => cases h
  | cons a as ih =>
    cases a with
    | none => exact (Except.error.inj h).symm
    | some kv =>
      rw [findArgument] at h
      split at h
      · cases h
      · exact ih h

/-- A number that the loop for the resource reads is negative. -/
def NegativeAt (r : Resource) (t : Task) : Prop :=
  r.get t < 0 ∨ r.get t = 0 ∧ ∃ v, findArgument r.key t.arguments = .ok (some v) ∧ readInt v < 0

theorem negativeAt_iff : NegativeAt r t ↔ ∃ c, finalizeResource r t = .error (.exit c) := by
  unfold NegativeAt finalizeResource
  by_cases h0 : r.get t = 0
  · rw [if_pos h0, or_iff_right (by omega), and_iff_right h0]
    constructor
    · rintro ⟨v, hv, hneg⟩
      refine ⟨.genericError, ?_⟩
      rw [hv]
      exact nonnegative_eq_error_iff.mpr ⟨by rw [Option.elim_some, get_set]; exact hneg, rfl⟩
    · rintro ⟨c, h⟩
      rcases bind_eq_error_iff.mp h with h | ⟨v, hv, h⟩
      · cases error_of_findArgument h
      · obtain ⟨hneg, -⟩ := nonnegative_eq_error_iff.mp h
        cases v with
        | none => exact absurd hneg (by rw [Option.elim_none]; omega)
        | some v =>
          rw [Option.elim_some, get_set] at hneg
          exact ⟨v, hv, hneg⟩
  · rw [if_neg h0, or_iff_left fun h => h0 h.1]
    constructor
    · intro h
      exact ⟨_, nonnegative_eq_error_iff.mpr ⟨h, rfl⟩⟩
    · rintro ⟨c, h⟩
      exact (nonnegative_eq_error_iff.mp h).1

theorem eq_finalizeResource_of_exit (hf : f ∈ stages w) (h : f t = .error (.exit c)) : ∃ r, f = finalizeResource r := by
  have hfind {β : Type} {key : List Char} {as : Arguments} {g : Option (List Char) → β}
      (h : (findArgument key as).map g = .error (.exit c)) : False := by
    cases error_of_findArgument (map_eq_error_iff.mp h)
  have hresource (r : Resource) (hf : f ∈ resourceStages w r) : ∃ r, f = finalizeResource r := by
    unfold resourceStages at hf
    rcases List.mem_append.mp hf with hf | hf
    · split at hf
      · cases List.mem_singleton.mp hf
        unfold substituteResource at h
        split at h
        · cases h
        · exact (hfind h).elim
      · cases hf
    · exact ⟨r, List.mem_singleton.mp hf⟩
  have hvar (key : List Char) (value : Option (List Char)) (hf : f ∈ (value.map (substituteVar key)).toList) :
      False := by
    obtain ⟨v, -, rfl⟩ := Option.map_eq_some_iff.mp (Option.mem_toList.mp hf)
    exact hfind h
  simp only [stages, List.mem_append] at hf
  rcases hf with (((((((hf | hf) | hf) | hf) | hf) | hf) | hf) | hf)
  · exact hresource _ hf
  · exact hresource _ hf
  · exact hresource _ hf
  · exact (hvar _ _ hf).elim
  · exact (hvar _ _ hf).elim
  · exact (hvar _ _ hf).elim
  · obtain ⟨v, -, rfl⟩ := Option.map_eq_some_iff.mp (Option.mem_toList.mp hf)
    exact (hfind h).elim
  · cases List.mem_singleton.mp hf
    cases h

end Loops

/-! ## Requests -/

section Requests

variable {srv : Server} {j : Json} {w w' : Workflow} {ts us : List Task} {fs : List (Task → Except Failure Task)}

/-- A negative number of cores, hosts or threads ends the loops before a null key is compared. -/
def StopsNegative (w : Workflow) (ts : List Task) : Prop :=
  ∃ before r after us done t rest, stages w = before ++ finalizeResource r :: after ∧ passDown before ts = .ok us ∧
    us = done ++ t :: rest ∧ (∀ u ∈ done, ∃ v, finalizeResource r u = .ok v) ∧ NegativeAt r t

theorem stopsNegative_iff : StopsNegative w ts ↔ ∃ c, passDown (stages w) ts = .error (.exit c) := by
  constructor
  · rintro ⟨before, r, after, us, done, t, rest, hstages, hbefore, hus, hdone, hneg⟩
    obtain ⟨c, hc⟩ := negativeAt_iff.mp hneg
    exact ⟨c, foldlM_eq_error_iff.mpr ⟨before, _, after, us, hstages, hbefore,
      mapM_eq_error_iff.mpr ⟨done, t, rest, hus, hdone, hc⟩⟩⟩
  · rintro ⟨c, h⟩
    obtain ⟨before, f, after, us, hstages, hbefore, h⟩ := foldlM_eq_error_iff.mp h
    obtain ⟨done, t, rest, hus, hdone, h⟩ := mapM_eq_error_iff.mp h
    have hf : f ∈ stages w := by
      rw [hstages]
      exact List.mem_append_right _ List.mem_cons_self
    obtain ⟨r, rfl⟩ := eq_finalizeResource_of_exit hf h
    exact ⟨before, r, after, us, done, t, rest, hstages, hbefore, hus, hdone, negativeAt_iff.mpr ⟨c, h⟩⟩

/-- No loop meets a null pointer among texts, nor does it leave one. -/
theorem passDown_of_safe (hfs : ∀ f ∈ fs, Safe f) (hts : ∀ t ∈ ts, none ∉ t.arguments) :
    passDown fs ts ≠ .error .nullPointer ∧ ∀ us, passDown fs ts = .ok us → ∀ u ∈ us, none ∉ u.arguments := by
  induction fs generalizing ts with
  | nil =>
    refine ⟨nofun, fun us h => ?_⟩
    cases h
    exact hts
  | cons f fs ih =>
    have hf := hfs f List.mem_cons_self
    unfold passDown at ih ⊢
    rw [List.foldlM_cons]
    cases hmap : ts.mapM f with
    | error e =>
      refine ⟨fun h => ?_, fun us h => by cases h⟩
      cases h
      obtain ⟨done, t, rest, rfl, -, ht⟩ := mapM_eq_error_iff.mp hmap
      exact hf.passes t (hts t (List.mem_append_right _ List.mem_cons_self)) ht
    | ok vs =>
      refine ih (fun g hg => hfs g (List.mem_cons_of_mem _ hg)) fun v hv => ?_
      obtain ⟨t, ht, hv⟩ := exists_of_forall₂_of_mem (mapM_eq_ok_iff.mp hmap).flip hv
      exact hf.keeps t v (hts t ht) hv

theorem none_mem_of_passDown (h : passDown (stages w) ts = .ok us) (hts : ∃ t ∈ ts, none ∈ t.arguments) :
    ∃ u ∈ us, none ∈ u.arguments := by
  obtain ⟨t, ht, hnone⟩ := hts
  obtain ⟨u, hu, hrun⟩ := exists_of_forall₂_of_mem (foldlM_mapM_eq_ok_iff.mp h) ht
  exact ⟨u, hu, none_mem_of_runStages hrun hnone⟩

theorem loadJson_eq : loadJson srv j =
    readAll srv j >>= fun p => (passDown (stages p.1) p.2).map fun ts => { p.1 with tasks := ts } := by
  unfold loadJson readAll
  cases readHeader srv j with
  | error e => rfl
  | ok w =>
    cases j.get? "tasks" with
    | none => rfl
    | some a =>
      by_cases ha : a.items = []
      · simp only [Option.elim_some, bind, Except.bind, if_pos ha]
      · simp only [Option.elim_some, bind, Except.bind, if_neg ha]
        cases a.items.zipIdx.mapM fun p => readTask srv j p.2 p.1 with
        | error e => rfl
        | ok ts =>
          dsimp only [passDown]
          cases (stages w).foldlM (fun ts f => ts.mapM f) ts <;> rfl

theorem reads_of_readAll (h : readAll srv j = .ok (w, ts)) :
    List.Forall₂ (fun e t => ∃ i, Reads srv j i e t) (itemsOf j "tasks") ts := by
  obtain ⟨h', -, h⟩ := bind_eq_ok_iff.mp h
  obtain ⟨a, ha, h⟩ := bind_eq_ok_iff.mp h
  split at h
  · cases h
  · obtain ⟨ts', hts, h⟩ := bind_eq_ok_iff.mp h
    cases h
    have hitems : itemsOf j "tasks" = a.items := by
      cases hk : j.get? "tasks" with
      | none =>
        rw [hk] at ha
        cases ha
      | some b =>
        rw [hk] at ha
        cases ha
        exact items_of_get? hk
    rw [hitems, ← List.zipIdx_map_fst 0 a.items, List.forall₂_map_left_iff]
    exact (mapM_eq_ok_iff.mp hts).imp fun p t h => ⟨p.2, readTask_eq_ok_iff.mp h⟩

theorem texts_of_readAll (h : readAll srv j = .ok (w, ts)) :
    (∀ t ∈ ts, none ∉ t.arguments) ↔ ∀ e ∈ itemsOf j "tasks", ∀ a ∈ itemsOf e "arguments", a.text?.isSome := by
  have hreads := reads_of_readAll h
  constructor
  · intro hts e he
    obtain ⟨t, ht, i, hr⟩ := exists_of_forall₂_of_mem hreads he
    exact (texts_iff hr).mp (hts t ht)
  · intro hes t ht
    obtain ⟨e, he, i, hr⟩ := exists_of_forall₂_of_mem hreads.flip ht
    exact (texts_iff hr).mpr (hes e he)

/-- No null key is compared, and no null key or value is left in an accepted workflow. -/
structure NullFree (srv : Server) (j : Json) : Prop where
  compared : ∀ w ts, readAll srv j = .ok (w, ts) → passDown (stages w) ts ≠ .error .nullPointer
  accepted : ∀ w, loadJson srv j = .ok w → ∀ t ∈ w.tasks, none ∉ t.arguments

/-- All arguments have to be texts, unless the request is refused before a null key is met. -/
theorem nullFree_iff (srv : Server) (j : Json) :
    NullFree srv j ↔ ∀ w ts, readAll srv j = .ok (w, ts) →
      (∀ e ∈ itemsOf j "tasks", ∀ a ∈ itemsOf e "arguments", a.text?.isSome) ∨ StopsNegative w ts := by
  constructor
  · intro h w ts hread
    rw [← texts_of_readAll hread, or_iff_not_imp_left]
    intro hnone
    rw [stopsNegative_iff]
    push Not at hnone
    cases hpass : passDown (stages w) ts with
    | error e =>
      cases e with
      | exit c => exact ⟨c, rfl⟩
      | nullPointer => exact absurd hpass (h.compared w ts hread)
    | ok us =>
      obtain ⟨u, hu, hnone⟩ := none_mem_of_passDown hpass hnone
      refine absurd hnone (h.accepted { w with tasks := us } ?_ u hu)
      rw [loadJson_eq, hread]
      dsimp only [bind, Except.bind]
      rw [hpass]
      rfl
  · intro h
    constructor
    · intro w ts hread hpass
      rcases h w ts hread with htexts | hstop
      · exact (passDown_of_safe (fun f hf => safe_of_mem_stages hf) ((texts_of_readAll hread).mpr htexts)).1 hpass
      · obtain ⟨c, hc⟩ := stopsNegative_iff.mp hstop
        cases hc.symm.trans hpass
    · intro w' hload
      rw [loadJson_eq] at hload
      obtain ⟨⟨w, ts⟩, hread, hload⟩ := bind_eq_ok_iff.mp hload
      obtain ⟨us, hpass, rfl⟩ := map_eq_ok_iff.mp hload
      rcases h w ts hread with htexts | hstop
      · exact (passDown_of_safe (fun f hf => safe_of_mem_stages hf) ((texts_of_readAll hread).mpr htexts)).2 us hpass
      · obtain ⟨c, hc⟩ := stopsNegative_iff.mp hstop
        cases hc.symm.trans hpass

/-- The only argument is a number. -/
def numberArgument : Json :=
  .object [("name", .string "w".toList), ("tasks", .array [.object [("name", .string "A".toList),
    ("operator", .string "oph_list".toList), ("arguments", .array [.other])]])]

theorem not_nullFree_numberArgument : ¬ ∀ srv j, NullFree srv j := by
  intro h
  have hload : loadJson {} numberArgument = .error .nullPointer := by decide +kernel
  rw [loadJson_eq] at hload
  rcases bind_eq_error_iff.mp hload with hread | ⟨⟨w, ts⟩, hread, hpass⟩
  · have hok : (readAll {} numberArgument).isOk = true := by decide +kernel
    rw [hread] at hok
    cases hok
  · exact (h {} numberArgument).compared w ts hread (map_eq_error_iff.mp hpass)

end Requests

end OphidiaWorkflow.Request
