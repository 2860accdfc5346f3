import OphidiaWorkflow.Request.Load

/-!
What the loops that hand the settings of a workflow down make of a task whose arguments are all texts.
-/
namespace OphidiaWorkflow.Request

open Json Lib

abbrev Pairs := List (List Char × List Char)

def keyed (key : List Char) (kv : List Char × List Char) : Bool := kv.1 = key

theorem keyed_eq_true_iff {key : List Char} {kv : List Char × List Char} : keyed key kv = true ↔ kv.1 = key :=
  decide_eq_true_iff

/-- The values of the arguments with that key. -/
def values (key : List Char) (as : Pairs) : List (List Char) := (as.filter (keyed key)).map Prod.snd

section Values

variable {key key' : List Char} {as bs : Pairs} {kv : List Char × List Char}

@[simp] theorem values_nil (key : List Char) : values key [] = [] := rfl

theorem values_cons_self (h : kv.1 = key) : values key (kv :: as) = kv.2 :: values key as := by
  rw [values, List.filter_cons_of_pos (keyed_eq_true_iff.mpr h)]
  rfl

theorem values_cons_ne (h : kv.1 ≠ key) : values key (kv :: as) = values key as := by
  rw [values, List.filter_cons_of_neg (mt keyed_eq_true_iff.mp h)]
  rfl

theorem values_append (key : List Char) (as bs : Pairs) : values key (as ++ bs) = values key as ++ values key bs := by
  rw [values, List.filter_append, List.map_append]
  rfl

theorem values_eq_nil_iff : values key as = [] ↔ ∀ kv ∈ as, kv.1 ≠ key := by
  simp [values, List.filter_eq_nil_iff, keyed]

theorem values_eraseP_self (key : List Char) (as : Pairs) :
    values key (as.eraseP (keyed key)) = (values key as).tail := by
  induction as with
  | nil => rfl
  | cons kv as ih =>
    by_cases h : kv.1 = key
    · rw [List.eraseP_cons_of_pos (keyed_eq_true_iff.mpr h), values_cons_self h, List.tail_cons]
    · rw [List.eraseP_cons_of_neg (mt keyed_eq_true_iff.mp h), values_cons_ne h, values_cons_ne h, ih]

theorem values_eraseP_ne (h : key' ≠ key) (as : Pairs) : values key' (as.eraseP (keyed key)) = values key' as := by
  induction as with
  | nil => rfl
  | cons kv as ih =>
    by_cases hk : kv.1 = key
    · rw [List.eraseP_cons_of_pos (keyed_eq_true_iff.mpr hk), values_cons_ne (hk ▸ h.symm)]
    · rw [List.eraseP_cons_of_neg (mt keyed_eq_true_iff.mp hk)]
      by_cases hk' : kv.1 = key'
      · rw [values_cons_self hk', values_cons_self hk', ih]
      · rw [values_cons_ne hk', values_cons_ne hk', ih]

theorem eraseP_keyed_of_values (h : values key as = []) : as.eraseP (keyed key) = as := by
  apply List.eraseP_of_forall_not
  intro kv hkv hk
  exact values_eq_nil_iff.mp h kv hkv (keyed_eq_true_iff.mp hk)

theorem findArgument_map_some (key : List Char) (as : Pairs) :
    findArgument key (as.map some) = .ok (values key as).head? := by
  induction as with
  | nil => rfl
  | cons kv as ih =>
    show (if kv.1 = key then .ok (some kv.2) else findArgument key (as.map some)) = _
    by_cases h : kv.1 = key
    · rw [if_pos h, values_cons_self h, List.head?_cons]
    · rw [if_neg h, values_cons_ne h, ih]

theorem removeArgument_map_some (key : List Char) (as : Pairs) :
    removeArgument key (as.map some) = (as.eraseP (keyed key)).map some := by
  have he : (as.map some).eraseP (fun a => a.any fun kv => decide (kv.1 = key)) = (as.eraseP (keyed key)).map some := by
    rw [List.eraseP_map]
    rfl
  rw [removeArgument, he]
  simp [List.filter_map, Function.comp_def]

end Values

section Resources

variable {r : Resource} {n : Int} {t t' : Task} {as : Pairs} {w : Workflow}

/-- The arguments that are left once the resource has been set. -/
def left (r : Resource) (n : Int) (as : Pairs) : Pairs := if n = 0 then as else as.eraseP (keyed r.key)

/-- What a resource is set to: `n` for the workflow, `m` so far, `vs` in the arguments. -/
def settled (n m : Int) (vs : List (List Char)) : Int :=
  let v := if n = 0 then m else vs.head?.elim n readInt
  if v = 0 then (if n = 0 then vs else vs.tail).head?.elim v readInt else v

theorem withArguments_self (h : t.arguments = as.map some) : t.withArguments (as.map some) = t := by
  cases t
  cases h
  rfl

@[simp] theorem set_arguments (r : Resource) (n : Int) (t : Task) : (r.set n t).arguments = t.arguments := by
  cases r <;> rfl

@[simp] theorem get_set (r : Resource) (n : Int) (t : Task) : r.get (r.set n t) = n := by
  cases r <;> rfl

@[simp] theorem set_set (r : Resource) (n m : Int) (t : Task) : r.set n (r.set m t) = r.set n t := by
  cases r <;> rfl

theorem set_get (r : Resource) (t : Task) : r.set (r.get t) t = t := by
  cases r <;> rfl

theorem set_withArguments (r : Resource) (n : Int) (t : Task) (as : Arguments) :
    r.set n (t.withArguments as) = (r.set n t).withArguments as := by
  cases r <;> rfl

theorem get_withArguments (r : Resource) (t : Task) (as : Arguments) : r.get (t.withArguments as) = r.get t := by
  cases r <;> rfl

theorem substituteResource_map_some (ht : t.arguments = as.map some) (hne : as ≠ [] ∨ r ≠ .nhost)
    (hn : toInt32 n = n) :
    substituteResource r n t =
      .ok ((r.set ((values r.key as).head?.elim n readInt) t).withArguments ((as.eraseP (keyed r.key)).map some)) := by
  unfold substituteResource
  rw [readInt_decimal hn, ht]
  by_cases has : as = []
  · rw [if_pos (by rw [has]; rfl)]
    cases r with
    | nhost => exact absurd rfl (hne.resolve_left fun h => h has)
    | ncores =>
      rw [has] at ht ⊢
      rw [List.eraseP_nil, withArguments_self (by rw [set_arguments, ht])]
      rfl
    | nthreads =>
      rw [has] at ht ⊢
      rw [List.eraseP_nil, withArguments_self (by rw [set_arguments, ht])]
      rfl
  · rw [if_neg fun h => has (List.map_eq_nil_iff.mp h), findArgument_map_some]
    cases hv : values r.key as with
    | nil =>
      rw [eraseP_keyed_of_values hv, withArguments_self (by rw [set_arguments, ht])]
      rfl
    | cons v vs =>
      show Except.ok (substituted r n t (some v)) = _
      rw [substituted, ht, removeArgument_map_some]
      rfl

theorem nonnegative_eq_ok_iff : nonnegative r t = .ok t' ↔ 0 ≤ r.get t ∧ t' = t := by
  unfold nonnegative
  split
  · next h => exact iff_of_false nofun fun hn => by omega
  · next h => exact ⟨fun he => ⟨by omega, (Except.ok.inj he).symm⟩, fun he => congrArg Except.ok he.2.symm⟩

theorem finalizeResource_map_some (ht : t.arguments = as.map some) :
    finalizeResource r t = .ok t' ↔
      0 ≤ settled 0 (r.get t) (values r.key as) ∧ t' = r.set (settled 0 (r.get t) (values r.key as)) t := by
  unfold finalizeResource settled
  simp only [if_true]
  by_cases h : r.get t = 0
  · rw [if_pos h, if_pos h, ht, findArgument_map_some]
    show nonnegative r _ = .ok t' ↔ _
    rw [nonnegative_eq_ok_iff]
    cases (values r.key as).head? with
    | none =>
      show 0 ≤ r.get t ∧ t' = t ↔ 0 ≤ r.get t ∧ t' = r.set (r.get t) t
      rw [set_get]
    | some v =>
      show 0 ≤ r.get (r.set (readInt v) t) ∧ _ ↔ _
      rw [get_set]
      rfl
  · rw [if_neg h, if_neg h, nonnegative_eq_ok_iff, set_get]

theorem settled_of_ne_zero (h : n ≠ 0) (m : Int) (vs : List (List Char)) :
    settled n m vs = settled 0 (vs.head?.elim n readInt) vs.tail := by
  simp only [settled, if_neg h, if_true]

/-- The loops over a task one after the other. -/
def runStages (fs : List (Task → Except Failure Task)) (t : Task) : Except Failure Task := fs.foldlM (fun t f => f t) t

theorem runStages_append_eq_ok_iff {fs gs : List (Task → Except Failure Task)} :
    runStages (fs ++ gs) t = .ok t' ↔ ∃ u, runStages fs t = .ok u ∧ runStages gs u = .ok t' := by
  unfold runStages
  rw [List.foldlM_append, bind_eq_ok_iff]

theorem runStages_cons_eq_ok_iff {f : Task → Except Failure Task} {fs : List (Task → Except Failure Task)} :
    runStages (f :: fs) t = .ok t' ↔ ∃ u, f t = .ok u ∧ runStages fs u = .ok t' := by
  unfold runStages
  rw [List.foldlM_cons, bind_eq_ok_iff]

theorem runStages_singleton (f : Task → Except Failure Task) (t : Task) : runStages [f] t = f t := by
  unfold runStages
  rw [List.foldlM_cons]
  cases f t <;> rfl

theorem resourceStages_eq_ok_iff (ht : t.arguments = as.map some) (hn : toInt32 (r.amount w) = r.amount w)
    (hne : r.amount w = 0 ∨ as ≠ [] ∨ r ≠ .nhost) :
    runStages (resourceStages w r) t = .ok t' ↔
      0 ≤ settled (r.amount w) (r.get t) (values r.key as) ∧
      t' = (r.set (settled (r.amount w) (r.get t) (values r.key as)) t).withArguments
        ((left r (r.amount w) as).map some) := by
  unfold resourceStages left
  by_cases h : r.amount w = 0
  · rw [if_neg (not_not.mpr h), if_pos h, h, List.nil_append, runStages_singleton, finalizeResource_map_some ht,
      withArguments_self (by rw [set_arguments, ht])]
  · rw [if_pos h, if_neg h, List.singleton_append, runStages_cons_eq_ok_iff, settled_of_ne_zero h,
      ← values_eraseP_self]
    have hsub := substituteResource_map_some ht (hne.resolve_left h) hn
    constructor
    · rintro ⟨u, hu, h⟩
      cases hsub.symm.trans hu
      rw [runStages_singleton, finalizeResource_map_some rfl, get_withArguments, get_set, set_withArguments,
        set_set] at h
      exact h
    · intro h
      refine ⟨_, hsub, ?_⟩
      rw [runStages_singleton, finalizeResource_map_some rfl, get_withArguments, get_set, set_withArguments, set_set]
      exact h

end Resources

section Handed

variable {w : Workflow} {t t' : Task} {as : Pairs} {key : List Char}

theorem values_left_ne {r : Resource} (h : key ≠ r.key) (n : Int) (as : Pairs) :
    values key (left r n as) = values key as := by
  unfold left
  split
  · rfl
  · exact values_eraseP_ne h as

/-- The arguments that stay, once all the resources have been set. -/
def remaining (w : Workflow) (as : Pairs) : Pairs :=
  left .nthreads w.nthreads (left .nhost w.nhosts (left .ncores w.ncores as))

/-- The amount of a resource that a task with these arguments gets. -/
def share (w : Workflow) (as : Pairs) (r : Resource) : Int := settled (r.amount w) 0 (values r.key as)

theorem resourceStages_fresh {r : Resource} {bs : Pairs} (ht : t.arguments = bs.map some) (h0 : r.get t = 0)
    (hv : values r.key bs = values r.key as) (hn : toInt32 (r.amount w) = r.amount w)
    (hne : r.amount w = 0 ∨ bs ≠ [] ∨ r ≠ .nhost) :
    runStages (resourceStages w r) t = .ok t' ↔
      0 ≤ share w as r ∧ t' = (r.set (share w as r) t).withArguments ((left r (r.amount w) bs).map some) := by
  rw [resourceStages_eq_ok_iff ht hn hne, h0, hv]
  rfl

def settleResources (w : Workflow) (as : Pairs) (t : Task) : Task :=
  { t with ncores := share w as .ncores, nhosts := share w as .nhost, nthreads := share w as .nthreads,
           arguments := (remaining w as).map some }

theorem set_withArguments_set (t : Task) (n₁ n₂ n₃ : Int) (as₁ as₂ as₃ : Arguments) :
    (Resource.nthreads.set n₃ ((Resource.nhost.set n₂ ((Resource.ncores.set n₁ t).withArguments as₁)).withArguments
      as₂)).withArguments as₃ = { t with ncores := n₁, nhosts := n₂, nthreads := n₃, arguments := as₃ } := by
  simp only [Resource.set, Task.withArguments]

theorem resources_eq_ok_iff (ht : t.arguments = as.map some) (h0 : ∀ r : Resource, r.get t = 0)
    (hw : ∀ r : Resource, toInt32 (r.amount w) = r.amount w) (hne : w.nhosts = 0 ∨ left .ncores w.ncores as ≠ []) :
    runStages (resourceStages w .ncores ++ resourceStages w .nhost ++ resourceStages w .nthreads) t = .ok t' ↔
      (∀ r, 0 ≤ share w as r) ∧ t' = settleResources w as t := by
  have hhost : values Resource.nhost.key (left .ncores w.ncores as) = values Resource.nhost.key as :=
    values_left_ne (by decide) _ _
  have hthreads : values Resource.nthreads.key (left .nhost w.nhosts (left .ncores w.ncores as)) =
      values Resource.nthreads.key as := by
    rw [values_left_ne (by decide), values_left_ne (by decide)]
  have hcores (u : Task) := @resourceStages_fresh w t u as .ncores as ht (h0 _) rfl (hw _) (.inr (.inr (by decide)))
  have hnext (u v : Task) (hu : u.arguments = (left .ncores w.ncores as).map some) (hu0 : u.nhosts = 0) :=
    @resourceStages_fresh w u v as .nhost _ hu hu0 hhost (hw _) (hne.imp_right .inl)
  have hlast (u v : Task) (hu : u.arguments = (left .nhost w.nhosts (left .ncores w.ncores as)).map some)
      (hu0 : u.nthreads = 0) :=
    @resourceStages_fresh w u v as .nthreads _ hu hu0 hthreads (hw _) (.inr (.inr (by decide)))
  rw [runStages_append_eq_ok_iff]
  constructor
  · rintro ⟨u₂, hu₂, h₃⟩
    obtain ⟨u₁, h₁, h₂⟩ := runStages_append_eq_ok_iff.mp hu₂
    obtain ⟨hn₁, rfl⟩ := (hcores u₁).mp h₁
    obtain ⟨hn₂, rfl⟩ := (hnext _ u₂ rfl (by exact h0 .nhost)).mp h₂
    obtain ⟨hn₃, rfl⟩ := (hlast _ t' rfl (by exact h0 .nthreads)).mp h₃
    refine ⟨fun r => ?_, set_withArguments_set t _ _ _ _ _ _⟩
    cases r with
    | ncores => exact hn₁
    | nhost => exact hn₂
    | nthreads => exact hn₃
  · rintro ⟨hn, rfl⟩
    have h₁ := (hcores _).mpr ⟨hn .ncores, rfl⟩
    have h₂ := (hnext ((Resource.ncores.set (share w as .ncores) t).withArguments ((left .ncores w.ncores as).map some)) _
      rfl (h0 .nhost)).mpr ⟨hn .nhost, rfl⟩
    have h₃ := (hlast ((Resource.nhost.set (share w as .nhost) ((Resource.ncores.set (share w as .ncores)
      t).withArguments ((left .ncores w.ncores as).map some))).withArguments
      ((left .nhost w.nhosts (left .ncores w.ncores as)).map some)) _ rfl (h0 .nthreads)).mpr ⟨hn .nthreads, rfl⟩
    rw [set_withArguments_set] at h₃
    exact ⟨_, runStages_append_eq_ok_iff.mpr ⟨_, h₁, h₂⟩, h₃⟩

/-- The fields that no stage before the last changes. -/
def Task.core (t : Task) : Task := { t with arguments := [], ncores := 0, nhosts := 0, nthreads := 0 }

theorem core_set (r : Resource) (n : Int) (t : Task) : (r.set n t).core = t.core := by
  cases r <;> rfl

theorem core_setBare (r : Resource) (n : Int) (t : Task) : (r.setBare n t).core = t.core := by
  cases r <;> rfl

theorem core_withArguments (t : Task) (as : Arguments) : (t.withArguments as).core = t.core := rfl

/-- A task without arguments gets no hosts, whatever the workflow asks for. -/
theorem nhosts_of_bare (ht : t.arguments = as.map some) (h0 : ∀ r : Resource, r.get t = 0)
    (hw : ∀ r : Resource, toInt32 (r.amount w) = r.amount w) (hne : w.nhosts ≠ 0) (hbare : left .ncores w.ncores as = [])
    (h : runStages (resourceStages w .ncores ++ resourceStages w .nhost ++ resourceStages w .nthreads) t = .ok t') :
    t'.nhosts = 0 ∧ t'.arguments = [] ∧ t'.core = t.core := by
  obtain ⟨u₂, hu₂, h₃⟩ := runStages_append_eq_ok_iff.mp h
  obtain ⟨u₁, h₁, h₂⟩ := runStages_append_eq_ok_iff.mp hu₂
  obtain ⟨-, rfl⟩ := (resourceStages_fresh ht (h0 .ncores) rfl (hw _) (.inr (.inr (by decide)))).mp h₁
  change runStages _ ((Resource.ncores.set _ t).withArguments ((left .ncores w.ncores as).map some)) = _ at h₂
  rw [hbare, resourceStages, if_pos (show Resource.nhost.amount w ≠ 0 from hne)] at h₂
  obtain ⟨u, hu, h₂⟩ := runStages_cons_eq_ok_iff.mp h₂
  -- no argument is looked for, and the threads are set
  cases hu
  change runStages [finalizeResource .nhost] _ = _ at h₂
  rw [runStages_singleton] at h₂
  obtain ⟨-, rfl⟩ := (@finalizeResource_map_some .nhost _ u₂ [] rfl).mp h₂
  obtain ⟨-, rfl⟩ := (@resourceStages_eq_ok_iff .nthreads _ t' [] w rfl (hw _) (.inr (.inr (by decide)))).mp h₃
  have hhosts : t.nhosts = 0 := h0 .nhost
  refine ⟨?_, ?_, ?_⟩
  · show settled 0 t.nhosts [] = 0
    rw [hhosts]
    rfl
  · show (left .nthreads (Resource.nthreads.amount w) []).map some = []
    unfold left
    split <;> rfl
  · rw [core_withArguments, core_set, core_set, core_setBare, core_withArguments, core_set]

/-- An argument is added if there is none with that key. -/
def addPair (as : Pairs) (kv : List Char × List Char) : Pairs := if values kv.1 as = [] then as ++ [kv] else as

def addPairs (kvs as : Pairs) : Pairs := kvs.foldl addPair as

/-- What the workflow hands down to the arguments of a task with these dependencies. -/
def Workflow.settings (w : Workflow) (ds : List Dep) : Pairs :=
  (w.project.map fun v => ("project".toList, v)).toList ++ (w.cwd.map fun v => ("cwd".toList, v)).toList ++
    (w.cdd.map fun v => ("cdd".toList, v)).toList ++
    (if embeddedOnly ds then (w.cube.map fun v => ("cube".toList, v)).toList else [])

theorem substituteVar_map_some (ht : t.arguments = as.map some) (key value : List Char) :
    substituteVar key value t = .ok (t.withArguments ((addPair as (key, value)).map some)) := by
  unfold substituteVar addPair
  rw [ht, findArgument_map_some]
  cases h : values key as with
  | nil =>
    rw [if_pos rfl, List.map_append, ← ht]
    rfl
  | cons v vs =>
    rw [if_neg (List.cons_ne_nil v vs), withArguments_self ht]
    rfl

theorem substituteCube_map_some (ht : t.arguments = as.map some) (pid : List Char) :
    substituteCube pid t =
      .ok (t.withArguments ((if embeddedOnly t.deps then addPair as ("cube".toList, pid) else as).map some)) := by
  have hvar := substituteVar_map_some ht "cube".toList pid
  unfold substituteVar at hvar
  unfold substituteCube
  rw [ht, findArgument_map_some] at hvar ⊢
  split
  · exact hvar
  · rw [withArguments_self ht]
    rfl

theorem runStages_substituteVar (ht : t.arguments = as.map some) (key : List Char) (value : Option (List Char)) :
    runStages (value.map (substituteVar key)).toList t =
      .ok (t.withArguments ((addPairs (value.map fun v => (key, v)).toList as).map some)) := by
  cases value with
  | none =>
    show Except.ok t = _
    exact congrArg Except.ok (withArguments_self ht).symm
  | some v => exact (runStages_singleton _ _).trans (substituteVar_map_some ht key v)

theorem runStages_substituteCube (ht : t.arguments = as.map some) (value : Option (List Char)) :
    runStages (value.map substituteCube).toList t =
      .ok (t.withArguments ((addPairs (if embeddedOnly t.deps then (value.map fun v => ("cube".toList, v)).toList
        else []) as).map some)) := by
  cases value with
  | none =>
    simp only [Option.map_none, Option.toList_none, ite_self]
    exact congrArg Except.ok (withArguments_self ht).symm
  | some v =>
    rw [Option.map_some, Option.toList_some, runStages_singleton, substituteCube_map_some ht]
    split <;> rfl

theorem addPairs_append (kvs kvs' as : Pairs) : addPairs (kvs ++ kvs') as = addPairs kvs' (addPairs kvs as) :=
  List.foldl_append

theorem settings_eq_ok (ht : t.arguments = as.map some) :
    runStages ((w.project.map (substituteVar "project".toList)).toList ++
      (w.cwd.map (substituteVar "cwd".toList)).toList ++ (w.cdd.map (substituteVar "cdd".toList)).toList ++
      (w.cube.map substituteCube).toList) t =
      .ok (t.withArguments ((addPairs (w.settings t.deps) as).map some)) := by
  rw [runStages_append_eq_ok_iff]
  refine ⟨_, runStages_append_eq_ok_iff.mpr ⟨_, runStages_append_eq_ok_iff.mpr ⟨_,
    runStages_substituteVar ht _ _, runStages_substituteVar rfl _ _⟩, runStages_substituteVar rfl _ _⟩, ?_⟩
  rw [runStages_substituteCube rfl, Workflow.settings, addPairs_append, addPairs_append, addPairs_append]
  rfl

/-- A task with all the settings of the workflow. -/
def handDown (w : Workflow) (as : Pairs) (t : Task) : Task :=
  finalizeType ((settleResources w as t).withArguments ((addPairs (w.settings t.deps) (remaining w as)).map some))

theorem stages_eq (w : Workflow) :
    stages w = (resourceStages w .ncores ++ resourceStages w .nhost ++ resourceStages w .nthreads) ++
      (((w.project.map (substituteVar "project".toList)).toList ++ (w.cwd.map (substituteVar "cwd".toList)).toList ++
      (w.cdd.map (substituteVar "cdd".toList)).toList ++ (w.cube.map substituteCube).toList) ++
      [fun t => .ok (finalizeType t)]) := by
  simp only [stages, List.append_assoc]

theorem stages_eq_ok_iff (ht : t.arguments = as.map some) (h0 : ∀ r : Resource, r.get t = 0)
    (hw : ∀ r : Resource, toInt32 (r.amount w) = r.amount w) (hne : w.nhosts = 0 ∨ left .ncores w.ncores as ≠ []) :
    runStages (stages w) t = .ok t' ↔ (∀ r, 0 ≤ share w as r) ∧ t' = handDown w as t := by
  rw [stages_eq, runStages_append_eq_ok_iff]
  constructor
  · rintro ⟨u, hu, h⟩
    obtain ⟨hn, rfl⟩ := (resources_eq_ok_iff ht h0 hw hne).mp hu
    obtain ⟨v, hv, h⟩ := runStages_append_eq_ok_iff.mp h
    cases (settings_eq_ok rfl).symm.trans hv
    rw [runStages_singleton] at h
    exact ⟨hn, (Except.ok.inj h).symm⟩
  · rintro ⟨hn, rfl⟩
    refine ⟨_, (resources_eq_ok_iff ht h0 hw hne).mpr ⟨hn, rfl⟩,
      runStages_append_eq_ok_iff.mpr ⟨_, settings_eq_ok rfl, ?_⟩⟩
    rw [runStages_singleton]
    rfl

theorem values_addPair_ne {kv : List Char × List Char} (h : key ≠ kv.1) (as : Pairs) :
    values key (addPair as kv) = values key as := by
  unfold addPair
  split
  · rw [values_append, values_cons_ne h.symm, values_nil, List.append_nil]
  · rfl

theorem values_addPairs_ne {kvs : Pairs} (h : ∀ kv ∈ kvs, key ≠ kv.1) (as : Pairs) :
    values key (addPairs kvs as) = values key as := by
  induction kvs generalizing as with
  | nil => rfl
  | cons kv kvs ih =>
    rw [addPairs, List.foldl_cons]
    exact (ih (fun kv' hkv => h kv' (List.mem_cons_of_mem _ hkv)) _).trans (values_addPair_ne (h kv List.mem_cons_self) as)

theorem mem_addPair {kv kv' : List Char × List Char} (h : kv ∈ as) : kv ∈ addPair as kv' := by
  unfold addPair
  split
  · exact List.mem_append_left _ h
  · exact h

theorem mem_addPairs {kvs : Pairs} {kv : List Char × List Char} (h : kv ∈ as) : kv ∈ addPairs kvs as := by
  induction kvs generalizing as with
  | nil => exact h
  | cons kv' kvs ih => exact ih (mem_addPair h)

theorem values_addPairs_ne_nil {kvs : Pairs} {kv : List Char × List Char} (h : kv ∈ kvs) (as : Pairs) :
    values kv.1 (addPairs kvs as) ≠ [] := by
  induction kvs generalizing as with
  | nil => cases h
  | cons kv' kvs ih =>
    rcases List.mem_cons.mp h with rfl | h
    · have hadd : values kv.1 (addPair as kv) ≠ [] := by
        unfold addPair
        split
        · rw [values_append, values_cons_self rfl]
          exact List.append_ne_nil_of_right_ne_nil _ (List.cons_ne_nil _ _)
        · next h => exact h
      rw [Ne, values_eq_nil_iff] at hadd ⊢
      push Not at hadd ⊢
      obtain ⟨kv', hkv', hk⟩ := hadd
      exact ⟨kv', show kv' ∈ addPairs kvs (addPair as kv) from mem_addPairs hkv', hk⟩
    · exact ih h _

/-- Nothing is added to arguments that have all the keys. -/
theorem addPairs_of_values {kvs : Pairs} (h : ∀ kv ∈ kvs, values kv.1 as ≠ []) : addPairs kvs as = as := by
  induction kvs with
  | nil => rfl
  | cons kv kvs ih =>
    rw [addPairs, List.foldl_cons, addPair, if_neg (h kv List.mem_cons_self)]
    exact ih fun kv' hkv => h kv' (List.mem_cons_of_mem _ hkv)

theorem mem_addPairs_iff {kvs : Pairs} (hn : (kvs.map Prod.fst).Nodup) {kv : List Char × List Char} :
    kv ∈ addPairs kvs as ↔ kv ∈ as ∨ kv ∈ kvs ∧ values kv.1 as = [] := by
  induction kvs generalizing as with
  | nil => simp [addPairs]
  | cons kv' kvs ih =>
    rw [List.map_cons, List.nodup_cons] at hn
    rw [addPairs, List.foldl_cons]
    refine (ih hn.2).trans ?_
    -- the keys of the other settings are different, so that they are added or not independently of this one
    have hother (h : kv ∈ kvs) : kv.1 ≠ kv'.1 := fun he => hn.1 (he ▸ List.mem_map_of_mem h)
    constructor
    · rintro (h | ⟨h, hv⟩)
      · unfold addPair at h
        split at h
        · next hv =>
          rcases List.mem_append.mp h with h | h
          · exact .inl h
          · cases List.mem_singleton.mp h
            exact .inr ⟨List.mem_cons_self, hv⟩
        · exact .inl h
      · rw [values_addPair_ne (hother h)] at hv
        exact .inr ⟨List.mem_cons_of_mem _ h, hv⟩
    · rintro (h | ⟨h, hv⟩)
      · exact .inl (mem_addPair h)
      · rcases List.mem_cons.mp h with rfl | h
        · left
          rw [addPair, if_pos hv]
          exact List.mem_append_right _ (List.mem_singleton_self _)
        · right
          rw [values_addPair_ne (hother h)]
          exact ⟨h, hv⟩

/-- `project`, `cwd`, `cdd` and `cube` -/
def settingKeys : List (List Char) := ["project".toList, "cwd".toList, "cdd".toList, "cube".toList]

theorem map_fst_sublist (key : List Char) (s : Option (List Char)) :
    ((s.map fun v => (key, v)).toList.map Prod.fst).Sublist [key] := by
  cases s with
  | none => exact List.nil_sublist _
  | some v => exact List.Sublist.refl _

theorem settings_sublist (w : Workflow) (ds : List Dep) : ((w.settings ds).map Prod.fst).Sublist settingKeys := by
  unfold Workflow.settings
  rw [List.map_append, List.map_append, List.map_append]
  refine (((map_fst_sublist _ _).append (map_fst_sublist _ _)).append (map_fst_sublist _ _)).append ?_
  split
  · exact map_fst_sublist _ _
  · exact List.nil_sublist _

theorem fst_mem_settingKeys {kv : List Char × List Char} {ds : List Dep} (h : kv ∈ w.settings ds) :
    kv.1 ∈ settingKeys :=
  (settings_sublist w ds).subset (List.mem_map_of_mem h)

theorem nodup_settings (w : Workflow) (ds : List Dep) : ((w.settings ds).map Prod.fst).Nodup :=
  (settings_sublist w ds).nodup (by decide)

theorem ne_key_of_mem_settingKeys (h : key ∈ settingKeys) (r : Resource) : key ≠ r.key := by
  revert key
  cases r <;> decide

theorem values_remaining_ne (h : ∀ r : Resource, key ≠ r.key) (w : Workflow) (as : Pairs) :
    values key (remaining w as) = values key as := by
  rw [remaining, values_left_ne (h _), values_left_ne (h _), values_left_ne (h _)]

theorem values_left_self (r : Resource) (n : Int) (as : Pairs) :
    values r.key (left r n as) = if n = 0 then values r.key as else (values r.key as).tail := by
  unfold left
  split
  · rfl
  · exact values_eraseP_self _ _

theorem values_remaining (w : Workflow) (as : Pairs) (r : Resource) :
    values r.key (remaining w as) = if r.amount w = 0 then values r.key as else (values r.key as).tail := by
  unfold remaining
  cases r with
  | ncores =>
    rw [values_left_ne (by decide), values_left_ne (by decide), values_left_self]
    rfl
  | nhost =>
    rw [values_left_ne (by decide), values_left_self, values_left_ne (by decide)]
    rfl
  | nthreads =>
    rw [values_left_self, values_left_ne (by decide), values_left_ne (by decide)]
    rfl

theorem length_left_le (r : Resource) (n : Int) (as : Pairs) : (left r n as).length ≤ as.length := by
  unfold left
  split
  · exact Nat.le_refl _
  · exact List.length_eraseP_le

theorem left_of_values {r : Resource} {n : Int} (h : n ≠ 0 → values r.key as = []) : left r n as = as := by
  unfold left
  split
  · rfl
  · next hn => exact eraseP_keyed_of_values (h hn)

theorem length_left_lt {r : Resource} {n : Int} (hn : n ≠ 0) (h : values r.key as ≠ []) :
    (left r n as).length < as.length := by
  rw [Ne, values_eq_nil_iff] at h
  push Not at h
  obtain ⟨kv, hkv, hk⟩ := h
  have hlen := List.length_eraseP_of_mem hkv (keyed_eq_true_iff.mpr hk)
  have hpos : 0 < as.length := List.length_pos_of_mem hkv
  rw [left, if_neg hn, hlen]
  omega

theorem length_remaining_le (w : Workflow) (as : Pairs) : (remaining w as).length ≤ as.length :=
  (length_left_le _ _ _).trans ((length_left_le _ _ _).trans (length_left_le _ _ _))

theorem remaining_of_values (h : ∀ r : Resource, r.amount w ≠ 0 → values r.key as = []) : remaining w as = as := by
  have hfirst : left .ncores w.ncores as = as := left_of_values (h .ncores)
  have hnext : left .nhost w.nhosts as = as := left_of_values (h .nhost)
  have hlast : left .nthreads w.nthreads as = as := left_of_values (h .nthreads)
  rw [remaining, hfirst, hnext, hlast]

/-- If nothing is taken away, no resource of the workflow is among the arguments. -/
theorem values_of_length_remaining (h : as.length ≤ (remaining w as).length) (r : Resource) (hr : r.amount w ≠ 0) :
    values r.key as = [] := by
  by_contra hv
  have hlast := length_left_le .nthreads w.nthreads (left .nhost w.nhosts (left .ncores w.ncores as))
  have hnext := length_left_le .nhost w.nhosts (left .ncores w.ncores as)
  have hfirst := length_left_le .ncores w.ncores as
  unfold remaining at h
  cases r with
  | ncores =>
    have := length_left_lt hr hv
    change (left .ncores w.ncores as).length < _ at this
    omega
  | nhost =>
    rw [← values_left_ne (show Resource.nhost.key ≠ Resource.ncores.key by decide) w.ncores] at hv
    have := length_left_lt hr hv
    change (left .nhost w.nhosts _).length < _ at this
    omega
  | nthreads =>
    rw [← values_left_ne (show Resource.nthreads.key ≠ Resource.ncores.key by decide) w.ncores,
      ← values_left_ne (show Resource.nthreads.key ≠ Resource.nhost.key by decide) w.nhosts] at hv
    have := length_left_lt hr hv
    change (left .nthreads w.nthreads _).length < _ at this
    omega

theorem share_of_amount_eq_zero {r : Resource} (h : r.amount w = 0) :
    share w as r = (values r.key as).head?.elim 0 readInt := by
  rw [share, h]
  simp only [settled, if_true]

theorem share_of_values_eq_nil {r : Resource} (h : values r.key as = []) : share w as r = r.amount w := by
  rw [share, h]
  unfold settled
  by_cases hn : r.amount w = 0
  · simp [hn]
  · simp [hn]

/-- A task gets as much as the workflow asks for if its only argument for it says the same. -/
theorem share_eq_amount_iff {r : Resource} (hn : r.amount w ≠ 0) (hv : (values r.key as).tail = []) :
    share w as r = r.amount w ↔ values r.key as = [] ∨ (values r.key as).map readInt = [r.amount w] := by
  cases h : values r.key as with
  | nil => exact iff_of_true (share_of_values_eq_nil h) (.inl rfl)
  | cons v vs =>
    rw [h, List.tail_cons] at hv
    cases hv
    have hs : share w as r = readInt v := by
      rw [share, h, settled_of_ne_zero hn]
      simp [settled]
    rw [hs]
    simp

theorem mem_of_mem_left {r : Resource} {n : Int} {kv : List Char × List Char} (h : kv ∈ left r n as) : kv ∈ as := by
  unfold left at h
  split at h
  · exact h
  · exact List.mem_of_mem_eraseP h

theorem mem_of_mem_remaining {kv : List Char × List Char} (h : kv ∈ remaining w as) : kv ∈ as :=
  mem_of_mem_left (mem_of_mem_left (mem_of_mem_left h))

/-- A task without arguments, in a workflow that asks for hosts. -/
theorem stages_of_bare (ht : t.arguments = as.map some) (h0 : ∀ r : Resource, r.get t = 0)
    (hw : ∀ r : Resource, toInt32 (r.amount w) = r.amount w) (hne : w.nhosts ≠ 0) (hbare : left .ncores w.ncores as = [])
    (h : runStages (stages w) t = .ok t') :
    ∃ u, t' = finalizeType u ∧ u.arguments = (addPairs (w.settings t.deps) []).map some ∧ u.core = t.core ∧
      u.nhosts = 0 := by
  rw [stages_eq, runStages_append_eq_ok_iff] at h
  obtain ⟨u, hu, h⟩ := h
  obtain ⟨hhosts, hargs, hcore⟩ := nhosts_of_bare ht h0 hw hne hbare hu
  obtain ⟨v, hv, h⟩ := runStages_append_eq_ok_iff.mp h
  have hset := @settings_eq_ok w u [] hargs
  have hdeps : u.deps = t.deps := by
    show u.core.deps = t.core.deps
    rw [hcore]
  cases hset.symm.trans hv
  rw [runStages_singleton] at h
  refine ⟨_, (Except.ok.inj h).symm, ?_, hcore, hhosts⟩
  rw [← hdeps]
  rfl

theorem none_mem_removeArgument {key : List Char} {as : Arguments} (h : none ∈ as) : none ∈ removeArgument key as := by
  have he : none ∈ as.eraseP fun a => a.any fun kv => decide (kv.1 = key) :=
    (List.mem_eraseP_of_neg (by simp)).mpr h
  unfold removeArgument
  exact List.mem_append_right _ (List.mem_filter.mpr ⟨he, rfl⟩)

theorem map_eq_ok_iff {α β ε : Type} {f : α → β} {x : Except ε α} {b : β} :
    x.map f = .ok b ↔ ∃ a, x = .ok a ∧ f a = b := by
  cases x <;> simp [Except.map]

theorem none_mem_substituteResource {r : Resource} {n : Int} (h : substituteResource r n t = .ok t')
    (hn : none ∈ t.arguments) : none ∈ t'.arguments := by
  unfold substituteResource at h
  split at h
  · next he =>
    rw [he] at hn
    cases hn
  · obtain ⟨found, -, rfl⟩ := map_eq_ok_iff.mp h
    cases found with
    | none =>
      rw [substituted, set_arguments]
      exact hn
    | some v => exact none_mem_removeArgument hn

theorem arguments_finalizeResource {r : Resource} (h : finalizeResource r t = .ok t') : t'.arguments = t.arguments := by
  unfold finalizeResource at h
  split at h
  · obtain ⟨v, -, h⟩ := bind_eq_ok_iff.mp h
    obtain ⟨-, rfl⟩ := nonnegative_eq_ok_iff.mp h
    cases v with
    | none => rfl
    | some v => exact set_arguments _ _ _
  · obtain ⟨-, rfl⟩ := nonnegative_eq_ok_iff.mp h
    rfl

theorem none_mem_appended {value : List Char} (found : Option (List Char)) (hn : none ∈ t.arguments) :
    none ∈ (appended key value t found).arguments := by
  unfold appended
  split
  · exact hn
  · exact List.mem_append_left _ hn

theorem none_mem_finalizeType (hn : none ∈ t.arguments) : none ∈ (finalizeType t).arguments := by
  unfold finalizeType
  split
  · exact hn
  · exact hn
  · exact List.mem_append_left _ hn

theorem none_mem_of_mem_stages {f : Task → Except Failure Task} (hf : f ∈ stages w) (h : f t = .ok t')
    (hn : none ∈ t.arguments) : none ∈ t'.arguments := by
  have hresource (r : Resource) (hf : f ∈ resourceStages w r) : none ∈ t'.arguments := by
    unfold resourceStages at hf
    rcases List.mem_append.mp hf with hf | hf
    · split at hf
      · cases List.mem_singleton.mp hf
        exact none_mem_substituteResource h hn
      · cases hf
    · cases List.mem_singleton.mp hf
      rw [arguments_finalizeResource h]
      exact hn
  have hvar (key : List Char) (value : Option (List Char)) (hf : f ∈ (value.map (substituteVar key)).toList) :
      none ∈ t'.arguments := by
    obtain ⟨v, -, rfl⟩ := Option.map_eq_some_iff.mp (Option.mem_toList.mp hf)
    obtain ⟨found, -, rfl⟩ := map_eq_ok_iff.mp h
    exact none_mem_appended found hn
  simp only [stages, List.mem_append] at hf
  rcases hf with (((((((hf | hf) | hf) | hf) | hf) | hf) | hf) | hf)
  · exact hresource _ hf
  · exact hresource _ hf
  · exact hresource _ hf
  · exact hvar _ _ hf
  · exact hvar _ _ hf
  · exact hvar _ _ hf
  · obtain ⟨v, -, rfl⟩ := Option.map_eq_some_iff.mp (Option.mem_toList.mp hf)
    obtain ⟨found, -, rfl⟩ := map_eq_ok_iff.mp h
    split
    · exact none_mem_appended found hn
    · exact hn
  · cases List.mem_singleton.mp hf
    cases h
    exact none_mem_finalizeType hn

theorem none_mem_of_runStages (h : runStages (stages w) t = .ok t') (hn : none ∈ t.arguments) :
    none ∈ t'.arguments := by
  have hall (fs : List (Task → Except Failure Task)) (hfs : ∀ f ∈ fs, f ∈ stages w) (u : Task)
      (hu : runStages fs u = .ok t') (hn : none ∈ u.arguments) : none ∈ t'.arguments := by
    induction fs generalizing u with
    | nil =>
      cases hu
      exact hn
    | cons f fs ih =>
      obtain ⟨v, hv, hu⟩ := runStages_cons_eq_ok_iff.mp hu
      exact ih (fun g hg => hfs g (List.mem_cons_of_mem _ hg)) v hu
        (none_mem_of_mem_stages (hfs f List.mem_cons_self) hv hn)
  exact hall _ (fun f hf => hf) t h hn

end Handed

end OphidiaWorkflow.Request
