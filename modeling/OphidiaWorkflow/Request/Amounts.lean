import Mathlib.Data.List.ReduceOption
import OphidiaWorkflow.Request.Reload

/-!
The numbers of cores, hosts and threads of the tasks of a request, whatever the items of the arrays of arguments are.

`_oph_workflow_substitute_var` runs once for each, over all the tasks and over the final task.
-/
namespace OphidiaWorkflow.Request

open Json Lib

section Stages

variable {w : Workflow} {r r' : Resource} {t t' : Task} {as : Arguments} {key : List Char} {n m : Int}
  {v : Option (List Char)} {vs : List (List Char)} {fs : List (Task → Except Failure Task)}

theorem findArgument_eq_ok (h : findArgument key as = .ok v) : v = (values key as.reduceOption).head? := by
  induction as with
  | nil =>
    cases h
    rfl
  | cons a as ih =>
    cases a with
    | none => cases h
    | some kv =>
      rw [List.reduceOption_cons_of_some]
      rw [findArgument] at h
      split at h
      · next hk =>
        cases h
        rw [values_cons_self hk, List.head?_cons]
      · next hk =>
        rw [values_cons_ne hk]
        exact ih h

theorem reduceOption_filter_isSome (as : Arguments) :
    (as.filter Option.isSome ++ as.filter Option.isNone).reduceOption = as.reduceOption := by
  induction as with
  | nil => rfl
  | cons a as ih =>
    rw [List.reduceOption_append] at ih ⊢
    cases a with
    | none =>
      rw [List.reduceOption_cons_of_none]
      exact ih
    | some kv =>
      rw [List.reduceOption_cons_of_some]
      exact congrArg (kv :: ·) ih

theorem reduceOption_removeArgument (key : List Char) (as : Arguments) :
    (removeArgument key as).reduceOption = as.reduceOption.eraseP (keyed key) := by
  rw [removeArgument, reduceOption_filter_isSome]
  induction as with
  | nil => rfl
  | cons a as ih =>
    cases a with
    | none =>
      rw [List.eraseP_cons_of_neg (by simp), List.reduceOption_cons_of_none, List.reduceOption_cons_of_none]
      exact ih
    | some kv =>
      rw [List.reduceOption_cons_of_some]
      by_cases hk : kv.1 = key
      · rw [List.eraseP_cons_of_pos (by simpa using hk), List.eraseP_cons_of_pos (keyed_eq_true_iff.mpr hk)]
      · rw [List.eraseP_cons_of_neg (by simpa using hk), List.eraseP_cons_of_neg (mt keyed_eq_true_iff.mp hk),
          List.reduceOption_cons_of_some, ih]

theorem get_set_ne (h : r ≠ r') (n : Int) (t : Task) : r.get (r'.set n t) = r.get t := by
  cases r <;> cases r' <;> first | rfl | exact absurd rfl h

/-- The texts among the arguments of a task. -/
def Task.texts (t : Task) : Pairs := t.arguments.reduceOption

theorem substituteResource_eq_ok (hn : toInt32 n = n) (h : substituteResource r n t = .ok t') :
    (t.arguments = [] ∧ t' = r.setBare n t) ∨
      t' = (r.set ((values r.key t.texts).head?.elim n readInt) t).withArguments t'.arguments ∧
        t'.texts = t.texts.eraseP (keyed r.key) := by
  unfold substituteResource at h
  rw [readInt_decimal hn] at h
  split at h
  · next hnil =>
    cases h
    exact .inl ⟨hnil, rfl⟩
  · right
    obtain ⟨found, hfound, rfl⟩ := map_eq_ok_iff.mp h
    have hhead : found = (values r.key t.texts).head? := findArgument_eq_ok hfound
    cases found with
    | none =>
      have hv : values r.key t.texts = [] := List.head?_eq_none_iff.mp hhead.symm
      rw [hv, substituted, set_arguments, Task.texts, set_arguments]
      refine ⟨?_, (eraseP_keyed_of_values hv).symm⟩
      cases r <;> rfl
    | some v =>
      rw [← hhead]
      exact ⟨rfl, reduceOption_removeArgument r.key t.arguments⟩

theorem finalizeResource_eq_ok (h : finalizeResource r t = .ok t') :
    t' = r.set (settled 0 (r.get t) (values r.key t.texts)) t := by
  unfold finalizeResource at h
  unfold settled
  simp only [if_true]
  by_cases h0 : r.get t = 0
  · rw [if_pos h0] at h ⊢
    obtain ⟨v, hv, h⟩ := bind_eq_ok_iff.mp h
    obtain ⟨-, rfl⟩ := nonnegative_eq_ok_iff.mp h
    have hhead : v = (values r.key t.texts).head? := findArgument_eq_ok hv
    rw [← hhead]
    cases v with
    | none => exact (set_get r t).symm
    | some v => rfl
  · rw [if_neg h0] at h ⊢
    obtain ⟨-, rfl⟩ := nonnegative_eq_ok_iff.mp h
    exact (set_get r t').symm

theorem texts_set (r : Resource) (n : Int) (t : Task) : (r.set n t).texts = t.texts :=
  congrArg List.reduceOption (set_arguments r n t)

/-- The loops for one resource: what they do to it. -/
theorem get_resourceStages (hn : toInt32 (r.amount w) = r.amount w) (hr : r = .nhost → r.amount w = 0)
    (h : runStages (resourceStages w r) t = .ok t') : r.get t' = settled (r.amount w) (r.get t) (values r.key t.texts) := by
  unfold resourceStages at h
  by_cases h0 : r.amount w = 0
  · rw [if_neg (not_not.mpr h0), List.nil_append, runStages_singleton] at h
    rw [finalizeResource_eq_ok h, get_set, h0]
  · rw [if_pos h0, List.singleton_append, runStages_cons_eq_ok_iff] at h
    obtain ⟨u, hu, h⟩ := h
    rw [runStages_singleton] at h
    rw [finalizeResource_eq_ok h, get_set, settled_of_ne_zero h0]
    rcases substituteResource_eq_ok hn hu with ⟨hnil, rfl⟩ | ⟨hu, htexts⟩
    · have hset : r.setBare (r.amount w) t = r.set (r.amount w) t := by
        cases r with
        | nhost => exact absurd (hr rfl) h0
        | ncores | nthreads => rfl
      have htexts : t.texts = [] := congrArg List.reduceOption hnil
      rw [hset, texts_set, htexts, get_set]
      rfl
    · rw [htexts, values_eraseP_self, hu, get_withArguments, get_set]

/-- The loops for another resource. In a task without arguments those for the hosts set the threads. -/
theorem values_resourceStages (hne : r ≠ r') (hn : toInt32 (r'.amount w) = r'.amount w)
    (h : runStages (resourceStages w r') t = .ok t') : values r.key t'.texts = values r.key t.texts ∧
      ((r' = .nhost → r = .nthreads → r'.amount w = 0) → r.get t' = r.get t) := by
  have hkey : r.key ≠ r'.key := by
    cases r <;> cases r' <;> first | decide | exact absurd rfl hne
  unfold resourceStages at h
  by_cases h0 : r'.amount w = 0
  · rw [if_neg (not_not.mpr h0), List.nil_append, runStages_singleton] at h
    rw [finalizeResource_eq_ok h, texts_set, get_set_ne hne]
    exact ⟨rfl, fun _ => rfl⟩
  · rw [if_pos h0, List.singleton_append, runStages_cons_eq_ok_iff] at h
    obtain ⟨u, hu, h⟩ := h
    rw [runStages_singleton] at h
    rw [finalizeResource_eq_ok h, texts_set, get_set_ne hne]
    rcases substituteResource_eq_ok hn hu with ⟨hnil, rfl⟩ | ⟨hu, htexts⟩
    · refine ⟨congrArg (fun as => values r.key as.reduceOption) (?_ : (r'.setBare _ t).arguments = t.arguments),
        fun hr => ?_⟩
      · cases r' <;> rfl
      · cases r' with
        | nhost =>
          cases r with
          | nthreads => exact absurd (hr rfl rfl) h0
          | ncores => rfl
          | nhost => exact absurd rfl hne
        | ncores => exact get_set_ne hne _ _
        | nthreads => exact get_set_ne hne _ _
    · rw [htexts, values_eraseP_ne hkey, hu, get_withArguments, get_set_ne hne]
      exact ⟨rfl, fun _ => rfl⟩

theorem get_finalizeType (r : Resource) (t : Task) : r.get (finalizeType t) = r.get t := by
  unfold finalizeType
  cases r <;> split <;> rfl

theorem get_appended (r : Resource) (key value : List Char) (t : Task) (found : Option (List Char)) :
    r.get (appended key value t found) = r.get t := by
  unfold appended
  split
  · rfl
  · exact get_withArguments r t _

theorem get_runStages (hfs : ∀ f ∈ fs, ∀ u u', f u = .ok u' → r.get u' = r.get u) (h : runStages fs t = .ok t') :
    r.get t' = r.get t := by
  induction fs generalizing t with
  | nil =>
    cases h
    rfl
  | cons f fs ih =>
    obtain ⟨u, hu, h⟩ := runStages_cons_eq_ok_iff.mp h
    rw [ih (fun g hg => hfs g (List.mem_cons_of_mem _ hg)) h, hfs f List.mem_cons_self t u hu]

theorem get_substituteVar (r : Resource) {key value : List Char} (h : substituteVar key value t = .ok t') :
    r.get t' = r.get t := by
  obtain ⟨found, -, rfl⟩ := map_eq_ok_iff.mp h
  exact get_appended r key value t found

theorem get_substituteCube (r : Resource) {pid : List Char} (h : substituteCube pid t = .ok t') :
    r.get t' = r.get t := by
  obtain ⟨found, -, rfl⟩ := map_eq_ok_iff.mp h
  split
  · exact get_appended r _ pid t found
  · rfl

theorem get_settings (h : runStages (((w.project.map (substituteVar "project".toList)).toList ++
      (w.cwd.map (substituteVar "cwd".toList)).toList ++ (w.cdd.map (substituteVar "cdd".toList)).toList ++
      (w.cube.map substituteCube).toList) ++ [fun t => .ok (finalizeType t)]) t = .ok t') (r : Resource) :
    r.get t' = r.get t := by
  have hvar (key : List Char) (value : Option (List Char)) : ∀ f ∈ (value.map (substituteVar key)).toList, ∀ u u',
      f u = .ok u' → r.get u' = r.get u := by
    intro f hf u u' hu
    obtain ⟨v, -, rfl⟩ := Option.map_eq_some_iff.mp (Option.mem_toList.mp hf)
    exact get_substituteVar r hu
  refine get_runStages ?_ h
  simp only [List.forall_mem_append, List.forall_mem_singleton]
  refine ⟨⟨⟨⟨hvar _ _, hvar _ _⟩, hvar _ _⟩, fun f hf u u' hu => ?_⟩, fun u u' hu => ?_⟩
  · obtain ⟨v, -, rfl⟩ := Option.map_eq_some_iff.mp (Option.mem_toList.mp hf)
    exact get_substituteCube r hu
  · cases hu
    exact get_finalizeType r u

/-- The loops for the hosts do not get into those for the resource. -/
def Unmixed (w : Workflow) : Resource → Prop
  | .ncores => True
  | .nhost => w.nhosts = 0
  | .nthreads => w.nhosts = 0 ∨ w.nthreads ≠ 0

theorem settled_of_ne (h : n ≠ 0) (m m' : Int) (vs : List (List Char)) : settled n m vs = settled n m' vs := by
  rw [settled_of_ne_zero h, settled_of_ne_zero h]

theorem get_stages (hw : ∀ r : Resource, toInt32 (r.amount w) = r.amount w) (hr : Unmixed w r)
    (h : runStages (stages w) t = .ok t') : r.get t' = settled (r.amount w) (r.get t) (values r.key t.texts) := by
  rw [stages_eq, runStages_append_eq_ok_iff] at h
  obtain ⟨u₃, hu₃, h⟩ := h
  rw [get_settings h]
  obtain ⟨u₂, hu₂, h₃⟩ := runStages_append_eq_ok_iff.mp hu₃
  obtain ⟨u₁, h₁, h₂⟩ := runStages_append_eq_ok_iff.mp hu₂
  cases r with
  | ncores =>
    have hnext := values_resourceStages (r := .ncores) (by decide) (hw .nhost) h₂
    have hlast := values_resourceStages (r := .ncores) (by decide) (hw .nthreads) h₃
    rw [hlast.2 nofun, hnext.2 nofun]
    exact get_resourceStages (hw .ncores) nofun h₁
  | nhost =>
    have hfirst := values_resourceStages (r := .nhost) (by decide) (hw .ncores) h₁
    have hlast := values_resourceStages (r := .nhost) (by decide) (hw .nthreads) h₃
    rw [hlast.2 nofun, get_resourceStages (hw .nhost) (fun _ => hr) h₂, hfirst.1, hfirst.2 nofun]
  | nthreads =>
    have hfirst := values_resourceStages (r := .nthreads) (by decide) (hw .ncores) h₁
    have hnext := values_resourceStages (r := .nthreads) (by decide) (hw .nhost) h₂
    rw [get_resourceStages (hw .nthreads) nofun h₃, hnext.1, hfirst.1]
    rcases hr with h0 | hthreads
    · rw [hnext.2 fun _ _ => h0, hfirst.2 nofun]
    · exact settled_of_ne hthreads _ _ _

theorem settled_eq_iff : settled n 0 vs = vs.head?.elim n readInt ↔
    (n ≠ 0 → ∀ v v' l, vs = v :: v' :: l → readInt v = 0 → readInt v' = 0) := by
  by_cases hn : n = 0
  · refine iff_of_true ?_ fun h => absurd hn h
    rw [hn]
    simp [settled]
  · rw [settled_of_ne_zero hn]
    cases vs with
    | nil =>
      refine iff_of_true ?_ fun _ v v' l h => by cases h
      simp [settled]
    | cons v vs =>
      cases vs with
      | nil =>
        refine iff_of_true ?_ fun _ v v' l h => by cases h
        simp [settled]
      | cons v' vs =>
        simp only [settled, List.head?_cons, Option.elim_some, List.tail_cons, if_true]
        constructor
        · intro h _ u u' l heq hu
          cases heq
          rw [if_pos hu, hu] at h
          exact h
        · intro h
          split
          · next h0 => rw [h hn v v' vs rfl h0, h0]
          · rfl

end Stages

/-! ## Requests -/

section Requests

variable {srv : Server} {j e : Json} {i : Nat} {w : Workflow} {r : Resource} {t : Task}

/-- The amount that an entry is due: that of its first argument for the resource, or that of the request. -/
def due (j e : Json) (r : Resource) : Int := (values r.key (pairs e)).head?.elim (asked j r) readInt

/-- The resources of the final task, whose arguments are substituted last. -/
def finalTask (w : Workflow) : Except Failure Task :=
  ([.ncores, .nhost, .nthreads].filter fun r : Resource => r.amount w ≠ 0).foldlM
    (fun t r => substituteResource r (r.amount w) t) { name := [], operator := [] }

/-- All the tasks get the amounts that they are due, and so does the final task. -/
structure Inherited (j : Json) (w : Workflow) (r : Resource) : Prop where
  tasks : List.Forall₂ (fun e t => r.get t = due j e r) (itemsOf j "tasks") w.tasks
  final : ∃ t, finalTask w = .ok t ∧ r.get t = asked j r

/-- What the request may ask for with the hosts. -/
def Separate (j : Json) : Resource → Prop
  | .ncores => True
  | .nhost => asked j .nhost = 0
  | .nthreads => asked j .nhost = 0 ∨ asked j .nthreads ≠ 0

/-- Under an amount of the request, an entry whose first argument for the resource is zero has no other one. -/
def Single (j e : Json) (r : Resource) : Prop :=
  asked j r ≠ 0 → ∀ v v' vs, values r.key (pairs e) = v :: v' :: vs → readInt v = 0 → readInt v' = 0

theorem reduceOption_of_readArgument {js : List Json} {as : Arguments}
    (h : List.Forall₂ (fun j a => readArgument j = .ok a) js as) :
    as.reduceOption = js.filterMap fun a => a.text?.bind (cutAt '=') := by
  induction h with
  | nil => rfl
  | @cons j a js as ha _ ih =>
    rw [List.filterMap_cons]
    unfold readArgument at ha
    cases hj : j.text? with
    | none =>
      rw [hj] at ha
      cases ha
      exact ih
    | some s =>
      rw [hj] at ha
      dsimp only at ha
      rw [Option.bind_some]
      cases hcut : cutAt '=' s with
      | none =>
        rw [hcut] at ha
        cases ha
      | some kv =>
        rw [hcut] at ha
        cases ha
        rw [List.reduceOption_cons_of_some, ih]

theorem Reads.texts_eq (h : Reads srv j i e t) : t.texts = pairs e := reduceOption_of_readArgument h.arguments

theorem LoadedFrom.forall₂_entries (hl : LoadedFrom srv j w) :
    List.Forall₂ (fun e u => ∃ i t, Reads srv j i e t ∧ runStages (stages w) t = .ok u) (itemsOf j "tasks") w.tasks := by
  rw [← List.zipIdx_map_fst 0 (itemsOf j "tasks"), List.forall₂_map_left_iff]
  exact hl.entries.imp fun p u h => ⟨p.2, h⟩

theorem foldlM_bare (hw : ∀ r : Resource, toInt32 (r.amount w) = r.amount w) (rs : List Resource)
    (ht : t.arguments = []) :
    (rs.filter fun r => r.amount w ≠ 0).foldlM (fun t r => substituteResource r (r.amount w) t) t =
      .ok (rs.foldl (fun t r => if r.amount w = 0 then t else r.setBare (r.amount w) t) t) := by
  induction rs generalizing t with
  | nil => rfl
  | cons r rs ih =>
    rw [List.foldl_cons, List.filter_cons]
    by_cases h0 : r.amount w = 0
    · rw [if_neg (by simpa using h0), if_pos h0, ih ht]
    · have hbare : (r.setBare (r.amount w) t).arguments = [] := by
        cases r <;> exact ht
      rw [if_pos (by simpa using h0), if_neg h0, List.foldlM_cons, substituteResource, if_pos ht,
        readInt_decimal (hw r)]
      exact ih hbare

theorem finalTask_eq (hw : ∀ r : Resource, toInt32 (r.amount w) = r.amount w) :
    finalTask w = .ok { name := [], operator := [], ncores := w.ncores,
                        nthreads := if w.nthreads = 0 then w.nhosts else w.nthreads } := by
  refine (foldlM_bare hw _ rfl).trans (congrArg Except.ok ?_)
  have hset (r : Resource) (t : Task) (h : r.setBare 0 t = t) :
      (if r.amount w = 0 then t else r.setBare (r.amount w) t) = r.setBare (r.amount w) t := by
    split
    · next h0 => rw [h0, h]
    · rfl
  rw [List.foldl_cons, hset .ncores _ rfl, List.foldl_cons, hset .nhost _ rfl, List.foldl_cons, List.foldl_nil]
  show (if w.nthreads = 0 then _ else _) = _
  split <;> rfl

theorem separate_iff (hh : Heads j w) : Separate j r ↔ Unmixed w r := by
  have hhosts : w.nhosts = asked j .nhost := hh.amount_eq_asked .nhost
  have hthreads : w.nthreads = asked j .nthreads := hh.amount_eq_asked .nthreads
  unfold Separate Unmixed
  rw [hhosts, hthreads]

theorem separate_of_final (hl : LoadedFrom srv j w) (h : finalTask w = .ok t) (ht : r.get t = asked j r) :
    Separate j r := by
  rw [finalTask_eq hl.normal.amounts] at h
  have hhosts : w.nhosts = asked j .nhost := hl.heads.amount_eq_asked .nhost
  have hthreads : w.nthreads = asked j .nthreads := hl.heads.amount_eq_asked .nthreads
  cases h
  cases r with
  | ncores => trivial
  | nhost => exact ht.symm
  | nthreads =>
    by_contra hn
    obtain ⟨hne, h0⟩ := not_or.mp hn
    rw [not_not] at h0
    change (if w.nthreads = 0 then w.nhosts else w.nthreads) = asked j .nthreads at ht
    rw [hthreads, if_pos h0, hhosts, h0] at ht
    exact hne ht

theorem get_final (hl : LoadedFrom srv j w) (hs : Separate j r) : ∃ t, finalTask w = .ok t ∧ r.get t = asked j r := by
  refine ⟨_, finalTask_eq hl.normal.amounts, ?_⟩
  rw [← hl.heads.amount_eq_asked r]
  cases r with
  | ncores => rfl
  | nhost => exact ((separate_iff hl.heads).mp hs).symm
  | nthreads =>
    show (if w.nthreads = 0 then w.nhosts else w.nthreads) = w.nthreads
    split
    · next h0 =>
      rw [h0]
      exact ((separate_iff hl.heads).mp hs).resolve_right (not_not.mpr h0)
    · rfl

theorem Reads.get_eq_due_iff (hl : LoadedFrom srv j w) (hs : Separate j r) (hr : Reads srv j i e t) {u : Task}
    (hu : runStages (stages w) t = .ok u) : r.get u = due j e r ↔ Single j e r := by
  rw [get_stages hl.normal.amounts ((separate_iff hl.heads).mp hs) hu, hr.resources, hr.texts_eq,
    hl.heads.amount_eq_asked]
  exact settled_eq_iff

/--
The final task has no arguments and gets the hosts as threads. In the other tasks an argument that is zero is passed
over by the loop that reads the arguments again.
-/
theorem inherited_iff (h : loadJson srv j = .ok w) (r : Resource) :
    Inherited j w r ↔ Separate j r ∧ ∀ e ∈ itemsOf j "tasks", Single j e r := by
  have hl := loadedFrom_of_loadJson h
  have heach (hs : Separate j r) :
      List.Forall₂ (fun e u => r.get u = due j e r ↔ Single j e r) (itemsOf j "tasks") w.tasks := by
    refine hl.forall₂_entries.imp ?_
    rintro e u ⟨i, t, hr, hu⟩
    exact hr.get_eq_due_iff hl hs hu
  constructor
  · rintro ⟨htasks, t, ht, hget⟩
    have hs := separate_of_final hl ht hget
    exact ⟨hs, (forall₂_iff_forall_mem (heach hs)).mp htasks⟩
  · rintro ⟨hs, hsingle⟩
    exact ⟨(forall₂_iff_forall_mem (heach hs)).mpr hsingle, get_final hl hs⟩

/-- One task asks for cores, the other one gets those of the request. -/
def twoTasks : Json :=
  .object [("name", .string "w".toList), ("ncores", .string "2".toList), ("nthreads", .string "3".toList),
    ("tasks", .array [.object [("name", .string "A".toList), ("operator", .string "oph_list".toList),
      ("arguments", .array [.string "ncores=4".toList])],
      .object [("name", .string "B".toList), ("operator", .string "oph_list".toList)]])]

theorem inherited_twoTasks : ∃ w, loadJson {} twoTasks = .ok w ∧ ∀ r, Inherited twoTasks w r := by
  have hok : (loadJson {} twoTasks).toOption.any (fun _ => true) = true := by decide +kernel
  obtain ⟨w, hw, -⟩ := exists_ok_of_any hok
  refine ⟨w, hw, fun r => (inherited_iff hw r).mpr ⟨?_, fun e he => settled_eq_iff.mp ?_⟩⟩
  · cases r with
    | ncores => trivial
    | nhost => show asked twoTasks .nhost = 0; decide +kernel
    | nthreads => exact .inr (by decide +kernel)
  · revert e
    cases r <;> decide +kernel

/-- The request asks for two hosts. -/
def twoHosts : Json :=
  .object [("name", .string "w".toList), ("nhost", .string "2".toList),
    ("tasks", .array [.object [("name", .string "A".toList), ("operator", .string "oph_list".toList)]])]

theorem not_inherited_twoHosts : ¬ ∀ srv j w, loadJson srv j = .ok w → ∀ r, Inherited j w r := by
  intro h
  have hok : (loadJson {} twoHosts).toOption.any (fun w => w.tasks.map Task.nhosts = [0]) = true := by decide +kernel
  obtain ⟨w, hw, hhosts⟩ := exists_ok_of_any hok
  have htasks := (h {} twoHosts w hw .nhost).tasks
  have hitems : (itemsOf twoHosts "tasks").map (due twoHosts · .nhost) = [2] := by decide +kernel
  have hmap : (itemsOf twoHosts "tasks").map (due twoHosts · .nhost) = w.tasks.map Task.nhosts := by
    rw [← List.forall₂_eq_eq_eq, List.forall₂_map_left_iff, List.forall₂_map_right_iff]
    exact htasks.imp fun e t h => Eq.symm h
  rw [hitems, of_decide_eq_true hhosts] at hmap
  exact absurd hmap (by decide)

end Requests

end OphidiaWorkflow.Request
