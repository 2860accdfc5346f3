import Mathlib.Data.List.Nodup
import OphidiaWorkflow.Lib.Runs
import OphidiaWorkflow.Model.Status

/-!
`_oph_workflow_check_job_queue`: the monitor that compares the queue of the resource manager with the tasks in memory.

The loops of the monitor go through the workflows, their tasks and, if a task has any, its light tasks. Here they go
through the jobs in that order; the loop that collects notifications leaves all of them at once when its table is full.
-/
namespace OphidiaWorkflow.Server

open Lib

structure MonitorLight where
  idjob : Int
  markerid : Int := 0
  status : JobStatus
  deriving DecidableEq, Repr

structure MonitorTask where
  /-- `name` is not NULL; it is for the final task until that is built. -/
  named : Bool := true
  idjob : Int
  markerid : Int := 0
  status : JobStatus
  isKnown : Bool := false
  save : Bool := true
  lights : List MonitorLight := []
  deriving DecidableEq, Repr

/-- A workflow with its tasks, the final one included. -/
structure MonitorWorkflow where
  idjob : Int
  sessionid : List Char := []
  tasks : List MonitorTask
  deriving DecidableEq, Repr

/-- Where a flag `is_marked_to_be_aborted` is: the workflow, the index of the task, and that of the light task or
`-1`. -/
structure Place where
  parentid : Int
  taskIndex : Nat
  lightIndex : Int := -1
  deriving DecidableEq, Repr

/-- `OPH_WORKFLOW_BASE_NOTIFICATION`, with the status `ABORTED`. -/
structure Notice where
  place : Place
  jobid : Int
  sessionid : List Char
  markerid : Int
  save : Bool
  deriving DecidableEq, Repr

/-- A job in memory. -/
structure MonitorJob where
  notice : Notice
  running : Bool
  terminal : Bool
  deriving DecidableEq, Repr

namespace MonitorJob

def place (x : MonitorJob) : Place := x.notice.place

def idjob (x : MonitorJob) : Int := x.notice.jobid

end MonitorJob

/-- Between `PENDING` and `COMPLETED`. -/
def active (s : JobStatus) : Bool := .pending < s ∧ s < .completed

def lightJob (w : MonitorWorkflow) (i : Nat) (t : MonitorTask) (j : Nat) (x : MonitorLight) : MonitorJob where
  notice := ⟨⟨w.idjob, i, j⟩, x.idjob, w.sessionid, x.markerid, t.save⟩
  running := active t.status && !t.isKnown && active x.status
  terminal := t.status.Terminal ∧ x.status.Terminal

def taskJob (w : MonitorWorkflow) (i : Nat) (t : MonitorTask) : MonitorJob where
  notice := ⟨⟨w.idjob, i, -1⟩, t.idjob, w.sessionid, t.markerid, t.save⟩
  running := active t.status && !t.isKnown
  terminal := t.status.Terminal

/-- The jobs of a task: those of its light tasks if it has any, or else its own. -/
def taskJobs (w : MonitorWorkflow) (i : Nat) (t : MonitorTask) : List MonitorJob :=
  if t.named then if t.lights = [] then [taskJob w i t] else t.lights.mapIdx (lightJob w i t) else []

def monitorJobs (ws : List MonitorWorkflow) :
    List MonitorJob := ws.flatMap fun w => (w.tasks.mapIdx (taskJobs w)).flatten

/-- The first entry with that value is overwritten. -/
def overwrite (v v' : Int) : List Int → List Int
  | [] => []
  | u :: us => if u = v then v' :: us else u :: overwrite v v' us

/-- `OPH_SERVER_POLL_ITEMS` -/
def pollItems : Nat := 128

/-- The state of the first loop: the list read from the queue, the flags, and the notifications. -/
structure Pass where
  list : List Int
  marked : List Place
  notices : List Notice := []
  deriving DecidableEq, Repr

/-- The first loop looks for jobs that have been aborted. -/
def Pass.check (p : Pass) (x : MonitorJob) : Pass :=
  if pollItems ≤ p.notices.length ∨ x.running = false then p
  else if x.idjob ∈ p.list then { p with list := overwrite x.idjob 0 p.list }
  else if x.place ∈ p.marked then { p with notices := p.notices ++ [x.notice] }
  else { p with marked := x.place :: p.marked }

def checkAborted (js : List MonitorJob) (ids : List Int) (marked : List Place) : Pass :=
  js.foldl Pass.check ⟨ids, marked, []⟩

/-- The second loop negates the jobs that are over. -/
def starve (list : List Int) (x : MonitorJob) : List Int :=
  if x.terminal then overwrite x.idjob (-x.idjob) list else list

/-- The third loop negates what is left and is not in memory. -/
def disown (js : List MonitorJob) (v : Int) : Int := if 0 < v ∧ ∀ x ∈ js, x.idjob ≠ v then -v else v

/-- The list after the three loops. -/
def markedList (js : List MonitorJob) (ids : List Int) (marked : List Place) : List Int :=
  (js.foldl starve (checkAborted js ids marked).list).map (disown js)

/-- The jobs for which `oph_cancel_request` is called. -/
def cancelled (detached : Int → Bool) (list : List Int) : List Int :=
  ((list.filter fun v => v < 0).map fun v => -v).filter fun v => !detached v

section Cancelled

variable {ids list : List Int} {js : List MonitorJob} {f : Int → Int} {v v' : Int} {x y : MonitorJob}
  {detached : Int → Bool} {marked : List Place}

/-- Each entry of the list is as it was read, or zero, or negated. -/
def Encodes (ids : List Int) (f : Int → Int) : Prop := ∀ v ∈ ids, f v = v ∨ f v = 0 ∨ f v = -v

theorem eq_of_encodes (hpos : ∀ v ∈ ids, 0 < v) (he : Encodes ids f) (hv : 0 < v) {u : Int} (hu : u ∈ ids)
    (h : f u = v) : u = v := by
  have hu' := hpos u hu
  rcases he u hu with h' | h' | h' <;> omega

theorem overwrite_map (hn : ids.Nodup) (hpos : ∀ v ∈ ids, 0 < v) (he : Encodes ids f) (hv : 0 < v) :
    overwrite v v' (ids.map f) = ids.map fun u => if u = v ∧ f u = v then v' else f u := by
  induction ids with
  | nil => rfl
  | cons u us ih =>
    obtain ⟨hu, hn⟩ := List.nodup_cons.mp hn
    rw [List.map_cons, List.map_cons, overwrite]
    by_cases h : f u = v
    · have huv := eq_of_encodes hpos he hv List.mem_cons_self h
      rw [if_pos h, if_pos ⟨huv, h⟩]
      congr 1
      apply List.map_congr_left
      intro u' hu'
      rw [if_neg]
      rintro ⟨rfl, -⟩
      exact hu (huv ▸ hu')
    · rw [if_neg h, if_neg fun hc => h hc.2, ih hn (fun v hv => hpos v (List.mem_cons_of_mem _ hv))
        fun v hv => he v (List.mem_cons_of_mem _ hv)]

theorem overwrite_zero (list : List Int) : overwrite 0 0 list = list := by
  induction list with
  | nil => rfl
  | cons u us ih =>
    rw [overwrite]
    split
    · next h => rw [h]
    · rw [ih]

/-- After the first loop the jobs that run are struck out, as far as it has come. -/
theorem checkAborted_list (hn : ids.Nodup) (hpos : ∀ v ∈ ids, 0 < v) (hjs : ∀ x ∈ js, 0 ≤ x.idjob)
    (marked : List Place) :
    ∃ f, (checkAborted js ids marked).list = ids.map f ∧
      ∀ v ∈ ids, f v = v ∨ (f v = 0 ∧ ∃ x ∈ js, x.running = true ∧ x.idjob = v) := by
  have hloop (js' : List MonitorJob) (hsub : ∀ x ∈ js', x ∈ js) (p : Pass) (f : Int → Int) (hp : p.list = ids.map f)
      (hf : ∀ v ∈ ids, f v = v ∨ (f v = 0 ∧ ∃ x ∈ js, x.running = true ∧ x.idjob = v)) :
      ∃ f, (js'.foldl Pass.check p).list = ids.map f ∧
        ∀ v ∈ ids, f v = v ∨ (f v = 0 ∧ ∃ x ∈ js, x.running = true ∧ x.idjob = v) := by
    induction js' generalizing p f with
    | nil => exact ⟨f, hp, hf⟩
    | cons x js' ih =>
      rw [List.foldl_cons]
      have hx := hsub x List.mem_cons_self
      have ih' := ih fun y hy => hsub y (List.mem_cons_of_mem _ hy)
      unfold Pass.check
      split
      · exact ih' p f hp hf
      · next hc =>
        have hrun : x.running = true := by
          by_contra hne
          exact hc (.inr (Bool.eq_false_iff.mpr hne))
        split
        · -- the job is in the queue
          have he : Encodes ids f := fun v hv => (hf v hv).imp_right fun h => .inl h.1
          rcases Int.lt_or_eq_of_le (hjs x hx) with hid | hid
          · refine ih' _ (fun u => if u = x.idjob ∧ f u = x.idjob then 0 else f u) ?_ ?_
            · show overwrite x.idjob 0 p.list = _
              rw [hp, overwrite_map hn hpos he hid]
            · intro v hv
              split
              · next hc => exact .inr ⟨rfl, x, hx, hrun, hc.1.symm⟩
              · exact hf v hv
          · refine ih' _ f ?_ hf
            show overwrite x.idjob 0 p.list = _
            rw [← hid, overwrite_zero, hp]
        · split
          · exact ih' _ f hp hf
          · exact ih' _ f hp hf
  exact hloop js (fun x hx => hx) ⟨ids, marked, []⟩ id (List.map_id ids).symm fun v _ => .inl rfl

/-- After the second loop the jobs that are over are negated. -/
theorem starve_list (hn : ids.Nodup) (hpos : ∀ v ∈ ids, 0 < v) (he : Encodes ids f) (hjs : ∀ x ∈ js, 0 ≤ x.idjob) :
    js.foldl starve (ids.map f) =
      ids.map fun v => if f v = v ∧ ∃ x ∈ js, x.terminal = true ∧ x.idjob = v then -v else f v := by
  induction js generalizing f with
  | nil => simp
  | cons x js ih =>
    have hjs' : ∀ y ∈ js, 0 ≤ y.idjob := fun y hy => hjs y (List.mem_cons_of_mem _ hy)
    -- a job that is not negated does not matter
    have hskip (hx : ∀ v ∈ ids, ¬ (x.terminal = true ∧ x.idjob = v)) : js.foldl starve (ids.map f) =
        ids.map fun v => if f v = v ∧ ∃ y ∈ x :: js, y.terminal = true ∧ y.idjob = v then -v else f v := by
      rw [ih he hjs']
      apply List.map_congr_left
      intro v hv
      have hiff : (∃ y ∈ x :: js, y.terminal = true ∧ y.idjob = v) ↔ ∃ y ∈ js, y.terminal = true ∧ y.idjob = v := by
        simp only [List.mem_cons, exists_eq_or_imp]
        exact or_iff_right (hx v hv)
      simp only [hiff]
    rw [List.foldl_cons, starve]
    by_cases ht : x.terminal = true
    · rw [if_pos ht]
      rcases Int.lt_or_eq_of_le (hjs x List.mem_cons_self) with hid | hid
      · have he' : Encodes ids fun u => if u = x.idjob ∧ f u = x.idjob then -x.idjob else f u := by
          intro v hv
          dsimp only
          split
          · next hc => exact .inr (.inr (by rw [hc.1]))
          · exact he v hv
        rw [overwrite_map hn hpos he hid, ih he' hjs']
        apply List.map_congr_left
        intro v hv
        have hv' := hpos v hv
        simp only [List.mem_cons, exists_eq_or_imp, ht, true_and]
        by_cases hx : x.idjob = v
        · rw [hx]
          by_cases hfv : f v = v
          · simp [hfv]
          · simp [hfv]
        · have hinner : (if v = x.idjob ∧ f v = x.idjob then -x.idjob else f v) = f v := if_neg fun hc => hx hc.1.symm
          simp only [hinner, hx, false_or]
      · rw [← hid, Int.neg_zero, overwrite_zero]
        refine hskip fun v hv hc => ?_
        have := hpos v hv
        omega
    · rw [if_neg ht]
      exact hskip fun v _ hc => ht hc.1

theorem mem_cancelled_iff (hpos : ∀ v ∈ ids, 0 < v) (he : Encodes ids f) :
    v ∈ cancelled detached (ids.map f) ↔ v ∈ ids ∧ f v = -v ∧ detached v = false := by
  unfold cancelled
  rw [List.mem_filter, List.mem_map, Bool.not_eq_true']
  constructor
  · rintro ⟨⟨u, hu, rfl⟩, hd⟩
    obtain ⟨hu, hneg⟩ := List.mem_filter.mp hu
    obtain ⟨w, hw, rfl⟩ := List.mem_map.mp hu
    have hneg' : f w < 0 := of_decide_eq_true hneg
    have hw' := hpos w hw
    have hfw : f w = -w := by
      rcases he w hw with h | h | h <;> omega
    rw [hfw, Int.neg_neg] at hd ⊢
    exact ⟨hw, hfw, hd⟩
  · rintro ⟨hv, hfv, hd⟩
    have hv' := hpos v hv
    refine ⟨⟨f v, List.mem_filter.mpr ⟨List.mem_map_of_mem hv, decide_eq_true ?_⟩, ?_⟩, hd⟩
    · omega
    · rw [hfv, Int.neg_neg]

/-- The jobs in memory have different identifiers, as far as they have been submitted. -/
structure Distinct (js : List MonitorJob) : Prop where
  nonneg : ∀ x ∈ js, 0 ≤ x.idjob
  ids : ((js.map MonitorJob.idjob).filter fun v => 0 < v).Nodup

theorem Distinct.eq_of_idjob (h : Distinct js) (hx : x ∈ js) (hy : y ∈ js) (hid : 0 < x.idjob)
    (hxy : x.idjob = y.idjob) :
    x = y := by
  have hn := h.ids
  rw [List.filter_map] at hn
  have hfilter (z : MonitorJob) (hz : z ∈ js) (hz' : 0 < z.idjob) :
      z ∈ js.filter ((fun v => decide (0 < v)) ∘ MonitorJob.idjob) := List.mem_filter.mpr ⟨hz, decide_eq_true hz'⟩
  exact List.inj_on_of_nodup_map hn (hfilter x hx hid) (hfilter y hy (hxy ▸ hid)) hxy

/-- A job that runs is not over. -/
def Exclusive (js : List MonitorJob) : Prop := ∀ x ∈ js, x.running = true → x.terminal = false

/-- Which jobs are cancelled: those that are over, and those that are not in memory. -/
theorem mem_cancelled_markedList_iff (hn : ids.Nodup) (hpos : ∀ v ∈ ids, 0 < v) (hd : Distinct js) (hx : Exclusive js)
    (marked : List Place) :
    v ∈ cancelled detached (markedList js ids marked) ↔
      v ∈ ids ∧ detached v = false ∧
        ((∃ x ∈ js, x.terminal = true ∧ x.idjob = v) ∨ ∀ x ∈ js, x.idjob ≠ v) := by
  obtain ⟨f, hf, hcases⟩ := checkAborted_list hn hpos hd.nonneg marked
  have he : Encodes ids f := fun v hv => (hcases v hv).imp_right fun h => .inl h.1
  -- the list after the three loops
  have hlist : markedList js ids marked = ids.map fun v =>
      disown js (if f v = v ∧ ∃ x ∈ js, x.terminal = true ∧ x.idjob = v then -v else f v) := by
    unfold markedList
    rw [hf, starve_list hn hpos he hd.nonneg, List.map_map]
    rfl
  have hdisown (u : Int) (hu : u ≤ 0) : disown js u = u := if_neg fun hc => by omega
  have hencodes : Encodes ids fun v =>
      disown js (if f v = v ∧ ∃ x ∈ js, x.terminal = true ∧ x.idjob = v then -v else f v) := by
    intro v hv
    have hv' := hpos v hv
    dsimp only
    split
    · rw [hdisown _ (by omega)]
      exact .inr (.inr rfl)
    · rcases hcases v hv with h | ⟨h, -⟩
      · rw [h]
        unfold disown
        split
        · exact .inr (.inr rfl)
        · exact .inl rfl
      · rw [h, hdisown 0 (Int.le_refl 0)]
        exact .inr (.inl rfl)
  rw [hlist, mem_cancelled_iff hpos hencodes]
  refine and_congr_right fun hv => ?_
  rw [and_comm]
  refine and_congr_right fun _ => ?_
  have hv' := hpos v hv
  by_cases hstarved : ∃ x ∈ js, x.terminal = true ∧ x.idjob = v
  · refine iff_of_true ?_ (.inl hstarved)
    have hfv : f v = v := by
      refine (hcases v hv).resolve_right ?_
      rintro ⟨-, y, hy, hrun, hyv⟩
      obtain ⟨x, hx', ht, hxv⟩ := hstarved
      have hxy := hd.eq_of_idjob hx' hy (by omega) (hxv.trans hyv.symm)
      rw [hxy, hx y hy hrun] at ht
      cases ht
    rw [if_pos ⟨hfv, hstarved⟩, hdisown _ (by omega)]
  · rw [if_neg fun hc => hstarved hc.2, or_iff_right hstarved]
    rcases hcases v hv with h | ⟨h, x, hx', -, hxv⟩
    · rw [h]
      unfold disown
      constructor
      · intro hneg
        by_contra hnot
        rw [if_neg fun hc => hnot hc.2] at hneg
        omega
      · intro hall
        rw [if_pos ⟨hv', hall⟩]
    · rw [h, hdisown 0 (Int.le_refl 0)]
      refine iff_of_false (by omega) fun hall => hall x hx' hxv

theorem notices_length_le (js : List MonitorJob) (ids : List Int) (marked : List Place) :
    (checkAborted js ids marked).notices.length ≤ pollItems := by
  have hloop (p : Pass) (hp : p.notices.length ≤ pollItems) : (js.foldl Pass.check p).notices.length ≤ pollItems := by
    induction js generalizing p with
    | nil => exact hp
    | cons x js ih =>
      rw [List.foldl_cons]
      apply ih
      unfold Pass.check
      split
      · exact hp
      · next hc =>
        split
        · exact hp
        · split
          · rw [List.length_append, List.length_singleton]
            omega
          · exact hp
  exact hloop _ (Nat.zero_le _)

end Cancelled

section Workflows

variable {ids : List Int} {ws : List MonitorWorkflow} {v : Int} {x : MonitorJob}

theorem mem_monitorJobs_iff : x ∈ monitorJobs ws ↔ ∃ w ∈ ws, ∃ i t, w.tasks[i]? = some t ∧ x ∈ taskJobs w i t := by
  unfold monitorJobs
  rw [List.mem_flatMap]
  refine exists_congr fun w => and_congr_right fun _ => ?_
  rw [List.mem_flatten]
  constructor
  · rintro ⟨js, hjs, hx⟩
    obtain ⟨i, hi, rfl⟩ := List.mem_mapIdx.mp hjs
    exact ⟨i, w.tasks[i], List.getElem?_eq_getElem hi, hx⟩
  · rintro ⟨i, t, ht, hx⟩
    obtain ⟨hi, rfl⟩ := List.getElem?_eq_some_iff.mp ht
    exact ⟨_, List.mem_mapIdx.mpr ⟨i, hi, rfl⟩, hx⟩

theorem exists_taskJobs_iff {w : MonitorWorkflow} {i : Nat} {t : MonitorTask} {P : MonitorJob → Prop} :
    (∃ x ∈ taskJobs w i t, P x) ↔
      t.named = true ∧ ((t.lights = [] ∧ P (taskJob w i t)) ∨ ∃ j x, t.lights[j]? = some x ∧ P (lightJob w i t j x)) := by
  unfold taskJobs
  by_cases hn : t.named = true
  · rw [if_pos hn, and_iff_right hn]
    by_cases hl : t.lights = []
    · rw [if_pos hl, hl]
      simp
    · rw [if_neg hl]
      constructor
      · rintro ⟨x, hx, hP⟩
        obtain ⟨j, hj, rfl⟩ := List.mem_mapIdx.mp hx
        exact .inr ⟨j, _, List.getElem?_eq_getElem hj, hP⟩
      · rintro (⟨h, -⟩ | ⟨j, y, hy, hP⟩)
        · exact absurd h hl
        · obtain ⟨hj, rfl⟩ := List.getElem?_eq_some_iff.mp hy
          exact ⟨_, List.mem_mapIdx.mpr ⟨j, hj, rfl⟩, hP⟩
  · rw [if_neg hn]
    simp [hn]

/-- The job is that of a light task in memory, or of a task without light tasks. -/
def InMemory (ws : List MonitorWorkflow) (v : Int) : Prop :=
  ∃ w ∈ ws, ∃ t ∈ w.tasks, t.named = true ∧ ((t.lights = [] ∧ t.idjob = v) ∨ ∃ x ∈ t.lights, x.idjob = v)

/-- The job is that of a light task that is over in a task that is over, or of such a task without light tasks. -/
def Starved (ws : List MonitorWorkflow) (v : Int) : Prop :=
  ∃ w ∈ ws, ∃ t ∈ w.tasks, t.named = true ∧ t.status.Terminal ∧
    ((t.lights = [] ∧ t.idjob = v) ∨ ∃ x ∈ t.lights, x.status.Terminal ∧ x.idjob = v)

theorem exists_getElem?_iff {α : Type*} {l : List α} {P : α → Prop} :
    (∃ (i : Nat) (a : α), l[i]? = some a ∧ P a) ↔ ∃ a ∈ l, P a := by
  constructor
  · rintro ⟨i, a, ha, hP⟩
    exact ⟨a, List.mem_of_getElem? ha, hP⟩
  · rintro ⟨a, ha, hP⟩
    obtain ⟨i, hi⟩ := List.getElem?_of_mem ha
    exact ⟨i, a, hi, hP⟩

theorem exists_jobs_iff {P : MonitorJob → Prop} {Q : MonitorTask → Prop} {R : MonitorTask → MonitorLight → Prop}
    (hQ : ∀ w i t, P (taskJob w i t) ↔ Q t) (hR : ∀ w i t j x, P (lightJob w i t j x) ↔ R t x) :
    (∃ x ∈ monitorJobs ws, P x) ↔
      ∃ w ∈ ws, ∃ t ∈ w.tasks, t.named = true ∧ ((t.lights = [] ∧ Q t) ∨ ∃ x ∈ t.lights, R t x) := by
  have htask (w : MonitorWorkflow) (i : Nat) (t : MonitorTask) : (∃ x ∈ taskJobs w i t, P x) ↔
      t.named = true ∧ ((t.lights = [] ∧ Q t) ∨ ∃ x ∈ t.lights, R t x) := by
    rw [exists_taskJobs_iff, hQ]
    simp only [hR, exists_getElem?_iff]
  constructor
  · rintro ⟨x, hx, hP⟩
    obtain ⟨w, hw, i, t, ht, hx⟩ := mem_monitorJobs_iff.mp hx
    exact ⟨w, hw, t, List.mem_of_getElem? ht, (htask w i t).mp ⟨x, hx, hP⟩⟩
  · rintro ⟨w, hw, t, ht, h⟩
    obtain ⟨i, hi⟩ := List.getElem?_of_mem ht
    obtain ⟨x, hx, hP⟩ := (htask w i t).mpr h
    exact ⟨x, mem_monitorJobs_iff.mpr ⟨w, hw, i, t, hi, hx⟩, hP⟩

theorem inMemory_iff : InMemory ws v ↔ ∃ x ∈ monitorJobs ws, x.idjob = v :=
  (exists_jobs_iff (Q := fun t => t.idjob = v) (R := fun _ x => x.idjob = v) (fun _ _ _ => Iff.rfl)
    fun _ _ _ _ _ => Iff.rfl).symm

theorem starved_iff : Starved ws v ↔ ∃ x ∈ monitorJobs ws, x.terminal = true ∧ x.idjob = v := by
  rw [exists_jobs_iff (Q := fun t => t.status.Terminal ∧ t.idjob = v)
    (R := fun t x => (t.status.Terminal ∧ x.status.Terminal) ∧ x.idjob = v) (fun w i t => by simp [taskJob, MonitorJob.idjob])
    fun w i t j x => by simp [lightJob, MonitorJob.idjob]]
  refine exists_congr fun w => and_congr_right fun _ => exists_congr fun t => and_congr_right fun _ =>
    and_congr_right fun _ => ?_
  constructor
  · rintro ⟨ht, ⟨hl, hid⟩ | ⟨x, hx, hx', hid⟩⟩
    · exact .inl ⟨hl, ht, hid⟩
    · exact .inr ⟨x, hx, ⟨ht, hx'⟩, hid⟩
  · rintro (⟨hl, ht, hid⟩ | ⟨x, hx, ⟨ht, hx'⟩, hid⟩)
    · exact ⟨ht, .inl ⟨hl, hid⟩⟩
    · exact ⟨ht, .inr ⟨x, hx, hx', hid⟩⟩

theorem not_terminal_of_active {s : JobStatus} (h : active s = true) : ¬ s.Terminal :=
  JobStatus.not_terminal_iff.mpr (of_decide_eq_true h).2

theorem exclusive_monitorJobs (ws : List MonitorWorkflow) : Exclusive (monitorJobs ws) := by
  intro x hx hrun
  obtain ⟨w, -, i, t, -, hx⟩ := mem_monitorJobs_iff.mp hx
  have hnone : ¬ ∃ y ∈ taskJobs w i t, y.running = true ∧ y.terminal = true := by
    rw [exists_taskJobs_iff]
    rintro ⟨-, ⟨-, hr, ht⟩ | ⟨j, y, -, hr, ht⟩⟩
    · simp only [taskJob, Bool.and_eq_true, decide_eq_true_eq] at hr ht
      exact not_terminal_of_active hr.1 ht
    · simp only [lightJob, Bool.and_eq_true, decide_eq_true_eq] at hr ht
      exact not_terminal_of_active hr.1.1 ht.1
  by_contra hne
  exact hnone ⟨x, hx, hrun, by simpa using hne⟩

/-- One pass of the monitor: which jobs of the queue it cancels, that no job in memory that is not over is among them,
and that the table of notifications is not exceeded, wherever the first loop has ended. -/
theorem cancelled_pass {detached : Int → Bool} (hn : ids.Nodup) (hpos : ∀ v ∈ ids, 0 < v)
    (hd : Distinct (monitorJobs ws))
    (marked : List Place) :
    (∀ v, v ∈ cancelled detached (markedList (monitorJobs ws) ids marked) ↔
      v ∈ ids ∧ detached v = false ∧ (Starved ws v ∨ ¬ InMemory ws v)) ∧
    (∀ x ∈ monitorJobs ws, x.terminal = false → x.idjob ∉ cancelled detached (markedList (monitorJobs ws) ids marked)) ∧
    (checkAborted (monitorJobs ws) ids marked).notices.length ≤ pollItems := by
  have hiff (v : Int) := @mem_cancelled_markedList_iff ids (monitorJobs ws) v detached hn hpos hd (exclusive_monitorJobs ws) marked
  refine ⟨fun v => ?_, fun x hx ht => ?_, notices_length_le _ _ _⟩
  · rw [hiff, starved_iff, inMemory_iff]
    push Not
    rfl
  · rw [hiff]
    rintro ⟨hmem, -, ⟨y, hy, hty, hyx⟩ | hnone⟩
    · have hxy := hd.eq_of_idjob hy hx (by have := hpos _ hmem; omega) hyx
      rw [← hxy, hty] at ht
      cases ht
    · exact hnone x hx rfl

/-- A job that runs, one that is over, and one that is not in memory. -/
theorem cancelled_pass_three :
    let ws : List MonitorWorkflow := [⟨1, [], [{ idjob := 2, status := .running }, { idjob := 3, status := .completed }]⟩]
    (∀ v, v ∈ cancelled (fun _ => false) (markedList (monitorJobs ws) [2, 3, 4] []) ↔
      v ∈ [2, 3, 4] ∧ false = false ∧ (Starved ws v ∨ ¬ InMemory ws v)) ∧
    (∀ x ∈ monitorJobs ws, x.terminal = false → x.idjob ∉ cancelled (fun _ => false) (markedList (monitorJobs ws) [2, 3, 4] [])) ∧
    (checkAborted (monitorJobs ws) [2, 3, 4] []).notices.length ≤ pollItems :=
  cancelled_pass (by decide) (by decide) ⟨by decide, by decide⟩ []

/-- The job of a task that runs is cancelled if the task has light tasks. -/
theorem cancelled_of_lights :
    let ws : List MonitorWorkflow :=
      [⟨1, [], [{ idjob := 2, status := .running, lights := [{ idjob := 3, status := .running }] }]⟩]
    2 ∈ cancelled (fun _ => false) (markedList (monitorJobs ws) [2] []) ∧
      ∃ w ∈ ws, ∃ t ∈ w.tasks, t.idjob = 2 ∧ ¬ t.status.Terminal := by
  decide

end Workflows

end OphidiaWorkflow.Server
