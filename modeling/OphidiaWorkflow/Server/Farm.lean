import OphidiaWorkflow.Lib.Runs
import OphidiaWorkflow.Server.JobList

/-!
The farm of workflows that run at the same time, and the queue of those that wait.

The entries of the job list as the handlers of submissions and notifications see them. Each event is what a handler does
under the lock of the list.
-/
namespace OphidiaWorkflow.Server

open Lib
open JobList (InsertCode)

structure FarmEntry where
  idjob : Int
  timestamp : Int
  status : JobStatus := .pending
  /-- The workflow has been queued, and its handler has still to reset the status. -/
  unmarked : Bool := false
  deriving DecidableEq, Repr

namespace FarmEntry

variable {e : FarmEntry}

def expired (deadline : Int) (e : FarmEntry) : Bool := e.timestamp < deadline

def started (e : FarmEntry) : Bool := e.status ≠ .unknown ∧ e.unmarked = false

def unstarted (e : FarmEntry) : Bool := e.status = .unknown

end FarmEntry

/-- What the loop of a lookup leaves: it stops at the entry it finds. -/
def purge (deadline : Int) (found : FarmEntry → Bool) : List FarmEntry → List FarmEntry
  | [] => []
  | e :: es =>
    if e.expired deadline then purge deadline found es
    else if found e then e :: es
    else e :: purge deadline found es

def hasJob (idjob : Int) (e : FarmEntry) : Bool := e.idjob = idjob

/-- `oph_insert_into_job_list` -/
def insertJob (sz : FarmSize) (es : List FarmEntry) (e : FarmEntry) (deadline : Int) : InsertCode × List FarmEntry :=
  if sz.full es.length then (.full, es)
  else
    let es' := purge deadline (hasJob e.idjob) es
    if es'.any (hasJob e.idjob) then (.existingJob, es')
    else if sz.farmFull es.length then (.farmFull, es' ++ [{ e with unmarked := true }])
    else (.ok, es' ++ [e])

/-- The first workflow that has not been started. -/
def startFirst : List FarmEntry → List FarmEntry
  | [] => []
  | e :: es => if e.unstarted then { e with status := .pending } :: es else e :: startFirst es

/-- `number_of_running_wf` -/
def running (es : List FarmEntry) : Nat := es.countP fun e => !e.unstarted

/-- There is a place in the farm, and a workflow in the queue. -/
def FarmSize.starts (sz : FarmSize) (es : List FarmEntry) : Bool :=
  sz.farm ≠ 0 ∧ running es < sz.farm ∧ running es < es.length

/-- `oph_find_unstarted_in_job_list`; the workflow that is found is set to `PENDING` under the same lock. -/
def startUnstarted (sz : FarmSize) (es : List FarmEntry) : List FarmEntry := if sz.starts es then startFirst es else es

/-- The entries, and the number of notification handlers that have still to look for a queued workflow. -/
structure Farm where
  entries : List FarmEntry := []
  lookers : Nat := 0
  deriving DecidableEq, Repr

inductive FarmEvent
  | submit (idjob now deadline : Int)
  | mark (idjob : Int)
  /-- A notification that does not end its workflow. -/
  | notify
  /-- A notification that ends its workflow. -/
  | drop (idjob deadline : Int)
  | look (deadline : Int)
  /-- Another lookup. -/
  | lookup (found : FarmEntry → Bool) (deadline : Int)

namespace Farm

def markEntry (idjob : Int) (e : FarmEntry) : FarmEntry :=
  if e.idjob = idjob ∧ e.unmarked then { e with status := .unknown, unmarked := false } else e

/-- Only workflows that have been started can end. -/
def ends (idjob : Int) (e : FarmEntry) : Bool := e.idjob = idjob && e.started

def step (sz : FarmSize) (s : Farm) : FarmEvent → Farm
  | .submit idjob now deadline => { s with entries := (insertJob sz s.entries { idjob, timestamp := now } deadline).2 }
  | .mark idjob => { s with entries := s.entries.map (markEntry idjob) }
  | .notify => { s with lookers := s.lookers + 1 }
  | .drop idjob deadline =>
    let es := purge deadline (hasJob idjob) s.entries
    if es.any (ends idjob) then ⟨es.eraseP (ends idjob), s.lookers + 1⟩ else { s with entries := es }
  | .look deadline =>
    if s.lookers = 0 then s
    else ⟨startUnstarted sz (s.entries.filter fun e => !e.expired deadline), s.lookers - 1⟩
  | .lookup found deadline => { s with entries := purge deadline found s.entries }

/-- The number of workflows that have been started. -/
def startedNum (s : Farm) : Nat := s.entries.countP FarmEntry.started

end Farm

variable {sz : FarmSize} {es : List FarmEntry} {e : FarmEntry} {deadline : Int} {found : FarmEntry → Bool}

theorem purge_sublist (deadline : Int) (found : FarmEntry → Bool) (es : List FarmEntry) :
    (purge deadline found es).Sublist es := by
  induction es with
  | nil => exact List.Sublist.refl _
  | cons e es ih =>
    unfold purge
    split
    · exact ih.cons e
    · split
      · exact List.Sublist.refl _
      · exact ih.cons_cons e

theorem insertJob_cases (sz : FarmSize) (es : List FarmEntry) (e : FarmEntry) (deadline : Int) :
    ((insertJob sz es e deadline).2.Sublist es ∧ (insertJob sz es e deadline).1 ∈ [.full, .existingJob]) ∨
    (sz.farmFull es.length = false ∧
      insertJob sz es e deadline = (.ok, purge deadline (hasJob e.idjob) es ++ [e])) ∨
    (sz.farmFull es.length = true ∧ sz.full es.length = false ∧
      insertJob sz es e deadline = (.farmFull, purge deadline (hasJob e.idjob) es ++ [{ e with unmarked := true }])) := by
  unfold insertJob
  by_cases hfull : sz.full es.length = true
  · rw [if_pos hfull]
    exact .inl ⟨List.Sublist.refl _, List.mem_cons_self⟩
  · rw [if_neg hfull]
    dsimp only
    split
    · exact .inl ⟨purge_sublist _ _ _, List.mem_cons_of_mem _ List.mem_cons_self⟩
    · right
      by_cases hff : sz.farmFull es.length = true
      · rw [if_pos hff]
        exact .inr ⟨hff, Bool.eq_false_iff.mpr hfull, rfl⟩
      · rw [if_neg hff]
        exact .inl ⟨Bool.eq_false_iff.mpr hff, rfl⟩

theorem lt_farm_of_not_farmFull {n : Nat} (hfarm : 0 < sz.farm) (h : sz.farmFull n = false) : n < sz.farm := by
  have h' := of_decide_eq_false h
  omega

/-- The sum of the sizes may overflow, but then nothing is queued. -/
theorem lt_of_not_full {n : Nat} (hff : sz.farmFull n = true) (h : sz.full n = false) (hq : 0 < sz.queue) :
    n < sz.farm + sz.queue := by
  have h' := of_decide_eq_false h
  have hmod := Nat.mod_le (sz.farm + sz.queue) (2 ^ 32)
  by_contra hge
  exact h' ⟨hff, by omega, by omega⟩

theorem startFirst_length (es : List FarmEntry) : (startFirst es).length = es.length := by
  induction es with
  | nil => rfl
  | cons e es ih =>
    unfold startFirst
    split
    · rfl
    · exact congrArg (· + 1) ih

theorem running_startFirst_le (es : List FarmEntry) : running (startFirst es) ≤ running es + 1 := by
  induction es with
  | nil => exact Nat.zero_le _
  | cons e es ih =>
    unfold startFirst
    by_cases h : e.unstarted = true
    · rw [if_pos h, running, running, List.countP_cons_of_pos (by rfl), List.countP_cons_of_neg (by simp [h])]
    · rw [if_neg h]
      unfold running at ih ⊢
      rw [List.countP_cons_of_pos (by simp [h]), List.countP_cons_of_pos (by simp [h])]
      omega

theorem not_unstarted_of_started (h : e.started = true) : (!e.unstarted) = true := by
  simp_all [FarmEntry.started, FarmEntry.unstarted]

theorem countP_started_le_running (es : List FarmEntry) : es.countP FarmEntry.started ≤ running es :=
  List.countP_mono_left fun _ _ => not_unstarted_of_started

namespace Farm

variable {s : Farm} {a : FarmEvent}

/-- The farm and the queue are not larger than they may be. -/
structure Bounded (sz : FarmSize) (s : Farm) : Prop where
  farm : s.startedNum ≤ sz.farm
  queue : 0 < sz.queue → s.entries.length ≤ sz.farm + sz.queue

theorem Bounded.of_sublist {s' : Farm} (h : s.Bounded sz) (hs : s'.entries.Sublist s.entries) : s'.Bounded sz :=
  ⟨hs.countP_le.trans h.farm, fun hq => hs.length_le.trans (h.queue hq)⟩

theorem bounded_insertJob (h : s.Bounded sz) (hfarm : 0 < sz.farm) (e : FarmEntry) (deadline : Int) :
    Bounded sz { s with entries := (insertJob sz s.entries e deadline).2 } := by
  have hsub := purge_sublist deadline (hasJob e.idjob) s.entries
  have hlen := hsub.length_le
  have hstarted := hsub.countP_le (p := FarmEntry.started)
  have hle := List.countP_le_length (p := FarmEntry.started) (l := purge deadline (hasJob e.idjob) s.entries)
  obtain ⟨hs, -⟩ | ⟨hplace, hinsert⟩ | ⟨hff, hfull, hinsert⟩ := insertJob_cases sz s.entries e deadline
  · exact h.of_sublist hs
  · have hlt := lt_farm_of_not_farmFull hfarm hplace
    rw [hinsert]
    constructor
    · show List.countP _ (_ ++ [_]) ≤ _
      rw [List.countP_append, List.countP_singleton]
      split <;> omega
    · intro hq
      show (_ ++ [_]).length ≤ _
      rw [List.length_append, List.length_singleton]
      omega
  · rw [hinsert]
    constructor
    · show List.countP _ (_ ++ [_]) ≤ _
      rw [List.countP_append, List.countP_singleton, if_neg (by simp [FarmEntry.started])]
      exact hstarted.trans h.farm
    · intro hq
      have hlt := lt_of_not_full hff hfull hq
      show (_ ++ [_]).length ≤ _
      rw [List.length_append, List.length_singleton]
      omega

theorem started_markEntry (idjob : Int) (e : FarmEntry) (h : (markEntry idjob e).started = true) :
    e.started = true := by
  unfold markEntry at h
  split at h
  · simp [FarmEntry.started] at h
  · exact h

theorem bounded_mark (h : s.Bounded sz) (idjob : Int) :
    Bounded sz { s with entries := s.entries.map (markEntry idjob) } := by
  constructor
  · show List.countP _ (List.map _ _) ≤ _
    rw [List.countP_map]
    exact (List.countP_mono_left fun e _ => started_markEntry idjob e).trans h.farm
  · intro hq
    show (List.map _ _).length ≤ _
    rw [List.length_map]
    exact h.queue hq

theorem bounded_startUnstarted (h : s.Bounded sz) : Bounded sz { s with entries := startUnstarted sz s.entries } := by
  unfold startUnstarted
  split
  · next hstarts =>
    obtain ⟨-, hplace, -⟩ := of_decide_eq_true hstarts
    constructor
    · calc (startFirst s.entries).countP FarmEntry.started
        _ ≤ running (startFirst s.entries) := countP_started_le_running _
        _ ≤ running s.entries + 1 := running_startFirst_le _
        _ ≤ sz.farm := hplace
    · intro hq
      show (startFirst s.entries).length ≤ _
      rw [startFirst_length]
      exact h.queue hq
  · exact h

theorem bounded_step (hfarm : 0 < sz.farm) (h : s.Bounded sz) (a : FarmEvent) : (s.step sz a).Bounded sz := by
  cases a with
  | submit idjob now deadline => exact bounded_insertJob h hfarm _ deadline
  | mark idjob => exact bounded_mark h idjob
  | notify => exact ⟨h.farm, h.queue⟩
  | drop idjob deadline =>
    have hsub := purge_sublist deadline (hasJob idjob) s.entries
    unfold step
    dsimp only
    split
    · exact h.of_sublist (List.eraseP_sublist.trans hsub)
    · exact h.of_sublist hsub
  | look deadline =>
    unfold step
    dsimp only
    split
    · exact h
    · have hpurged : Bounded sz ⟨s.entries.filter fun e => !e.expired deadline, s.lookers - 1⟩ :=
        h.of_sublist List.filter_sublist
      exact bounded_startUnstarted hpurged
  | lookup found deadline => exact h.of_sublist (purge_sublist deadline found s.entries)

end Farm
end OphidiaWorkflow.Server
