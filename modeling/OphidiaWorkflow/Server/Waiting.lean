import Mathlib.Data.Int.Basic
import OphidiaWorkflow.Lib.Loops
import OphidiaWorkflow.Lib.Runs

/-!
The threads of OPH_WAIT and the release of their workflow: `_oph_wait` with `_oph_wait_stat`, and `oph_workflow_free`.

A step of a thread ends where it gives up the lock, or where it has accessed the workflow without it.
-/
namespace OphidiaWorkflow.Waiting

open Lib

/-- What a thread waits for: a file of the server, an object that `curl` checks, or anything else. -/
inductive Kind
  | file | object | other
  deriving DecidableEq, Repr

/-- Where a thread is. The flag tells the check at the top of the outer loop from the one after the inner loop. -/
inductive Point
  | start
  | top
  | asked (first : Bool)
  | scanning (first : Bool)
  | reading (first : Bool)
  | inner
  | sleeping
  | check
  | ended
  | notifying
  | freeing
  | done
  deriving DecidableEq, Repr

/-- What a thread learns in a step: whether the object or the report is there, or something has failed. At the end:
whether the thread goes on to notify. -/
inductive Report
  | found | missing | failed
  deriving DecidableEq, Repr

/-- A thread with the status of its task; `status` and `task` tell whether the local status and the one in the workflow
are `OPH_ODB_STATUS_WAIT`. -/
structure Thread where
  kind : Kind
  timeout : Int
  counter : Int := 0
  status : Bool := true
  task : Bool := true
  fastExit : Bool := false
  point : Point := .start
  deriving DecidableEq, Repr

/-- The workflow with `waiting_tasks_num`, whether its status is final, whether its job is in the job list, and whether
the server has called `oph_workflow_free`; `violated` tells whether it has been accessed after it was released. -/
structure Workflow where
  waiting : Int := 0
  completed : Bool := false
  listed : Bool := true
  freed : Bool := false
  released : Nat := 0
  violated : Bool := false
  deriving DecidableEq, Repr

namespace Workflow

/-- An access. -/
def touch (w : Workflow) : Workflow := { w with violated := w.violated || decide (0 < w.released) }

/-- `oph_workflow_free` -/
def free (w : Workflow) : Workflow :=
  let w := w.touch
  if w.waiting ≠ 0 then if w.waiting > 0 then { w with waiting := -w.waiting } else w
  else { w with released := w.released + 1 }

end Workflow

namespace Thread

/-- The condition of the inner loop, and the step to the next sleep. -/
def enter (w : Workflow) (t : Thread) : Workflow × Thread :=
  if t.status ∧ (t.timeout < 0 ∨ t.counter < t.timeout) then
    let w := w.touch
    ({ w with waiting := if w.waiting ≥ 0 then w.waiting + 1 else w.waiting - 1 }, { t with point := .sleeping })
  else (w, { t with point := if t.status then .check else .ended })

/-- What a thread sees after a sleep; the task fails when the workflow is over. -/
def look (w : Workflow) (t : Thread) : Thread :=
  { t with counter := t.counter + 1, status := !w.completed && t.task, task := !w.completed && t.task }

/-- The end of a sleep. -/
def wake (w : Workflow) (t : Thread) : Workflow × Thread :=
  let w := w.touch
  let t := t.look w
  if w.waiting > 0 then enter { w with waiting := w.waiting - 1 } t
  else
    let w := { w with waiting := w.waiting + 1 }
    if w.waiting = 0 then enter w { t with status := false, fastExit := true } else enter w t

/-- The status of the task is set to `OPH_ODB_STATUS_COMPLETED` or `OPH_ODB_STATUS_ERROR`. -/
def settle (w : Workflow) (t : Thread) : Workflow × Thread :=
  (w.touch, { t with status := false, task := false, point := .ended })

/-- The request of `_oph_wait_stat`. -/
def ask (w : Workflow) (t : Thread) (r : Report) (first : Bool) : Workflow × Thread :=
  if r = .failed then settle w t else (w.touch, { t with point := .asked first })

/-- The loop of `_oph_wait_stat` while the report has not arrived. -/
def await (w : Workflow) (t : Thread) (r : Report) (first : Bool) : Workflow × Thread :=
  (w.touch, { t with point := if r = .found then .reading first else .scanning first })

/-- The end of the thread, where it may have to free the workflow. -/
def leave (t : Thread) : Thread := { t with point := if t.fastExit then .freeing else .done }

/-- One step of `_oph_wait`. -/
def advance (w : Workflow) (t : Thread) (r : Report) : Workflow × Thread :=
  match t.point with
  | .start =>
    if r = .failed then (w.touch, t.leave)
    else (w.touch, { t with status := t.task, point := if t.task then .top else .ended })
  | .top =>
    match t.kind with
    | .file => ask w t r true
    | .object => if r = .found then settle w t else enter w { t with counter := 0 }
    | .other => enter w { t with counter := 0 }
  | .asked first => await w t r first
  | .scanning first => if w.listed then await w t r first else (w, t.leave)
  | .reading first =>
    if r = .missing then (w.touch, { t with point := if first then .inner else .top }) else settle w t
  | .inner => enter w { t with counter := 0 }
  | .sleeping => wake w t
  | .check =>
    match t.kind with
    | .file => ask w t r false
    | .object => if r = .found then settle w t else (w, { t with point := .top })
    | .other => settle w t
  | .ended => (w.touch, if r = .found ∧ !t.fastExit then { t with point := .notifying } else t.leave)
  | .notifying => (w.touch, t.leave)
  | .freeing => (w.free, { t with point := .done })
  | .done => (w, t)

/-- The thread will access the workflow without being counted. -/
def awake (t : Thread) : Bool :=
  match t.point with
  | .scanning _ | .sleeping | .done => false
  | _ => true

end Thread

structure State where
  workflow : Workflow := {}
  threads : List Thread := []
  deriving DecidableEq, Repr

/-- The steps of the server: it starts a thread, sets the status of a task or of the workflow, takes the job of the
workflow out of the job list and frees the workflow; and the ones of the threads. -/
inductive Event
  | create (kind : Kind) (timeout : Int)
  | set (i : Nat)
  | complete
  | drop
  | free
  | run (i : Nat) (r : Report)
  deriving DecidableEq, Repr

/-- The server does nothing with a workflow whose job is not in the list, except that it frees it once. -/
def step (s : State) : Event → State
  | .create kind timeout => if s.workflow.listed then { s with threads := s.threads ++ [{ kind, timeout }] } else s
  | .set i => if s.workflow.listed then { s with threads := s.threads.modify i fun t => { t with task := false } } else s
  | .complete => if s.workflow.listed then { s with workflow := { s.workflow with completed := true } } else s
  | .drop => { s with workflow := { s.workflow with listed := false } }
  | .free =>
    if s.workflow.listed ∨ s.workflow.freed then s else { s with workflow := { s.workflow.free with freed := true } }
  | .run i r =>
    match s.threads[i]? with
    | none => s
    | some t =>
      let p := t.advance s.workflow r
      { workflow := p.1, threads := s.threads.set i p.2 }

/-- All the threads have come to their end. -/
def Finished (s : State) : Prop := ∀ t ∈ s.threads, t.point = .done

/-- The workflow is released once in all, and not accessed afterwards. -/
structure Sound (s : State) : Prop where
  released_le : s.workflow.released ≤ 1
  not_violated : s.workflow.violated = false
  released : s.workflow.freed = true → Finished s → s.workflow.released = 1

/-- The event calls `oph_workflow_free` while nobody is counted; the place is the one of the thread, if a thread calls
it. -/
def releases (s : State) : Event → Option (Option Nat)
  | .free => if s.workflow.listed ∨ s.workflow.freed ∨ s.workflow.waiting ≠ 0 then none else some none
  | .run i _ =>
    if (s.threads[i]?.map Thread.point) = some .freeing ∧ s.workflow.waiting = 0 then some (some i) else none
  | _ => none

/-- When the workflow is released, the other threads are over, or they wait for a report that they will not read. -/
def Quiet (s : State) (e : Event) : Prop :=
  ∀ caller, releases s e = some caller → ∀ j t, s.threads[j]? = some t → some j ≠ caller → t.awake = false

/-- The thread has to free the workflow. -/
def Thread.Pending (t : Thread) : Prop := t.fastExit = true ∧ t.point ≠ .done

/-- How many threads the counter counts, `freed` once it has been negated. -/
def Counted (freed : Prop) (waiting : Int) (k : Nat) : Prop := waiting = k ∨ (freed ∧ waiting = -k)

/-- What a thread counts for. -/
def Thread.slept (t : Thread) : Nat := if t.point = .sleeping then 1 else 0

/-- A thread that has to free the workflow is after its loop, and no other one does. -/
structure Thread.Valid (t : Thread) : Prop where
  fast : t.fastExit = true → t.point = .ended ∨ t.point = .freeing ∨ t.point = .done
  freeing : t.point = .freeing → t.fastExit = true

/-- What a step of a thread other than the call of `oph_workflow_free` does to a workflow that has not been released. -/
structure Moves (w : Workflow) (t : Thread) (p : Workflow × Thread) : Prop where
  same : p.1 = { w with waiting := p.1.waiting }
  count : ∀ f k, Counted f w.waiting (k + t.slept) → Counted f p.1.waiting (k + p.2.slept)
  valid : p.2.Valid
  fast : p.2.fastExit = true → t.fastExit = true ∨ w.waiting < 0
  pending : t.Pending → p.2.Pending
  negative : w.waiting < 0 → p.1.waiting < 0 ∨ p.2.Pending

section Moves

variable {w : Workflow} {t t' : Thread} {r : Report} {first : Bool}

theorem touch_eq (hw : w.released = 0) : w.touch = w := by
  have h : (w.violated || decide (0 < w.released)) = w.violated := by simp [hw]
  rw [Workflow.touch, h]

theorem Counted.raise {f : Prop} {n : Int} {k : Nat} (h : Counted f n k) :
    Counted f (if n ≥ 0 then n + 1 else n - 1) (k + 1) := by
  unfold Counted at h ⊢
  rcases h with h | ⟨hf, h⟩
  · rw [if_pos (by omega)]
    exact Or.inl (by omega)
  · by_cases hk : n ≥ 0
    · rw [if_pos hk]
      exact Or.inl (by omega)
    · rw [if_neg hk]
      exact Or.inr ⟨hf, by omega⟩

theorem Counted.lower {f : Prop} {n : Int} {k : Nat} (h : Counted f n (k + 1)) :
    Counted f (if n > 0 then n - 1 else n + 1) k := by
  unfold Counted at h ⊢
  rcases h with h | ⟨hf, h⟩
  · rw [if_pos (by omega)]
    exact Or.inl (by omega)
  · rw [if_neg (by omega)]
    exact Or.inr ⟨hf, by omega⟩

theorem Moves.plain (hf : t'.fastExit = t.fastExit) (ht : t.point ≠ .sleeping) (ht' : t'.point ≠ .sleeping)
    (hv : t'.Valid)
    (hp : t.Pending → t'.Pending) : Moves w t (w, t') := by
  refine ⟨rfl, fun f k h => ?_, hv, fun h => Or.inl (hf ▸ h), hp, Or.inl⟩
  rw [Thread.slept, if_neg ht] at h
  rw [Thread.slept, if_neg ht']
  exact h

theorem valid_of_not_fast (h : t.fastExit = false) (hp : t.point ≠ .freeing) : t.Valid :=
  ⟨fun hf => absurd hf (by simp [h]), fun hf => absurd hf hp⟩

theorem valid_leave (t : Thread) : t.leave.Valid := by
  unfold Thread.leave
  constructor
  · intro h
    have h : t.fastExit = true := h
    exact Or.inr (Or.inl (by simp [h]))
  · intro h
    by_contra hf
    have hf : t.fastExit = false := by simpa using hf
    simp [hf] at h

theorem enter_cases (hw : w.released = 0) (t : Thread) :
    (t.enter w = (w, { t with point := if t.status then .check else .ended })) ∨
      t.status = true ∧ t.enter w =
        ({ w with waiting := if w.waiting ≥ 0 then w.waiting + 1 else w.waiting - 1 }, { t with point := .sleeping }) := by
  unfold Thread.enter
  split
  · next h =>
    rw [touch_eq hw]
    exact Or.inr ⟨h.1, rfl⟩
  · exact Or.inl rfl

theorem Moves.enter (hw : w.released = 0) (ht : t.point ≠ .sleeping) (hp : ¬t.Pending) (hf : t'.fastExit = false)
    (hfe : t'.fastExit = t.fastExit) :
    Moves w t (t'.enter w) := by
  rcases enter_cases hw t' with h | ⟨-, h⟩
  · rw [h]
    apply Moves.plain (by exact hfe) ht
    · simp only
      split <;> exact fun h => by cases h
    · refine valid_of_not_fast (by exact hf) ?_
      simp only
      split <;> exact fun h => by cases h
    · exact fun h => absurd h hp
  · rw [h]
    refine ⟨rfl, fun f k hc => ?_, valid_of_not_fast hf (fun h => by cases h), fun h => Or.inl (hfe ▸ h),
      fun h => absurd h hp, fun hn => Or.inl ?_⟩
    · rw [Thread.slept, if_neg ht] at hc
      exact hc.raise
    · simp only
      rw [if_neg (by omega)]
      omega

/-- The end of a sleep: the thread that lowers the counter to zero has to free the workflow. -/
theorem Moves.wake (hw : w.released = 0) (ht : t.point = .sleeping) (hf : t.fastExit = false) :
    Moves w t (t.wake w) := by
  have hp : ¬t.Pending := fun h => by simp [h.1] at hf
  have hlower : ∀ f k, Counted f w.waiting (k + t.slept) →
      Counted f (if w.waiting > 0 then w.waiting - 1 else w.waiting + 1) k := by
    intro f k hc
    rw [Thread.slept, if_pos ht] at hc
    exact hc.lower
  have hf1 : (t.look w).fastExit = false := hf
  -- what follows a step that leaves the counter at `n` and does not have to free the workflow
  have hrest : ∀ n, n = (if w.waiting > 0 then w.waiting - 1 else w.waiting + 1) → (w.waiting < 0 → n < 0) →
      Moves w t (Thread.enter { w with waiting := n } (t.look w)) := by
    intro n hn hneg
    rcases enter_cases (w := { w with waiting := n }) hw (t.look w) with h | ⟨-, h⟩
    · rw [h]
      refine ⟨rfl, fun f k hc => ?_, ?_, fun h => absurd h (by exact fun h => by simp [hf1] at h), fun h => absurd h hp,
        fun h => Or.inl (hneg h)⟩
      · have hs : Thread.slept { t.look w with point := if (t.look w).status then .check else .ended } = 0 := by
          unfold Thread.slept
          simp only
          split <;> rfl
        rw [hs]
        exact hn ▸ hlower f k hc
      · refine valid_of_not_fast (by exact hf1) ?_
        simp only
        split <;> exact fun h => by cases h
    · rw [h]
      refine ⟨rfl, fun f k hc => ?_, valid_of_not_fast hf1 (fun h => by cases h), fun h => Or.inl h,
        fun h => absurd h hp,
        fun h => Or.inl ?_⟩
      · have hc' := hlower f k hc
        rw [← hn] at hc'
        exact hc'.raise
      · have := hneg h
        simp only
        rw [if_neg (by omega)]
        omega
  unfold Thread.wake
  rw [touch_eq hw]
  simp only
  generalize t.look w = t1 at *
  by_cases hn : w.waiting > 0
  · rw [if_pos hn]
    exact hrest _ (by rw [if_pos hn]) (by omega)
  · rw [if_neg hn]
    by_cases hz : w.waiting + 1 = 0
    · rw [if_pos hz]
      rcases enter_cases (w := { w with waiting := w.waiting + 1 }) hw
        { t1 with status := false, fastExit := true } with
        h | h
      · rw [h]
        refine ⟨rfl, fun f k hc => ?_, ⟨fun _ => Or.inl rfl, fun _ => rfl⟩, fun _ => Or.inr (by omega),
          fun h => absurd h hp, fun _ => Or.inr ⟨rfl, ?_⟩⟩
        · have hc' := hlower f k hc
          rw [if_neg hn] at hc'
          exact hc'
        · exact fun h => by cases h
      · cases h.1
    · rw [if_neg hz]
      exact hrest _ (by rw [if_neg hn]) (by omega)

theorem leave_point_ne (t : Thread) : t.leave.point ≠ .sleeping := by
  unfold Thread.leave
  cases t.fastExit <;> exact fun h => by cases h

theorem Moves.settle (hw : w.released = 0) (ht : t.point ≠ .sleeping) : Moves w t (t.settle w) := by
  rw [Thread.settle, touch_eq hw]
  exact Moves.plain rfl ht (fun h => by cases h) ⟨fun _ => Or.inl rfl, fun h => by cases h⟩
    fun h => ⟨h.1, fun h => by cases h⟩

theorem Moves.ask (hw : w.released = 0) (ht : t.point ≠ .sleeping) (hf : t.fastExit = false) (hp : ¬t.Pending) :
    Moves w t (t.ask w r first) := by
  unfold Thread.ask
  split
  · exact Moves.settle hw ht
  · rw [touch_eq hw]
    exact Moves.plain rfl ht (fun h => by cases h) (valid_of_not_fast hf fun h => by cases h) fun h => absurd h hp

theorem Moves.await (hw : w.released = 0) (ht : t.point ≠ .sleeping) (hf : t.fastExit = false) (hp : ¬t.Pending) :
    Moves w t (t.await w r first) := by
  unfold Thread.await
  rw [touch_eq hw]
  refine Moves.plain rfl ht ?_ (valid_of_not_fast hf ?_) fun h => absurd h hp
  · simp only
    split <;> exact fun h => by cases h
  · simp only
    split <;> exact fun h => by cases h

theorem Moves.leave (ht : t.point ≠ .sleeping) (hp : t.Pending → t.leave.Pending) : Moves w t (w, t.leave) :=
  Moves.plain rfl ht (leave_point_ne t) (valid_leave t) hp

theorem Moves.ended (ht : t.point = .ended) :
    Moves w t (w, if r = .found ∧ !t.fastExit then { t with point := .notifying } else t.leave) := by
  have hs : t.point ≠ .sleeping := by simp [ht]
  cases hf : t.fastExit with
  | true =>
    rw [if_neg (by simp)]
    refine Moves.leave hs fun _ => ⟨hf, ?_⟩
    rw [Thread.leave, hf]
    exact fun h => by cases h
  | false =>
    have hp : ¬t.Pending := fun h => by simp [h.1] at hf
    split
    · exact Moves.plain hf.symm hs (fun h => by cases h) (valid_of_not_fast rfl fun h => by cases h) fun h => absurd h hp
    · exact Moves.leave hs fun h => absurd h hp

theorem Moves.advance (hw : w.released = 0) (hv : t.Valid) (hp : t.point ≠ .freeing) : Moves w t (t.advance w r) := by
  by_cases he : t.point = .ended ∨ t.point = .done
  · unfold Thread.advance
    rcases he with he | he
    · rw [he, touch_eq hw]
      exact Moves.ended he
    · rw [he]
      exact Moves.plain rfl (by simp [he]) (by simp [he]) hv id
  · obtain ⟨hended, hdone⟩ := not_or.mp he
    have hf : t.fastExit = false := by
      by_contra hf
      rcases hv.fast (by simpa using hf) with h | h | h
      · exact hended h
      · exact hp h
      · exact hdone h
    have hnp : ¬t.Pending := fun h => by simp [h.1] at hf
    unfold Thread.advance
    cases ht : t.point with
    | sleeping => exact Moves.wake hw ht hf
    | ended => exact absurd ht hended
    | freeing => exact absurd ht hp
    | done => exact absurd ht hdone
    | start =>
      have hs : t.point ≠ .sleeping := by simp [ht]
      rw [touch_eq hw]
      simp only
      split
      · exact Moves.leave hs fun h => absurd h hnp
      · refine Moves.plain rfl hs ?_ (valid_of_not_fast (by exact hf) ?_) fun h => absurd h hnp
        · simp only
          split <;> exact fun h => by cases h
        · simp only
          split <;> exact fun h => by cases h
    | top =>
      have hs : t.point ≠ .sleeping := by simp [ht]
      cases t.kind with
      | file => exact Moves.ask hw hs hf hnp
      | object =>
        simp only
        split
        · exact Moves.settle hw hs
        · exact Moves.enter hw hs hnp hf rfl
      | other => exact Moves.enter hw hs hnp hf rfl
    | asked first => exact Moves.await hw (by simp [ht]) hf hnp
    | scanning first =>
      have hs : t.point ≠ .sleeping := by simp [ht]
      simp only
      split
      · exact Moves.await hw hs hf hnp
      · exact Moves.leave hs fun h => absurd h hnp
    | reading first =>
      have hs : t.point ≠ .sleeping := by simp [ht]
      simp only
      split
      · rw [touch_eq hw]
        refine Moves.plain rfl hs ?_ (valid_of_not_fast (by exact hf) ?_) fun h => absurd h hnp
        · cases first <;> exact fun h => by cases h
        · cases first <;> exact fun h => by cases h
      · exact Moves.settle hw hs
    | inner => exact Moves.enter hw (by simp [ht]) hnp hf rfl
    | check =>
      have hs : t.point ≠ .sleeping := by simp [ht]
      cases t.kind with
      | file => exact Moves.ask hw hs hf hnp
      | object =>
        simp only
        split
        · exact Moves.settle hw hs
        · exact Moves.plain rfl hs (fun h => by cases h) (valid_of_not_fast (by exact hf) fun h => by cases h) fun h => absurd h hnp
      | other => exact Moves.settle hw hs
    | notifying =>
      rw [touch_eq hw]
      exact Moves.leave (by simp [ht]) fun h => absurd h hnp

end Moves

/-- The threads that are counted. -/
def sleepers (ts : List Thread) : Nat := ts.countP fun t => t.point = .sleeping

theorem sleepers_split (a b : List Thread) (t : Thread) :
    sleepers (a ++ t :: b) = sleepers a + sleepers b + t.slept := by
  simp only [sleepers, Thread.slept, List.countP_append, List.countP_cons, decide_eq_true_eq]
  omega

/-- The workflow has not been released: the counter is the number of the sleeping threads, and once the server has
called `oph_workflow_free` somebody is left to release the workflow. -/
structure Held (s : State) : Prop where
  released : s.workflow.released = 0
  not_violated : s.workflow.violated = false
  count : Counted (s.workflow.freed = true) s.workflow.waiting (sleepers s.threads)
  valid : ∀ t ∈ s.threads, t.Valid
  fast : ∀ t ∈ s.threads, t.fastExit = true → s.workflow.freed = true
  freed : s.workflow.freed = true → s.workflow.listed = false ∧ (s.workflow.waiting < 0 ∨ ∃ t ∈ s.threads, t.Pending)

/-- The workflow has been released and nobody will access it. -/
structure Gone (s : State) : Prop where
  released : s.workflow.released = 1
  not_violated : s.workflow.violated = false
  freed : s.workflow.freed = true
  listed : s.workflow.listed = false
  past : ∀ t ∈ s.threads, t.fastExit = true → t.point = .done
  quiet : ∀ t ∈ s.threads, t.point = .done ∨ ∃ first, t.point = .scanning first

variable {s : State} {e : Event}

theorem Held.sound (h : Held s) : Sound s := by
  refine ⟨by simp [h.released], h.not_violated, fun hf hd => ?_⟩
  have hz : sleepers s.threads = 0 := by
    rw [sleepers, List.countP_eq_zero]
    intro t ht
    simp [hd t ht]
  rcases (h.freed hf).2 with hn | ⟨t, ht, hp⟩
  · have hc := h.count
    rw [hz] at hc
    rcases hc with hc | ⟨-, hc⟩ <;> omega
  · exact absurd (hd t ht) hp.2

theorem Gone.sound (h : Gone s) : Sound s := ⟨by simp [h.released], h.not_violated, fun _ _ => h.released⟩

theorem Gone.step (h : Gone s) (e : Event) : Gone (step s e) := by
  cases e with
  | create kind timeout =>
    rw [Waiting.step, if_neg (by simp [h.listed])]
    exact h
  | set i =>
    rw [Waiting.step, if_neg (by simp [h.listed])]
    exact h
  | complete =>
    rw [Waiting.step, if_neg (by simp [h.listed])]
    exact h
  | drop => exact ⟨h.released, h.not_violated, h.freed, rfl, h.past, h.quiet⟩
  | free =>
    rw [Waiting.step, if_pos (Or.inr h.freed)]
    exact h
  | run i r =>
    rw [Waiting.step]
    cases ht : s.threads[i]? with
    | none => exact h
    | some t =>
      have hm := List.mem_of_getElem? ht
      have hstep : t.advance s.workflow r = (s.workflow, { t with point := .done }) := by
        unfold Thread.advance
        rcases h.quiet t hm with hd | ⟨first, hd⟩
        · rw [hd]
          simp only [← hd]
        · have hf : t.fastExit = false := by
            by_contra hf
            rw [h.past t hm (by simpa using hf)] at hd
            cases hd
          rw [hd]
          simp [h.listed, Thread.leave, hf]
      simp only [hstep]
      refine ⟨h.released, h.not_violated, h.freed, h.listed, fun u hu hf => ?_, fun u hu => ?_⟩
      · rcases List.mem_or_eq_of_mem_set hu with hu | rfl
        · exact h.past u hu hf
        · rfl
      · rcases List.mem_or_eq_of_mem_set hu with hu | rfl
        · exact h.quiet u hu
        · exact Or.inl rfl

theorem free_of_ne_zero {w : Workflow} (hw : w.released = 0) (hn : w.waiting ≠ 0) :
    w.free = { w with waiting := if w.waiting > 0 then -w.waiting else w.waiting } := by
  rw [Workflow.free, touch_eq hw]
  simp only [ne_eq, hn, not_false_eq_true, if_true]
  split <;> rfl

theorem free_of_eq_zero {w : Workflow} (hw : w.released = 0) (hn : w.waiting = 0) :
    w.free = { w with released := 1 } := by
  rw [Workflow.free, touch_eq hw]
  simp [hn, hw]

theorem Counted.negate {n : Int} {k : Nat} {f : Prop} (h : Counted f n k) :
    Counted True (if n > 0 then -n else n) k := by
  unfold Counted at h ⊢
  split
  · exact Or.inr ⟨trivial, by omega⟩
  · rcases h with h | ⟨-, h⟩
    · exact Or.inl h
    · exact Or.inr ⟨trivial, h⟩

/-- When nobody is counted and no other thread is awake, no other thread will access the workflow. -/
theorem over_of_quiet {t : Thread} (hz : t.point ≠ .sleeping) (ha : t.awake = false) (hv : t.Valid) :
    (t.fastExit = true → t.point = .done) ∧ (t.point = .done ∨ ∃ first, t.point = .scanning first) := by
  have hp : t.point = .done ∨ ∃ first, t.point = .scanning first := by
    unfold Thread.awake at ha
    cases h : t.point with
    | done => exact Or.inl rfl
    | scanning first => exact Or.inr ⟨first, rfl⟩
    | sleeping => exact absurd h hz
    | _ => simp [h] at ha
  refine ⟨fun hf => ?_, hp⟩
  rcases hp with hp | ⟨first, hp⟩
  · exact hp
  · rcases hv.fast hf with h | h | h <;> rw [hp] at h <;> cases h

theorem Counted.zero {f : Prop} {k : Nat} (h : Counted f 0 k) : k = 0 := by
  unfold Counted at h
  omega

theorem not_sleeping_of_sleepers {ts : List Thread} (h : sleepers ts = 0) {t : Thread} (ht : t ∈ ts) :
    t.point ≠ .sleeping := by
  rw [sleepers, List.countP_eq_zero] at h
  simpa using h t ht

theorem Held.free (h : Held s) (hq : Quiet s .free) : Held (step s .free) ∨ Gone (step s .free) := by
  rw [Waiting.step]
  by_cases hg : s.workflow.listed = true ∨ s.workflow.freed = true
  · rw [if_pos hg]
    exact Or.inl h
  · rw [if_neg hg]
    obtain ⟨hlisted, hfreed⟩ := not_or.mp hg
    have hlisted : s.workflow.listed = false := by simpa using hlisted
    by_cases hn : s.workflow.waiting = 0
    · have hz : sleepers s.threads = 0 := Counted.zero (hn ▸ h.count)
      have hover : ∀ t ∈ s.threads, (t.fastExit = true → t.point = .done) ∧
          (t.point = .done ∨ ∃ first, t.point = .scanning first) := by
        intro t ht
        obtain ⟨j, hj⟩ := List.getElem?_of_mem ht
        have ha := hq none (by simp [releases, hlisted, hfreed, hn]) j t hj (by simp)
        exact over_of_quiet (not_sleeping_of_sleepers hz ht) ha (h.valid t ht)
      rw [free_of_eq_zero h.released hn]
      exact Or.inr ⟨rfl, h.not_violated, rfl, hlisted, fun t ht => (hover t ht).1, fun t ht => (hover t ht).2⟩
    · rw [free_of_ne_zero h.released hn]
      refine Or.inl ⟨h.released, h.not_violated, ?_, h.valid, fun _ _ _ => rfl, fun _ => ⟨hlisted, Or.inl ?_⟩⟩
      · simpa using h.count.negate
      · simp only
        split <;> omega

theorem mem_set_cases {α : Type} {l : List α} {i : Nat} {a u : α} (h : u ∈ l.set i a) :
    u = a ∨ ∃ j, j ≠ i ∧ l[j]? = some u := by
  obtain ⟨j, hj⟩ := List.getElem?_of_mem h
  rw [List.getElem?_set] at hj
  split at hj
  · split at hj
    · exact Or.inl (Option.some.inj hj).symm
    · cases hj
  · next hne => exact Or.inr ⟨j, Ne.symm hne, hj⟩

theorem sleepers_set {ts : List Thread} {i : Nat} {t : Thread} (h : ts[i]? = some t) (t' : Thread) :
    ∃ k, sleepers ts = k + t.slept ∧ sleepers (ts.set i t') = k + t'.slept := by
  obtain ⟨hi, rfl⟩ := List.getElem?_eq_some_iff.mp h
  obtain ⟨a, b, hab, -, hset⟩ : ∃ a b, ts = a ++ ts[i] :: b ∧ a.length = i ∧ ts.set i t' = a ++ t' :: b :=
    List.exists_of_set hi
  refine ⟨sleepers a + sleepers b, ?_, ?_⟩
  · conv => lhs; rw [hab]
    exact sleepers_split a b _
  · rw [hset]
    exact sleepers_split a b t'

theorem Held.freeing {i : Nat} {t : Thread} {r : Report} (h : Held s) (ht : s.threads[i]? = some t)
    (hp : t.point = .freeing) (hq : Quiet s (.run i r)) : Held (step s (.run i r)) ∨ Gone (step s (.run i r)) := by
  have hstep : step s (.run i r) = ⟨s.workflow.free, s.threads.set i { t with point := .done }⟩ := by
    rw [Waiting.step, ht]
    simp only [Thread.advance, hp]
  have hm := List.mem_of_getElem? ht
  have hfreed := h.fast _ hm ((h.valid t hm).freeing hp)
  rw [hstep]
  by_cases hn : s.workflow.waiting = 0
  · have hz : sleepers s.threads = 0 := Counted.zero (hn ▸ h.count)
    have hover : ∀ j u, j ≠ i → s.threads[j]? = some u → (u.fastExit = true → u.point = .done) ∧
        (u.point = .done ∨ ∃ first, u.point = .scanning first) := by
      intro j u hj hu
      have hu' := List.mem_of_getElem? hu
      have ha := hq (some i) (by simp [releases, ht, hp, hn]) j u hu (by simpa using hj)
      exact over_of_quiet (not_sleeping_of_sleepers hz hu') ha (h.valid u hu')
    rw [free_of_eq_zero h.released hn]
    refine Or.inr ⟨rfl, h.not_violated, hfreed, (h.freed hfreed).1, fun u hu => ?_, fun u hu => ?_⟩
    · rcases mem_set_cases hu with rfl | ⟨j, hj, hu⟩
      · exact fun _ => rfl
      · exact (hover j u hj hu).1
    · rcases mem_set_cases hu with rfl | ⟨j, hj, hu⟩
      · exact Or.inl rfl
      · exact (hover j u hj hu).2
  · obtain ⟨k, hk, hk'⟩ := sleepers_set ht { t with point := .done }
    have hcount : sleepers (s.threads.set i { t with point := .done }) = sleepers s.threads := by
      rw [hk', hk, Thread.slept, Thread.slept, if_neg (by simp), if_neg (by simp [hp])]
    rw [free_of_ne_zero h.released hn]
    refine Or.inl ⟨h.released, h.not_violated, ?_, fun u hu => ?_, fun u hu => ?_,
      fun _ => ⟨(h.freed hfreed).1, Or.inl ?_⟩⟩
    · rw [hcount]
      simpa [hfreed] using h.count.negate
    · rcases mem_set_cases hu with rfl | ⟨j, hj, hu⟩
      · exact ⟨fun _ => Or.inr (Or.inr rfl), fun h => by cases h⟩
      · exact h.valid u (List.mem_of_getElem? hu)
    · exact fun _ => hfreed
    · simp only
      split <;> omega

theorem Held.run {i : Nat} {t : Thread} {r : Report} (h : Held s) (ht : s.threads[i]? = some t)
    (hp : t.point ≠ .freeing) :
    Held (step s (.run i r)) := by
  have hm := List.mem_of_getElem? ht
  have hmoves := Moves.advance (r := r) h.released (h.valid t hm) hp
  obtain ⟨k, hk, hk'⟩ := sleepers_set ht (t.advance s.workflow r).2
  have hcount := hmoves.count (s.workflow.freed = true) k (hk ▸ h.count)
  rw [← hk'] at hcount
  have hstep : step s (.run i r) = ⟨(t.advance s.workflow r).1, s.threads.set i (t.advance s.workflow r).2⟩ := by
    rw [Waiting.step, ht]
  have hi := (List.getElem?_eq_some_iff.mp ht).1
  have hmem : (t.advance s.workflow r).2 ∈ s.threads.set i (t.advance s.workflow r).2 := List.mem_set hi _
  rw [hstep]
  generalize t.advance s.workflow r = p at *
  obtain ⟨w, t'⟩ := p
  have hsame := hmoves.same
  have hfast : t'.fastExit = true → s.workflow.freed = true := by
    intro hf
    rcases hmoves.fast hf with hf | hn
    · exact h.fast t hm hf
    · rcases h.count with hc | ⟨hc, -⟩
      · omega
      · exact hc
  rw [hsame] at hcount ⊢
  refine ⟨h.released, h.not_violated, hcount, fun u hu => ?_, fun u hu => ?_, fun hf => ⟨(h.freed hf).1, ?_⟩⟩
  · rcases mem_set_cases hu with rfl | ⟨j, hj, hu⟩
    · exact hmoves.valid
    · exact h.valid u (List.mem_of_getElem? hu)
  · rcases mem_set_cases hu with rfl | ⟨j, hj, hu⟩
    · exact hfast
    · exact h.fast u (List.mem_of_getElem? hu)
  · rcases (h.freed hf).2 with hn | ⟨u, hu, hpend⟩
    · rcases hmoves.negative hn with hn | hpend
      · exact Or.inl hn
      · exact Or.inr ⟨t', hmem, hpend⟩
    · obtain ⟨j, hj⟩ := List.getElem?_of_mem hu
      by_cases hji : j = i
      · subst hji
        obtain rfl := Option.some.inj (ht.symm.trans hj)
        exact Or.inr ⟨t', hmem, hmoves.pending hpend⟩
      · refine Or.inr ⟨u, List.mem_of_getElem? (i := j) ?_, hpend⟩
        rw [List.getElem?_set_ne (Ne.symm hji)]
        exact hj

theorem mem_modify_task {ts : List Thread} {i : Nat} {u : Thread}
    (h : u ∈ ts.modify i fun t => { t with task := false }) :
    ∃ t ∈ ts, u.point = t.point ∧ u.fastExit = t.fastExit := by
  obtain ⟨j, hj⟩ := List.getElem?_of_mem h
  rw [List.getElem?_modify] at hj
  obtain ⟨t, ht, rfl⟩ := Option.map_eq_some_iff.mp hj
  refine ⟨t, List.mem_of_getElem? ht, ?_⟩
  split <;> exact ⟨rfl, rfl⟩

theorem sleepers_modify_task (ts : List Thread) (i : Nat) :
    sleepers (ts.modify i fun t => { t with task := false }) = sleepers ts := by
  have h : ∀ l : List Thread, sleepers l = (l.map Thread.point).countP (· = .sleeping) := by
    intro l
    rw [List.countP_map]
    rfl
  rw [h, h, map_modify_of_eq (f := fun t : Thread => { t with task := false }) (g := Thread.point) fun _ => rfl]

theorem Held.step (h : Held s) (hq : Quiet s e) : Held (step s e) ∨ Gone (step s e) := by
  have hlisted : s.workflow.listed = true → s.workflow.freed = false := by
    intro hl
    by_contra hf
    rw [(h.freed (by simpa using hf)).1] at hl
    cases hl
  cases e with
  | create kind timeout =>
    rw [Waiting.step]
    split
    · next hl =>
      have hnew : ∀ u ∈ s.threads ++ [({ kind, timeout } : Thread)], u ∈ s.threads ∨ u = { kind, timeout } := by
        intro u hu
        simpa using hu
      refine Or.inl ⟨h.released, h.not_violated, ?_, fun u hu => ?_, fun u hu => ?_, fun hf => ?_⟩
      · have hc : sleepers (s.threads ++ [({ kind, timeout } : Thread)]) = sleepers s.threads := by simp [sleepers]
        rw [hc]
        exact h.count
      · rcases hnew u hu with hu | rfl
        · exact h.valid u hu
        · exact valid_of_not_fast rfl fun h => by cases h
      · rcases hnew u hu with hu | rfl
        · exact h.fast u hu
        · exact fun h => by cases h
      · rw [hlisted hl] at hf
        cases hf
    · exact Or.inl h
  | set i =>
    rw [Waiting.step]
    split
    · next hl =>
      refine Or.inl ⟨h.released, h.not_violated, ?_, fun u hu => ?_, fun u hu => ?_, fun hf => ?_⟩
      · rw [sleepers_modify_task]
        exact h.count
      · obtain ⟨t, ht, hp, hf⟩ := mem_modify_task hu
        constructor
        · rw [hp, hf]
          exact (h.valid t ht).fast
        · rw [hp, hf]
          exact (h.valid t ht).freeing
      · obtain ⟨t, ht, -, hf⟩ := mem_modify_task hu
        rw [hf]
        exact h.fast t ht
      · rw [hlisted hl] at hf
        cases hf
    · exact Or.inl h
  | complete =>
    rw [Waiting.step]
    split
    · exact Or.inl ⟨h.released, h.not_violated, h.count, h.valid, h.fast, h.freed⟩
    · exact Or.inl h
  | drop => exact Or.inl ⟨h.released, h.not_violated, h.count, h.valid, h.fast, fun hf => ⟨rfl, (h.freed hf).2⟩⟩
  | free => exact h.free hq
  | run i r =>
    cases ht : s.threads[i]? with
    | none =>
      rw [Waiting.step, ht]
      exact Or.inl h
    | some t =>
      by_cases hp : t.point = .freeing
      · exact h.freeing ht hp hq
      · exact Or.inl (h.run ht hp)

/-- What holds of a run in which nobody is awake when the workflow is released. -/
theorem held_or_gone {es : List Event} (h : Along step Quiet {} es) :
    Held (es.foldl step {}) ∨ Gone (es.foldl step {}) := by
  apply h.run_induct fun s => Held s ∨ Gone s
  · exact Or.inl ⟨rfl, rfl, Or.inl rfl, (fun t ht => by cases ht), (fun t ht => by cases ht), (fun h => by cases h)⟩
  · rintro s e (h | h) hq
    · exact h.step hq
    · exact Or.inr (h.step e)

section Late

variable {w : Workflow} {t : Thread}

theorem violated_touch (hw : 0 < w.released) : w.touch.violated = true := by
  simp [Workflow.touch, hw]

theorem late_enter (hw : 0 < w.released) (t : Thread) : (t.enter w).1.violated = true ∨ (t.enter w).2.awake = true := by
  unfold Thread.enter
  split
  · exact Or.inl (violated_touch hw)
  · refine Or.inr ?_
    cases t.status <;> rfl

theorem late_ask (hw : 0 < w.released) (t : Thread) (r : Report) (first : Bool) :
    (t.ask w r first).1.violated = true := by
  unfold Thread.ask
  split <;> exact violated_touch hw

/-- A thread that is awake stays so until it accesses the workflow. -/
theorem late_advance (hw : 0 < w.released) (ht : t.awake = true) (r : Report) :
    (t.advance w r).1.violated = true ∨ (t.advance w r).2.awake = true := by
  unfold Thread.awake at ht
  unfold Thread.advance
  cases hp : t.point with
  | scanning first => simp [hp] at ht
  | sleeping => simp [hp] at ht
  | done => simp [hp] at ht
  | start =>
    simp only
    split <;> exact Or.inl (violated_touch hw)
  | top =>
    cases t.kind with
    | file => exact Or.inl (late_ask hw t r true)
    | object =>
      simp only
      split
      · exact Or.inl (violated_touch hw)
      · exact late_enter hw _
    | other => exact late_enter hw _
  | asked first => exact Or.inl (violated_touch hw)
  | reading first =>
    simp only
    split <;> exact Or.inl (violated_touch hw)
  | inner => exact late_enter hw _
  | check =>
    cases t.kind with
    | file => exact Or.inl (late_ask hw t r false)
    | object =>
      simp only
      split
      · exact Or.inl (violated_touch hw)
      · exact Or.inr rfl
    | other => exact Or.inl (violated_touch hw)
  | ended => exact Or.inl (violated_touch hw)
  | notifying => exact Or.inl (violated_touch hw)
  | freeing =>
    left
    simp only [Workflow.free]
    split
    · split <;> exact violated_touch hw
    · exact violated_touch hw

theorem released_enter (w : Workflow) (t : Thread) : (t.enter w).1.released = w.released := by
  unfold Thread.enter
  split <;> rfl

theorem released_wake (w : Workflow) (t : Thread) : (t.wake w).1.released = w.released := by
  unfold Thread.wake
  simp only
  split
  · exact released_enter _ _
  · split <;> exact released_enter _ _

theorem released_free (w : Workflow) : w.released ≤ w.free.released := by
  unfold Workflow.free
  simp only
  split
  · split <;> exact Nat.le_refl _
  · exact Nat.le_succ _

theorem released_advance (w : Workflow) (t : Thread) (r : Report) : w.released ≤ (t.advance w r).1.released := by
  have hask : ∀ first, (t.ask w r first).1.released = w.released := by
    intro first
    unfold Thread.ask
    split <;> rfl
  unfold Thread.advance
  cases t.point with
  | sleeping => exact Nat.le_of_eq (released_wake w t).symm
  | freeing => exact released_free w
  | inner => exact Nat.le_of_eq (released_enter w _).symm
  | start =>
    simp only
    split <;> exact Nat.le_refl _
  | top =>
    cases t.kind with
    | file => exact Nat.le_of_eq (hask true).symm
    | object =>
      simp only
      split
      · exact Nat.le_refl _
      · exact Nat.le_of_eq (released_enter w _).symm
    | other => exact Nat.le_of_eq (released_enter w _).symm
  | check =>
    cases t.kind with
    | file => exact Nat.le_of_eq (hask false).symm
    | object =>
      simp only
      split <;> exact Nat.le_refl _
    | other => exact Nat.le_refl _
  | scanning first =>
    simp only
    split <;> exact Nat.le_refl _
  | reading first =>
    simp only
    split <;> exact Nat.le_refl _
  | _ => exact Nat.le_refl _

end Late

theorem released_step (s : State) (e : Event) : s.workflow.released ≤ (step s e).workflow.released := by
  cases e with
  | create kind timeout =>
    rw [step]
    split <;> exact Nat.le_refl _
  | set i =>
    rw [step]
    split <;> exact Nat.le_refl _
  | complete =>
    rw [step]
    split <;> exact Nat.le_refl _
  | drop => exact Nat.le_refl _
  | free =>
    rw [step]
    split
    · exact Nat.le_refl _
    · exact released_free s.workflow
  | run i r =>
    rw [step]
    cases s.threads[i]? with
    | none => exact Nat.le_refl _
    | some t => exact released_advance s.workflow t r

theorem step_other {j : Nat} {t : Thread} (ht : s.threads[j]? = some t) (he : ∀ r, e ≠ .run j r) :
    ∃ t', (step s e).threads[j]? = some t' ∧ t'.point = t.point := by
  cases e with
  | create kind timeout =>
    rw [step]
    split
    · refine ⟨t, ?_, rfl⟩
      rw [List.getElem?_append_left (List.getElem?_eq_some_iff.mp ht).1]
      exact ht
    · exact ⟨t, ht, rfl⟩
  | set i =>
    rw [step]
    split
    · rw [List.getElem?_modify, ht]
      refine ⟨_, rfl, ?_⟩
      split <;> rfl
    · exact ⟨t, ht, rfl⟩
  | complete =>
    rw [step]
    split <;> exact ⟨t, ht, rfl⟩
  | drop => exact ⟨t, ht, rfl⟩
  | free =>
    rw [step]
    split <;> exact ⟨t, ht, rfl⟩
  | run i r =>
    have hij : i ≠ j := fun h => he r (by rw [h])
    rw [step]
    cases s.threads[i]? with
    | none => exact ⟨t, ht, rfl⟩
    | some u =>
      refine ⟨t, ?_, rfl⟩
      simp only
      rw [List.getElem?_set_ne hij]
      exact ht

theorem awake_congr {t t' : Thread} (h : t'.point = t.point) : t'.awake = t.awake := by
  rw [Thread.awake, Thread.awake, h]

/-- After its release the workflow is accessed before all the threads are over, if one of them is awake. -/
theorem violated_of_awake {es : List Event} {j : Nat} {t : Thread} (hr : 0 < s.workflow.released)
    (ht : s.threads[j]? = some t) (ha : t.awake = true) (hf : Finished (es.foldl step s)) :
    ∃ es', es' <+: es ∧ (es'.foldl step s).workflow.violated = true := by
  induction es generalizing s t with
  | nil =>
    have hd : t.point = .done := hf t (List.mem_of_getElem? ht)
    rw [Thread.awake, hd] at ha
    cases ha
  | cons e es ih =>
    have hr' := Nat.lt_of_lt_of_le hr (released_step s e)
    -- the violation follows in the rest of the run
    have hrest : ∀ t', (step s e).threads[j]? = some t' → t'.awake = true →
        ∃ es', es' <+: e :: es ∧ (es'.foldl step s).workflow.violated = true := by
      intro t' ht' ha'
      obtain ⟨es', hp, hv⟩ := ih hr' ht' ha' hf
      exact ⟨e :: es', List.cons_prefix_cons.mpr ⟨rfl, hp⟩, hv⟩
    by_cases he : ∃ r, e = .run j r
    · obtain ⟨r, rfl⟩ := he
      have hstep : step s (.run j r) = ⟨(t.advance s.workflow r).1, s.threads.set j (t.advance s.workflow r).2⟩ := by
        rw [step, ht]
      rcases late_advance hr ha r with hv | ha'
      · refine ⟨[.run j r], List.cons_prefix_cons.mpr ⟨rfl, List.nil_prefix⟩, ?_⟩
        rw [List.foldl_cons, List.foldl_nil, hstep]
        exact hv
      · refine hrest _ ?_ ha'
        rw [hstep]
        exact List.getElem?_set_self (List.getElem?_eq_some_iff.mp ht).1
    · obtain ⟨t', ht', hp⟩ := step_other ht fun r h => he ⟨r, h⟩
      exact hrest t' ht' ((awake_congr hp).trans ha)

theorem released_of_releases {caller : Option Nat} (h : releases s e = some caller) :
    0 < (step s e).workflow.released ∧ ∀ j r, e = .run j r → caller = some j := by
  cases e with
  | free =>
    simp only [releases, Option.ite_none_left_eq_some, not_or, not_not] at h
    obtain ⟨⟨hl, hf, hn⟩, -⟩ := h
    rw [step, if_neg (by simp [hl, hf])]
    simp [Workflow.free, Workflow.touch, hn]
  | run i r =>
    simp only [releases, Option.ite_none_right_eq_some] at h
    obtain ⟨⟨hp, hn⟩, hc⟩ := h
    cases hc
    obtain ⟨t, ht, hp⟩ := Option.map_eq_some_iff.mp hp
    have hstep : step s (.run i r) = ⟨s.workflow.free, s.threads.set i { t with point := .done }⟩ := by
      rw [step, ht]
      simp only [Thread.advance, hp]
    rw [hstep]
    refine ⟨by simp [Workflow.free, Workflow.touch, hn], fun j r' h => ?_⟩
    cases h
    rfl
  | _ => cases h

/-- Without a violation nobody is awake when the workflow is released. -/
theorem along_quiet {es : List Event} (hv : ∀ es', es' <+: es → (es'.foldl step s).workflow.violated = false)
    (hf : Finished (es.foldl step s)) : Along step Quiet s es := by
  induction es generalizing s with
  | nil => trivial
  | cons e es ih =>
    refine ⟨fun caller hc j t ht hj => ?_, ih (fun es' hp => hv (e :: es') (List.cons_prefix_cons.mpr ⟨rfl, hp⟩)) hf⟩
    obtain ⟨hr, hrun⟩ := released_of_releases hc
    obtain ⟨t', ht', hp⟩ := step_other ht fun r h => hj (hrun j r h).symm
    by_contra ha
    have ha' : t'.awake = true := (awake_congr hp).trans (by simpa using ha)
    obtain ⟨es', hp, hviol⟩ := violated_of_awake hr ht' ha' hf
    have hgood := hv (e :: es') (List.cons_prefix_cons.mpr ⟨rfl, hp⟩)
    rw [List.foldl_cons, hviol] at hgood
    cases hgood

/-- Every state that a run comes through is sound. -/
def SoundRun (es : List Event) : Prop := ∀ es', es' <+: es → Sound (es'.foldl step {})

/-- The workflow is released once and not accessed afterwards if nobody is awake when it is released, and in a run that
comes to its end only then. -/
theorem soundRun_of_quiet_iff (es : List Event) :
    (Along step Quiet {} es → SoundRun es) ∧
      (Finished (es.foldl step {}) → SoundRun es → Along step Quiet {} es) := by
  constructor
  · rintro h es' ⟨rest, rfl⟩
    rcases held_or_gone (Along.append_iff.mp h).1 with h | h
    · exact h.sound
    · exact h.sound
  · exact fun hf h => along_quiet (fun es' hp => (h es' hp).not_violated) hf

/-- A thread is still after its loop when the server frees a workflow that nobody is counted for. -/
def freedEarly : List Event :=
  [.create .other (-1), .run 0 .found, .run 0 .found, .complete, .run 0 .missing, .drop, .free, .run 0 .missing]

theorem not_soundRun_freedEarly : ¬∀ es, SoundRun es := by
  intro h
  have hv := (h freedEarly freedEarly (List.prefix_refl _)).not_violated
  exact absurd hv (by decide)

instance (s : State) (e : Event) : Decidable (Quiet s e) :=
  decidable_of_iff (∀ caller ∈ releases s e, ∀ p ∈ s.threads.zipIdx, some p.2 ≠ caller → p.1.awake = false) <| by
    constructor
    · intro h caller hc j t ht hj
      exact h caller hc (t, j) (List.mem_zipIdx_iff_getElem?.mpr ht) hj
    · rintro h caller hc ⟨t, j⟩ ht hj
      exact h caller hc j t (List.mem_zipIdx_iff_getElem?.mp ht) hj

/-- A thread that sleeps while the server frees the workflow. -/
def freedAsleep : List Event :=
  [.create .other (-1), .run 0 .found, .run 0 .found, .complete, .drop, .free, .run 0 .missing, .run 0 .missing, .run 0 .missing]

theorem soundRun_freedAsleep :
    SoundRun freedAsleep ∧ (freedAsleep.foldl step {}).workflow.released = 1 :=
  ⟨(soundRun_of_quiet_iff freedAsleep).1 (by decide), by decide⟩

end OphidiaWorkflow.Waiting
