import OphidiaWorkflow.Server.JobList

/-!
`oph_delete_saved_jobs_from_job_list`: the entries that are kept for the status log are thinned out in place.
-/
namespace OphidiaWorkflow.Server

open Lib

/-- The variables of the loop, and the blocks that it has freed. -/
structure Cleanup where
  heap : Heap (Cell JobInfo)
  prev : Option Nat := none
  saved : Option Nat := none
  freed : List Nat := []

/-- The loop from `current` on. A block is freed before its predecessor is linked to the next one. -/
def cleanLoop (hysteresis now : Int) : Nat → Option Nat → Cleanup → Option Cleanup
  | _, none, s => some s
  | 0, some _, _ => none
  | n + 1, some current, s =>
    (s.heap.load current).bind fun c =>
      if hysteresis = 0 ∨ c.entry.expired (now - hysteresis) then
        (setNextOf (s.heap.free current) s.prev c.next).bind fun heap =>
          cleanLoop hysteresis now n c.next { s with heap, freed := s.freed ++ [current] }
      else cleanLoop hysteresis now n c.next { s with prev := some current, saved := s.saved.or (some current) }

namespace JobList

/-- `oph_delete_saved_jobs_from_job_list`, with the blocks that are freed. -/
def deleteSavedJobs (l : JobList) (hysteresis now : Int) : Option (JobList × List Nat) :=
  (cleanLoop hysteresis now l.heap.next l.saved { heap := l.heap }).map fun s =>
    ({ l with heap := s.heap, saved := s.saved }, s.freed)

/-- The saved entries with their blocks, in the order of the links. -/
structure SavedList (l : JobList) (cs : List (Nat × JobInfo)) : Prop where
  linked : Linked l.heap cs none
  distinct : (cs.map Prod.fst).Nodup
  head : l.saved = first cs none

end JobList

/-- Without hysteresis no entry is kept, otherwise those that are not older. -/
def Kept (hysteresis now : Int) (e : JobInfo) : Prop := hysteresis ≠ 0 ∧ now - e.timestamp ≤ hysteresis

instance (hysteresis now : Int) (e : JobInfo) : Decidable (Kept hysteresis now e) :=
  inferInstanceAs (Decidable (_ ∧ _))

section Loop

variable {hysteresis now : Int} {ks cs : List (Nat × JobInfo)} {s : Cleanup} {n : Nat}

theorem not_kept_iff {e : JobInfo} :
    ¬ Kept hysteresis now e ↔ hysteresis = 0 ∨ e.expired (now - hysteresis) = true := by
  rw [Kept, JobInfo.expired, decide_eq_true_iff]
  omega

/-- Where the loop stands: the kept entries are linked to those that follow, and `prev` is the last one of them. -/
structure Standing (s : Cleanup) (ks cs : List (Nat × JobInfo)) : Prop where
  linked : Linked s.heap (ks ++ cs) none
  distinct : ((ks ++ cs).map Prod.fst).Nodup
  prev : s.prev = ks.getLast?.map Prod.fst
  saved : s.saved = first ks none

/-- A block that is freed is passed over by the links. -/
theorem Standing.delete {b : Nat} {e : JobInfo} (h : Standing s ks ((b, e) :: cs)) :
    ∃ heap, setNextOf (s.heap.free b) s.prev (first cs none) = some heap ∧
      Standing { s with heap, freed := s.freed ++ [b] } ks cs ∧ heap.load b = none ∧
      ∀ b' ∉ (ks ++ (b, e) :: cs).map Prod.fst, heap.load b' = s.heap.load b' := by
  obtain ⟨hks, -, hcs⟩ := linked_append.mp h.linked
  have hnodup := h.distinct
  rw [List.map_append, List.map_cons, List.nodup_middle, List.nodup_cons, List.mem_append, not_or, ← List.map_append]
    at hnodup
  obtain ⟨⟨hb, hb'⟩, hdistinct⟩ := hnodup
  have hparts := hdistinct
  rw [List.map_append, List.nodup_append] at hparts
  -- the only block that is written is the last kept one, which is neither the freed one nor one of those that follow
  obtain ⟨heap, hset, hlinked, -, hframe⟩ := (hks.free hb).setNextOf hparts.1 (first cs none)
  rw [← h.prev] at hset
  have hrest : Linked heap cs none := (hcs.free hb').frame fun c hc =>
    hframe c.1 fun hm => hparts.2.2 c.1 hm c.1 (List.mem_map_of_mem hc) rfl
  refine ⟨heap, hset, ⟨linked_append.mpr ⟨hlinked, hrest⟩, hdistinct, h.prev, h.saved⟩, ?_, fun b' hb' => ?_⟩
  · rw [hframe b hb]
    exact Heap.load_free_self _ b
  · rw [List.map_append, List.map_cons, List.mem_append, List.mem_cons, not_or, not_or] at hb'
    rw [hframe b' hb'.1, Heap.load_free_ne hb'.2.1]

theorem Standing.keep {b : Nat} {e : JobInfo} (h : Standing s ks ((b, e) :: cs)) :
    Standing { s with prev := some b, saved := s.saved.or (some b) } (ks ++ [(b, e)]) cs := by
  refine ⟨?_, ?_, ?_, ?_⟩
  · rw [← List.append_cons]
    exact h.linked
  · rw [← List.append_cons]
    exact h.distinct
  · rw [List.getLast?_concat]
    rfl
  · show s.saved.or (some b) = _
    rw [h.saved]
    cases ks <;> rfl

/-- The loop frees the entries that are not kept, one after the other, and links the others. -/
theorem cleanLoop_spec (hysteresis now : Int) (h : Standing s ks cs) (hn : cs.length ≤ n) :
    ∃ s', cleanLoop hysteresis now n (first cs none) s = some s' ∧
      Standing s' (ks ++ cs.filter fun c => Kept hysteresis now c.2) [] ∧
      s'.freed = s.freed ++ (cs.filter fun c => ¬ Kept hysteresis now c.2).map Prod.fst ∧
      (∀ c ∈ cs, ¬ Kept hysteresis now c.2 → s'.heap.load c.1 = none) ∧
      ∀ b ∉ (ks ++ cs).map Prod.fst, s'.heap.load b = s.heap.load b := by
  induction cs generalizing s ks n with
  | nil =>
    refine ⟨s, by cases n <;> rfl, ?_, (List.append_nil _).symm, List.forall_mem_nil _, fun _ _ => rfl⟩
    rw [List.filter_nil, List.append_nil]
    exact h
  | cons c cs ih =>
    obtain ⟨b, e⟩ := c
    cases n with
    | zero => cases hn
    | succ n =>
      have hn := Nat.le_of_succ_le_succ hn
      rw [first_cons, cleanLoop, (linked_append.mp h.linked).2.1, Option.bind_some]
      dsimp only
      by_cases hk : Kept hysteresis now e
      · rw [if_neg fun hexp => not_kept_iff.mpr hexp hk, List.filter_cons_of_pos (by simpa using hk),
          List.filter_cons_of_neg (by simpa using hk), List.append_cons]
        obtain ⟨s', hs, hstanding, hfreed, hnone, hframe⟩ := ih h.keep hn
        refine ⟨s', hs, hstanding, hfreed, List.forall_mem_cons.mpr ⟨fun hnot => absurd hk hnot, hnone⟩,
          fun b' hb' => ?_⟩
        rw [List.append_cons] at hb'
        exact hframe b' hb'
      · obtain ⟨heap, hset, hdelete, hload, hkeep⟩ := h.delete
        rw [if_pos (not_kept_iff.mp hk), hset, Option.bind_some, List.filter_cons_of_neg (by simpa using hk),
          List.filter_cons_of_pos (by simpa using hk)]
        obtain ⟨s', hs, hstanding, hfreed, hnone, hframe⟩ := ih hdelete hn
        have hb : b ∉ (ks ++ cs).map Prod.fst := by
          have hnodup := h.distinct
          rw [List.map_append, List.map_cons, List.nodup_middle, List.nodup_cons, ← List.map_append] at hnodup
          exact hnodup.1
        refine ⟨s', hs, hstanding, ?_, List.forall_mem_cons.mpr ⟨fun _ => (hframe b hb).trans hload, hnone⟩,
          fun b' hb' => ?_⟩
        · rw [hfreed, List.append_assoc]
          rfl
        · refine (hframe b' fun hm => hb' ?_).trans (hkeep b' hb')
          rw [List.map_append, List.mem_append] at hm ⊢
          exact hm.imp_right (List.mem_cons_of_mem _)

end Loop

/--
The entries that are left are those to be kept, in their order and linked to the end. The blocks of the others are
freed, each of them once, and no other block is written.
-/
theorem JobList.deleteSavedJobs_kept {l : JobList} {cs : List (Nat × JobInfo)} (h : l.SavedList cs)
    (hysteresis now : Int) :
    ∃ l' freed, l.deleteSavedJobs hysteresis now = some (l', freed) ∧
      l'.SavedList (cs.filter fun c => Kept hysteresis now c.2) ∧
      freed = (cs.filter fun c => ¬ Kept hysteresis now c.2).map Prod.fst ∧ freed.Nodup ∧
      (∀ b ∈ freed, l'.heap.load b = none) ∧ (∀ b ∉ cs.map Prod.fst, l'.heap.load b = l.heap.load b) ∧
      { l' with heap := l.heap, saved := l.saved } = l := by
  have hstart : Standing { heap := l.heap } [] cs := ⟨h.linked, h.distinct, rfl, rfl⟩
  obtain ⟨s, hs, hstanding, hfreed, hnone, hframe⟩ :=
    cleanLoop_spec hysteresis now hstart (h.linked.length_le h.distinct)
  rw [← h.head] at hs
  have hlinked := hstanding.linked
  have hdistinct := hstanding.distinct
  rw [List.append_nil, List.nil_append] at hlinked hdistinct
  have hfreed : s.freed = (cs.filter fun c => ¬ Kept hysteresis now c.2).map Prod.fst := hfreed
  refine ⟨{ l with heap := s.heap, saved := s.saved }, s.freed, by rw [deleteSavedJobs, hs]; rfl,
    ⟨hlinked, hdistinct, hstanding.saved⟩, hfreed, ?_, ?_, hframe, rfl⟩
  · rw [hfreed]
    exact h.distinct.sublist (List.filter_sublist.map _)
  · rw [hfreed]
    rintro b hb
    obtain ⟨c, hc, rfl⟩ := List.mem_map.mp hb
    obtain ⟨hc, hk⟩ := List.mem_filter.mp hc
    exact hnone c hc (of_decide_eq_true hk)

/-- Three saved entries, the second one of which is old. -/
def threeSaved : JobList where
  heap := ((({} : Heap (Cell JobInfo)).alloc ⟨⟨90, ⟨1, 0, [], 0, .pending, []⟩⟩, none⟩).alloc
    ⟨⟨10, ⟨2, 0, [], 0, .pending, []⟩⟩, some 0⟩).alloc ⟨⟨95, ⟨3, 0, [], 0, .pending, []⟩⟩, some 1⟩
  saved := some 2

def threeCells : List (Nat × JobInfo) :=
  [(2, ⟨95, ⟨3, 0, [], 0, .pending, []⟩⟩), (1, ⟨10, ⟨2, 0, [], 0, .pending, []⟩⟩),
    (0, ⟨90, ⟨1, 0, [], 0, .pending, []⟩⟩)]

theorem threeSaved_list : threeSaved.SavedList threeCells := ⟨⟨rfl, rfl, rfl, trivial⟩, by decide, rfl⟩

theorem JobList.deleteSavedJobs_kept_three : ∃ l' freed, threeSaved.deleteSavedJobs 20 100 = some (l', freed) ∧
    l'.SavedList (threeCells.filter fun c => Kept 20 100 c.2) ∧
    freed = (threeCells.filter fun c => ¬ Kept 20 100 c.2).map Prod.fst ∧ freed.Nodup ∧
    (∀ b ∈ freed, l'.heap.load b = none) ∧
    (∀ b ∉ threeCells.map Prod.fst, l'.heap.load b = threeSaved.heap.load b) ∧
    { l' with heap := threeSaved.heap, saved := threeSaved.saved } = threeSaved :=
  JobList.deleteSavedJobs_kept threeSaved_list 20 100

end OphidiaWorkflow.Server
