import OphidiaWorkflow.Server.Expiry
import OphidiaWorkflow.Server.Queue

/-!
The handlers of submissions and notifications on the list itself. As long as the lookups can take out what has expired,
each of their steps is the one of the farm.
-/
namespace OphidiaWorkflow.Server

open Lib

/-- The list, the items of the workflows that have been queued and whose handlers have still to reset the status, and the
number of notification handlers that have still to look for a queued workflow. -/
structure Handlers where
  list : JobList := {}
  unmarked : List Nat := []
  lookers : Nat := 0

/-- What a handler does under the lock of the list. -/
inductive HandlerEvent
  | submit (wf : JobWorkflow) (now deadline : Int)
  | mark (item : Nat)
  /-- A notification that does not end its workflow. -/
  | notify
  /-- A notification that ends its workflow. -/
  | drop (idjob deadline : Int) (log : Bool) (now : Int)
  | look (deadline : Int)
  /-- Another lookup. -/
  | lookup (q : Query) (deadline : Int)
  deriving DecidableEq, Repr

/-- `wf->status` is written. -/
def JobList.setStatus (l : JobList) (item : Nat) (status : JobStatus) : Option JobList :=
  if (l.heap.load item).isSome then
    some { l with heap := l.heap.modify item fun c => { c with entry.wf.status := status } }
  else none

namespace Handlers

variable {sz : FarmSize} {s s' : Handlers} {a : HandlerEvent} {cs : List (Nat × JobInfo)} {deadline : Int} {q : Query}

/-- The workflow of the item has been started. -/
def started (s : Handlers) (c : Nat × JobInfo) : Bool := c.2.wf.status ≠ .unknown ∧ c.1 ∉ s.unmarked

/-- The workflow that has been found is dropped; only a started one can end. -/
def dropFound (s : Handlers) (idjob : Int) (w : JobList.Walk) (log : Bool) (now : Int) : Option Handlers :=
  w.item.elim (some { s with list := w.list }) fun item => (w.list.heap.load item).bind fun c =>
    if s.started (item, c.entry) then
      (w.list.delete item (w.written (.job idjob)) log now).map fun l => { s with list := l, lookers := s.lookers + 1 }
    else some { s with list := w.list }

def step (sz : FarmSize) (s : Handlers) : HandlerEvent → Option Handlers
  | .submit wf now deadline =>
    (s.list.insert sz now deadline { wf with status := .pending }).map fun (code, l) =>
      { s with list := l, unmarked := if code = .farmFull then l.tail.toList ++ s.unmarked else s.unmarked }
  | .mark item =>
    if item ∈ s.unmarked then
      (s.list.setStatus item .unknown).map fun l => { s with list := l, unmarked := s.unmarked.filter (· ≠ item) }
    else some s
  | .notify => some { s with lookers := s.lookers + 1 }
  | .drop idjob deadline log now => (s.list.find sz deadline (.job idjob)).bind fun w => s.dropFound idjob w log now
  | .look deadline =>
    if s.lookers = 0 then some s
    else (s.list.find sz deadline .unstarted).bind fun w =>
      (w.item.elim (some w.list) fun item => w.list.setStatus item .pending).map fun l =>
        { s with list := l, lookers := s.lookers - 1 }
  | .lookup q deadline => (s.list.find sz deadline q).map fun w => { s with list := w.list }

/-! ## The farm of the handlers -/

def entry (unmarked : List Nat) (c : Nat × JobInfo) : FarmEntry :=
  ⟨c.2.wf.idjob, c.2.timestamp, c.2.wf.status, c.1 ∈ unmarked⟩

/-- The entries as the farm has them. -/
def farm (s : Handlers) : Farm := ⟨s.list.entries.map (entry s.unmarked), s.lookers⟩

/-- The event of the farm that the step stands for, unless it does nothing. -/
def toFarm (s : Handlers) : HandlerEvent → Option FarmEvent
  | .submit wf now deadline => some (.submit wf.idjob now deadline)
  | .mark item =>
    if item ∈ s.unmarked then (s.list.entries.find? (·.1 = item)).map fun c => .mark c.2.wf.idjob else none
  | .notify => some .notify
  | .drop idjob deadline _ _ => some (.drop idjob deadline)
  | .look deadline => some (.look deadline)
  | .lookup q deadline =>
    some (.lookup (fun e => s.list.entries.any fun c => c.2.wf.idjob = e.idjob && q.found c.2.wf) deadline)

/-- The list is in order, no job is in it twice, and the items to be marked have been allocated. -/
structure InOrder (s : Handlers) : Prop where
  holds : s.list.Holds s.list.entries
  distinct : (s.list.entries.map fun c => c.2.wf.idjob).Nodup
  unmarked : ∀ b ∈ s.unmarked, b < s.list.heap.next

/-- The lookup of the step can take out what it has to, and an item that is marked has not expired before. -/
def Meets (sz : FarmSize) (s : Handlers) : HandlerEvent → Prop
  | .submit wf _ deadline =>
    sz.full s.list.counter = true ∨ JobList.Removable deadline (.job wf.idjob) (fun _ => False) s.list.entries
  | .mark item => item ∈ s.unmarked → item ∈ s.list.entries.map Prod.fst
  | .notify => True
  | .drop idjob deadline _ _ =>
    JobList.Removable deadline (.job idjob) (fun c => s.started c = true) s.list.entries
  | .look deadline => s.lookers = 0 ∨ JobList.Removable deadline .unstarted (fun _ => False) s.list.entries
  | .lookup q deadline => JobList.Removable deadline q (fun _ => False) s.list.entries

theorem started_entry (s : Handlers) (c : Nat × JobInfo) : (entry s.unmarked c).started = s.started c := by
  simp [entry, FarmEntry.started, started]

theorem expired_entry (unmarked : List Nat) (c : Nat × JobInfo) (deadline : Int) :
    (entry unmarked c).expired deadline = c.2.expired deadline := rfl

theorem purge_entry {found : FarmEntry → Bool} {unmarked : List Nat}
    (h : ∀ c ∈ cs, found (entry unmarked c) = q.found c.2.wf) :
    purge deadline found (cs.map (entry unmarked)) = (JobList.purged deadline q cs).map (entry unmarked) := by
  induction cs with
  | nil => rfl
  | cons c cs ih =>
    rw [List.forall_mem_cons] at h
    rw [List.map_cons, purge, JobList.purged, expired_entry, h.1, ih h.2]
    split
    · rfl
    · split
      · rfl
      · rfl

theorem purged_sublist (deadline : Int) (q : Query) (cs : List (Nat × JobInfo)) :
    (JobList.purged deadline q cs).Sublist cs := by
  induction cs with
  | nil => exact List.Sublist.refl _
  | cons c cs ih =>
    unfold JobList.purged
    split
    · exact ih.cons c
    · split
      · exact List.Sublist.refl _
      · exact ih.cons_cons c

theorem purged_unstarted (deadline : Int) (cs : List (Nat × JobInfo)) :
    JobList.purged deadline .unstarted cs = cs.filter (JobList.fresh deadline) :=
  JobList.purged_eq_filter fun _ _ _ _ hit => absurd hit.2 Bool.false_ne_true

/-- The list of the next state is in order, and the farm has the entries that are given. -/
theorem inOrder_of_holds {l : JobList} (h : l.Holds cs) (hd : (cs.map fun c => c.2.wf.idjob).Nodup)
    (hs : s'.list = l) (hu : ∀ b ∈ s'.unmarked, b < l.heap.next) :
    s'.InOrder ∧ s'.farm = ⟨cs.map (entry s'.unmarked), s'.lookers⟩ := by
  subst hs
  have he := h.entries_eq
  refine ⟨⟨he.symm ▸ h, he.symm ▸ hd, hu⟩, ?_⟩
  rw [farm, he]

/-! ## What each step does to the entries -/

/-- The entries once a status has been written. -/
def withStatus (item : Nat) (status : JobStatus) (c : Nat × JobInfo) : Nat × JobInfo :=
  if c.1 = item then (c.1, { c.2 with wf.status := status }) else c

theorem idjob_withStatus (item : Nat) (status : JobStatus) (c : Nat × JobInfo) :
    (withStatus item status c).2.wf.idjob = c.2.wf.idjob := by
  unfold withStatus
  split <;> rfl

theorem setStatus_holds {l : JobList} {item : Nat} (h : l.Holds cs) (hi : item ∈ cs.map Prod.fst) (status : JobStatus) :
    ∃ l', l.setStatus item status = some l' ∧ l'.Holds (cs.map (withStatus item status)) ∧
      l'.heap.next = l.heap.next := by
  have hfst (c : Nat × JobInfo) : (withStatus item status c).1 = c.1 := by
    unfold withStatus
    split <;> rfl
  have hblocks : (cs.map (withStatus item status)).map Prod.fst = cs.map Prod.fst := by
    rw [List.map_map]
    exact List.map_congr_left fun c _ => hfst c
  refine ⟨_, if_pos (h.isSome_of_fst hi), ⟨h.linked.modifyEntry item fun e => { e with wf.status := status }, ?_, ?_, ?_, ?_⟩,
    rfl⟩
  · rw [hblocks]
    exact h.nodup
  · show l.head = _
    rw [h.head, first_map hfst]
  · show l.tail = _
    rw [h.tail, ← List.getLast?_map, ← List.getLast?_map, hblocks]
  · show l.counter = _
    rw [h.counter, List.length_map]

theorem map_withStatus {pre post : List (Nat × JobInfo)} {c : Nat × JobInfo}
    (h : ((pre ++ c :: post).map Prod.fst).Nodup) (status : JobStatus) :
    (pre ++ c :: post).map (withStatus c.1 status) = pre ++ (c.1, { c.2 with wf.status := status }) :: post := by
  have hnot := JobList.not_mem_of_nodup h
  have hkeep (ds : List (Nat × JobInfo)) (hds : c.1 ∉ ds.map Prod.fst) : ds.map (withStatus c.1 status) = ds := by
    refine (List.map_congr_left fun d hd => ?_).trans (List.map_id ds)
    exact if_neg (ne_of_not_mem_fst hds hd)
  rw [List.map_append, List.mem_append, not_or] at hnot
  rw [List.map_append, List.map_cons, hkeep pre hnot.1, hkeep post hnot.2]
  exact congrArg (pre ++ · :: post) (if_pos rfl)

theorem eq_of_idjob (h : s.InOrder) {c d : Nat × JobInfo} (hc : c ∈ s.list.entries) (hd : d ∈ s.list.entries)
    (he : c.2.wf.idjob = d.2.wf.idjob) : c = d := List.inj_on_of_nodup_map h.distinct hc hd he

theorem distinct_purged (h : s.InOrder) (deadline : Int) (q : Query) :
    ((JobList.purged deadline q s.list.entries).map fun c => c.2.wf.idjob).Nodup :=
  h.distinct.sublist ((purged_sublist deadline q _).map _)

theorem farm_entries_length (s : Handlers) : s.farm.entries.length = s.list.entries.length := List.length_map _

/-- What a step comes to: a state in order, whose farm is the one of the event. -/
def Refines (sz : FarmSize) (s : Handlers) (a : HandlerEvent) : Prop :=
  ∃ s', s.step sz a = some s' ∧ s'.InOrder ∧ s'.farm = (s.toFarm a).elim s.farm (s.farm.step sz)

theorem any_hasJob_purged (unmarked : List Nat) (idjob deadline : Int) (cs : List (Nat × JobInfo)) :
    ((JobList.purged deadline (.job idjob) cs).map (entry unmarked)).any (hasJob idjob) = true ↔
      ∃ c ∈ cs, (Query.job idjob).Hit deadline c.2 := by
  rw [← JobList.exists_found_purged, List.any_map, List.any_eq_true]
  exact Iff.rfl

/-- The items of a list are older than the next one. -/
theorem map_entry_cons {l : JobList} (h : l.Holds cs) (unmarked : List Nat) :
    cs.map (entry (l.heap.next :: unmarked)) = cs.map (entry unmarked) := by
  refine List.map_congr_left fun c hc => ?_
  have hne : c.1 ≠ l.heap.next := Nat.ne_of_lt (h.linked.lt_next hc)
  simp only [entry, List.mem_cons, hne, false_or]

theorem distinct_concat {x : Nat × JobInfo} (h : (cs.map fun c => c.2.wf.idjob).Nodup)
    (hx : ∀ c ∈ cs, c.2.wf.idjob ≠ x.2.wf.idjob) : ((cs ++ [x]).map fun c => c.2.wf.idjob).Nodup := by
  rw [List.map_append]
  refine h.append (List.nodup_singleton _) ?_
  rw [List.map_singleton, List.disjoint_singleton]
  intro hmem
  obtain ⟨c, hc, he⟩ := List.mem_map.mp hmem
  exact hx c hc he

theorem refines_submit (h : s.InOrder) (wf : JobWorkflow) (now deadline : Int)
    (hm : s.Meets sz (.submit wf now deadline)) : s.Refines sz (.submit wf now deadline) := by
  have hjob : ∀ c ∈ s.list.entries, hasJob wf.idjob (entry s.unmarked c) = (Query.job wf.idjob).found c.2.wf :=
    fun _ _ => rfl
  have hcounter := h.holds.counter
  have hlen := farm_entries_length s
  unfold Refines toFarm
  simp only [step, Option.elim_some, Farm.step]
  unfold JobList.insert insertJob
  rw [hlen, ← hcounter]
  by_cases hfull : sz.full s.list.counter = true
  · rw [if_pos hfull, if_pos hfull]
    exact ⟨s, rfl, h, rfl⟩
  · obtain ⟨w, hw, hholds, hnext, hend, -⟩ := JobList.find_purged sz h.holds (hm.resolve_left hfull)
    have hdistinct := distinct_purged h deadline (.job wf.idjob)
    have hend := hend Query.noConfusion
    have hpurge := @purge_entry s.list.entries deadline (.job wf.idjob) (hasJob wf.idjob) s.unmarked hjob
    have hany := any_hasJob_purged s.unmarked wf.idjob deadline s.list.entries
    rw [if_neg hfull, if_neg hfull]
    simp only [farm, hpurge, hw, Option.bind_some]
    cases hi : w.item with
    | some b =>
      obtain ⟨pre, c, post, seen, -, -, hcs, hit, -⟩ := hend.item b hi
      rw [if_pos (hany.mpr ⟨c, hcs ▸ List.mem_append_right _ List.mem_cons_self, hit⟩)]
      refine ⟨{ s with list := w.list }, rfl, ?_⟩
      exact inOrder_of_holds hholds hdistinct rfl (hnext ▸ h.unmarked)
    | none =>
      have hnone : ¬ ∃ c ∈ s.list.entries, (Query.job wf.idjob).Hit deadline c.2 := by
        rintro ⟨c, hc, hit⟩
        exact (hend.ended hi).1 c hc hit
      obtain ⟨l', hl', hholds', hnext'⟩ := JobList.link_holds hholds now { wf with status := .pending }
      have hnew : ∀ c ∈ JobList.purged deadline (.job wf.idjob) s.list.entries, c.2.wf.idjob ≠ wf.idjob := by
        intro c hc he
        exact hnone (JobList.exists_found_purged.mp ⟨c, hc, decide_eq_true he⟩)
      have hdistinct' := @distinct_concat _ (w.list.heap.next, ⟨now, { wf with status := .pending }⟩) hdistinct hnew
      have hlt : ∀ b ∈ s.unmarked, b < l'.heap.next := by
        intro b hb
        have hb' := h.unmarked b hb
        omega
      rw [if_neg fun h => hnone (hany.mp h), if_neg (by decide), hl']
      by_cases hff : sz.farmFull s.list.counter = true
      · -- the workflow is queued: its item is the tail
        have htail : l'.tail = some w.list.heap.next := by
          rw [hholds'.tail, List.getLast?_concat]
          rfl
        rw [if_pos hff, if_pos hff]
        refine ⟨{ s with list := l', unmarked := w.list.heap.next :: s.unmarked }, ?_, ?_⟩
        · simp only [Option.map_some, if_pos, htail, Option.toList_some, List.singleton_append]
        · obtain ⟨hin, hfarm⟩ := @inOrder_of_holds { s with list := l', unmarked := w.list.heap.next :: s.unmarked } _ _
            hholds' hdistinct' rfl (List.forall_mem_cons.mpr ⟨by omega, hlt⟩)
          refine ⟨hin, hfarm.trans ?_⟩
          rw [List.map_append, map_entry_cons hholds, List.map_singleton]
          simp [entry]
      · rw [if_neg hff, if_neg hff]
        have hfresh : w.list.heap.next ∉ s.unmarked := fun hmem => by
          have hb := h.unmarked _ hmem
          omega
        refine ⟨{ s with list := l' }, ?_, ?_⟩
        · simp only [Option.map_some, reduceCtorEq, if_false]
        · obtain ⟨hin, hfarm⟩ := @inOrder_of_holds { s with list := l' } _ _ hholds' hdistinct' rfl hlt
          refine ⟨hin, hfarm.trans ?_⟩
          rw [List.map_append, List.map_singleton]
          simp [entry, hfresh]

theorem refines_mark (h : s.InOrder) (item : Nat) (hm : s.Meets sz (.mark item)) : s.Refines sz (.mark item) := by
  unfold Refines toFarm
  simp only [step]
  by_cases hmem : item ∈ s.unmarked
  · obtain ⟨c, hc, rfl⟩ := List.mem_map.mp (hm hmem)
    obtain ⟨l', hl', hholds, hnext⟩ := setStatus_holds h.holds (List.mem_map_of_mem hc) .unknown
    have hblock : ∀ d ∈ s.list.entries, d.1 = c.1 → d = c := fun d hd he =>
      List.inj_on_of_nodup_map h.holds.nodup hd hc he
    have hfind : s.list.entries.find? (fun d => d.1 = c.1) = some c := by
      cases hf : s.list.entries.find? (fun d => d.1 = c.1) with
      | none => exact absurd (List.find?_eq_none.mp hf c hc) (by simp)
      | some d => exact congrArg some (hblock d (List.mem_of_find?_eq_some hf) (by simpa using List.find?_some hf))
    rw [if_pos hmem, if_pos hmem, hl', hfind, Option.map_some, Option.map_some, Option.elim_some]
    refine ⟨_, rfl, ?_⟩
    have hdistinct : ((s.list.entries.map (withStatus c.1 .unknown)).map fun d => d.2.wf.idjob).Nodup := by
      rw [List.map_map]
      exact (List.map_congr_left fun d _ => idjob_withStatus c.1 .unknown d) ▸ h.distinct
    obtain ⟨hin, hfarm⟩ := @inOrder_of_holds
      { s with list := l', unmarked := s.unmarked.filter (· ≠ c.1) } _ _ hholds hdistinct rfl fun b hb =>
        hnext ▸ h.unmarked b (List.mem_of_mem_filter hb)
    refine ⟨hin, hfarm.trans ?_⟩
    simp only [Farm.step, farm, List.map_map]
    congr 1
    refine List.map_congr_left fun d hd => ?_
    by_cases he : d.1 = c.1
    · obtain rfl := hblock d hd he
      simp [withStatus, entry, Farm.markEntry, hmem]
    · have hne : d.2.wf.idjob ≠ c.2.wf.idjob := fun hid => he (congrArg Prod.fst (eq_of_idjob h hd hc hid))
      simp [withStatus, entry, Farm.markEntry, he, hne]
  · rw [if_neg hmem, if_neg hmem]
    exact ⟨s, rfl, h, rfl⟩

theorem refines_notify (h : s.InOrder) : s.Refines sz .notify := ⟨_, rfl, ⟨h.holds, h.distinct, h.unmarked⟩, rfl⟩

theorem refines_lookup (h : s.InOrder) (q : Query) (deadline : Int) (hm : s.Meets sz (.lookup q deadline)) :
    s.Refines sz (.lookup q deadline) := by
  obtain ⟨w, hw, hholds, hnext, -, -⟩ := JobList.find_purged sz h.holds hm
  unfold Refines toFarm
  simp only [step, hw, Option.map_some, Option.elim_some, Farm.step]
  refine ⟨_, rfl, ?_⟩
  obtain ⟨hin, hfarm⟩ := @inOrder_of_holds { s with list := w.list } _ _ hholds (distinct_purged h deadline q) rfl
    (hnext ▸ h.unmarked)
  refine ⟨hin, hfarm.trans ?_⟩
  congr 1
  refine (purge_entry fun c hc => ?_).symm
  rw [Bool.eq_iff_iff, List.any_eq_true]
  constructor
  · rintro ⟨d, hd, hfound⟩
    rw [Bool.and_eq_true, decide_eq_true_eq] at hfound
    exact eq_of_idjob h hd hc hfound.1 ▸ hfound.2
  · intro hfound
    exact ⟨c, hc, by rw [hfound, Bool.and_true]; exact decide_eq_true rfl⟩

theorem ends_entry (s : Handlers) (idjob : Int) (c : Nat × JobInfo) :
    Farm.ends idjob (entry s.unmarked c) = (decide (c.2.wf.idjob = idjob) && s.started c) := by
  rw [Farm.ends, started_entry]
  rfl

section OnlyOne

variable {pre post : List (Nat × JobInfo)} {c : Nat × JobInfo} {unmarked : List Nat} {idjob : Int}

theorem any_ends (h : ∀ d ∈ pre ++ post, Farm.ends idjob (entry unmarked d) = false) :
    ((pre ++ c :: post).map (entry unmarked)).any (Farm.ends idjob) = Farm.ends idjob (entry unmarked c) := by
  rw [Bool.eq_iff_iff, List.any_map, List.any_eq_true]
  constructor
  · rintro ⟨d, hd, hends⟩
    rcases List.mem_cons.mp (List.perm_middle.mem_iff.mp hd) with rfl | hd
    · exact hends
    · exact absurd ((h d hd).symm.trans hends) (by decide)
  · intro hends
    exact ⟨c, List.mem_append_right _ List.mem_cons_self, hends⟩

theorem erase_ends (h : ∀ d ∈ pre ++ post, Farm.ends idjob (entry unmarked d) = false)
    (hc : Farm.ends idjob (entry unmarked c) = true) :
    ((pre ++ c :: post).map (entry unmarked)).eraseP (Farm.ends idjob) = (pre ++ post).map (entry unmarked) := by
  have hpre : ∀ e ∈ pre.map (entry unmarked), ¬ Farm.ends idjob e = true := by
    intro e he
    obtain ⟨d, hd, rfl⟩ := List.mem_map.mp he
    rw [h d (List.mem_append_left _ hd)]
    decide
  rw [List.map_append, List.map_cons, List.eraseP_append_right _ hpre, List.eraseP_cons_of_pos hc, List.map_append]

end OnlyOne

theorem refines_drop (h : s.InOrder) (idjob deadline : Int) (log : Bool) (now : Int)
    (hm : s.Meets sz (.drop idjob deadline log now)) : s.Refines sz (.drop idjob deadline log now) := by
  obtain ⟨w, hw, hholds, hnext, hend, -⟩ := JobList.find_purged sz h.holds hm
  have hdistinct := distinct_purged h deadline (.job idjob)
  have hend := hend Query.noConfusion
  have hpurge := @purge_entry s.list.entries deadline (.job idjob) (hasJob idjob) s.unmarked fun _ _ => rfl
  have hkept {l : JobList} {ds : List (Nat × JobInfo)} (hl : l.Holds ds)
      (hd : (ds.map fun c => c.2.wf.idjob).Nodup) (hn : l.heap.next = s.list.heap.next) (lookers : Nat) :=
    @inOrder_of_holds { s with list := l, lookers } _ _ hl hd rfl (hn ▸ h.unmarked)
  unfold Refines toFarm
  simp only [step, hw, Option.bind_some, Option.elim_some, Farm.step]
  rw [show s.farm.entries = s.list.entries.map (entry s.unmarked) from rfl, hpurge]
  unfold dropFound
  cases hi : w.item with
  | none =>
    have hnot : ¬ ((JobList.purged deadline (.job idjob) s.list.entries).map (entry s.unmarked)).any
        (Farm.ends idjob) = true := by
      intro hany
      rw [List.any_map, List.any_eq_true] at hany
      obtain ⟨c, hc, hends⟩ := hany
      rw [Function.comp_apply, ends_entry, Bool.and_eq_true] at hends
      obtain ⟨d, hd, hit⟩ := JobList.exists_found_purged.mp ⟨c, hc, hends.1⟩
      exact (hend.ended hi).1 d hd hit
    rw [if_neg hnot]
    exact ⟨_, rfl, hkept hholds hdistinct hnext _⟩
  | some b =>
    obtain ⟨pre, c, post, hcs, rfl, hit, hprev⟩ := hend.prev_of_removable hm hi
    have hid : c.2.wf.idjob = idjob := of_decide_eq_true hit.2
    rw [hcs] at hholds hdistinct ⊢
    have hmiddle := (List.perm_middle.map fun d : Nat × JobInfo => d.2.wf.idjob).nodup_iff.mp hdistinct
    obtain ⟨hothers, hdistinct'⟩ := List.nodup_cons.mp hmiddle
    have hends : ∀ d ∈ pre ++ post, Farm.ends idjob (entry s.unmarked d) = false := by
      intro d hd
      have hne : d.2.wf.idjob ≠ idjob := fun he => hothers (List.mem_map.mpr ⟨d, hd, he.trans hid.symm⟩)
      rw [ends_entry, decide_eq_false hne, Bool.false_and]
    have hload := (linked_append.mp hholds.linked).2.1
    have hc : Farm.ends idjob (entry s.unmarked c) = s.started c := by
      rw [ends_entry, decide_eq_true hid, Bool.true_and]
    rw [Option.elim_some, hload, Option.bind_some]
    by_cases hst : s.started c = true
    · have hwritten : w.written (.job idjob) = w.prev := if_pos (by rw [hi]; rfl)
      obtain ⟨l', hl', hholds', hnext'⟩ := JobList.delete_holds hholds (hprev hst) log now
      have hany : ((pre ++ c :: post).map (entry s.unmarked)).any (Farm.ends idjob) = true :=
        (any_ends hends).trans (hc.trans hst)
      rw [if_pos hst, if_pos hany, erase_ends hends (hc.trans hst), hwritten, hl']
      exact ⟨_, rfl, hkept hholds' hdistinct' (hnext'.trans hnext) _⟩
    · have hnot : ¬ ((pre ++ c :: post).map (entry s.unmarked)).any (Farm.ends idjob) = true := by
        rw [any_ends hends, hc]
        exact hst
      rw [if_neg hst, if_neg hnot]
      exact ⟨_, rfl, hkept hholds hdistinct hnext _⟩

theorem unstarted_entry (unmarked : List Nat) (c : Nat × JobInfo) :
    (entry unmarked c).unstarted = !JobList.counted c := by
  show decide (c.2.wf.status = .unknown) = !JobList.counted c
  by_cases hu : c.2.wf.status = .unknown
  · rw [decide_eq_true hu, JobList.counted, decide_eq_false (not_not.mpr hu)]
    rfl
  · rw [decide_eq_false hu, JobList.counted, decide_eq_true hu]
    rfl

theorem running_entry (unmarked : List Nat) (cs : List (Nat × JobInfo)) :
    running (cs.map (entry unmarked)) = cs.countP JobList.counted := by
  rw [running, List.countP_map]
  refine List.countP_congr fun c _ => ?_
  rw [Function.comp_apply, unstarted_entry, Bool.not_not]

/-- The first workflow that has not been started is the one that is written. -/
theorem startFirst_entry {pre post : List (Nat × JobInfo)} {c : Nat × JobInfo} (unmarked : List Nat)
    (hpre : ∀ d ∈ pre, JobList.counted d = true) (hc : JobList.counted c = false) :
    startFirst ((pre ++ c :: post).map (entry unmarked)) =
      (pre ++ (c.1, { c.2 with wf.status := .pending }) :: post).map (entry unmarked) := by
  induction pre with
  | nil =>
    rw [List.nil_append, List.map_cons, startFirst, if_pos (by rw [unstarted_entry, hc]; rfl)]
    rfl
  | cons d pre ih =>
    rw [List.forall_mem_cons] at hpre
    rw [List.cons_append, List.map_cons, startFirst, if_neg (by rw [unstarted_entry, hpre.1]; decide), ih hpre.2]
    rfl

theorem refines_look (h : s.InOrder) (deadline : Int) (hm : s.Meets sz (.look deadline)) :
    s.Refines sz (.look deadline) := by
  unfold Refines toFarm
  simp only [step, Option.elim_some, Farm.step]
  by_cases hl : s.lookers = 0
  · rw [if_pos hl, if_pos (by exact hl)]
    exact ⟨s, rfl, h, rfl⟩
  · obtain ⟨w, hw, hholds, hnext, -, hfirst⟩ := JobList.find_purged sz h.holds (hm.resolve_left hl)
    have hfirst := hfirst rfl
    have hdistinct := distinct_purged h deadline .unstarted
    have hfilter : (s.farm.entries.filter fun e => !e.expired deadline) =
        (JobList.purged deadline .unstarted s.list.entries).map (entry s.unmarked) := by
      rw [purged_unstarted, farm, List.filter_map]
      rfl
    rw [if_neg hl, if_neg (by exact hl), hw, Option.bind_some, hfilter]
    generalize JobList.purged deadline .unstarted s.list.entries = cs at hholds hdistinct hfirst
    unfold startUnstarted
    have hstarts : sz.starts (cs.map (entry s.unmarked)) = true ↔
        sz.farm ≠ 0 ∧ cs.countP JobList.counted < sz.farm ∧ cs.countP JobList.counted < cs.length := by
      rw [FarmSize.starts, decide_eq_true_iff, running_entry, List.length_map]
    by_cases hplace : sz.starts (cs.map (entry s.unmarked)) = true
    · rw [if_pos (hstarts.mp hplace)] at hfirst
      obtain ⟨c, hfind⟩ : ∃ c, cs.find? (fun c => !JobList.counted c) = some c := by
        obtain ⟨c, hc, hcount⟩ : ∃ c ∈ cs, JobList.counted c = false := by
          by_contra hall
          push Not at hall
          have heq := List.countP_eq_length.mpr fun c hc => (Bool.not_eq_false _).mp (hall c hc)
          have hlt := (hstarts.mp hplace).2.2
          omega
        exact Option.isSome_iff_exists.mp (List.find?_isSome.mpr ⟨c, hc, by rw [hcount]; rfl⟩)
      obtain ⟨hc, pre, post, rfl, hpre⟩ := List.find?_eq_some_iff_append.mp hfind
      rw [hfind, Option.map_some] at hfirst
      have hmem : c.1 ∈ (pre ++ c :: post).map Prod.fst :=
        List.mem_map_of_mem (List.mem_append_right _ List.mem_cons_self)
      obtain ⟨l', hl', hholds', hnext'⟩ := setStatus_holds hholds hmem .pending
      rw [map_withStatus hholds.nodup] at hholds'
      rw [if_pos hplace, hfirst, Option.elim_some, hl', Option.map_some,
        startFirst_entry s.unmarked (fun d hd => by simpa using hpre d hd) (by simpa using hc)]
      have hdistinct' : ((pre ++ (c.1, { c.2 with wf.status := .pending }) :: post).map
          fun d : Nat × JobInfo => d.2.wf.idjob).Nodup := by
        rw [List.map_append, List.map_cons] at hdistinct ⊢
        exact hdistinct
      refine ⟨_, rfl, ?_⟩
      exact @inOrder_of_holds { s with list := l', lookers := s.lookers - 1 } _ _ hholds' hdistinct' rfl fun b hb => by
        have hb' := h.unmarked b hb
        omega
    · rw [if_neg fun hp => hplace (hstarts.mpr hp)] at hfirst
      rw [if_neg hplace, hfirst, Option.elim_none, Option.map_some]
      refine ⟨_, rfl, ?_⟩
      exact @inOrder_of_holds { s with list := w.list, lookers := s.lookers - 1 } _ _ hholds hdistinct rfl
        (hnext ▸ h.unmarked)

/-- Each step of the handlers is the one of the farm. -/
theorem refines_step (h : s.InOrder) (hm : s.Meets sz a) : s.Refines sz a := by
  cases a with
  | submit wf now deadline => exact refines_submit h wf now deadline hm
  | mark item => exact refines_mark h item hm
  | notify => exact refines_notify h
  | drop idjob deadline log now => exact refines_drop h idjob deadline log now hm
  | look deadline => exact refines_look h deadline hm
  | lookup q deadline => exact refines_lookup h q deadline hm

/-! ## Runs -/

/-- The farm and the queue are not larger than they may be. -/
structure Bounded (sz : FarmSize) (s : Handlers) : Prop where
  farm : s.list.entries.countP s.started ≤ sz.farm
  queue : 0 < sz.queue → s.list.entries.length ≤ sz.farm + sz.queue

theorem bounded_iff : s.Bounded sz ↔ s.farm.Bounded sz := by
  have hcount : s.farm.startedNum = s.list.entries.countP s.started := by
    rw [Farm.startedNum, farm, List.countP_map]
    exact List.countP_congr fun c _ => by rw [Function.comp_apply, started_entry]
  have hlen := farm_entries_length s
  constructor
  · rintro ⟨hf, hq⟩
    exact ⟨hcount.trans_le hf, fun h => hlen.trans_le (hq h)⟩
  · rintro ⟨hf, hq⟩
    exact ⟨hcount.symm.trans_le hf, fun h => hlen.symm.trans_le (hq h)⟩

/-- The steps one after the other; there is no list left once a freed block has been used. -/
def runEvent (sz : FarmSize) (o : Option Handlers) (a : HandlerEvent) : Option Handlers := o.bind fun s => s.step sz a

theorem inOrder_init : InOrder {} := ⟨⟨trivial, List.nodup_nil, rfl, rfl, rfl⟩, List.nodup_nil, List.forall_mem_nil _⟩

theorem bounded_of_step (hfarm : 0 < sz.farm) (hb : s.Bounded sz) (hs : s.InOrder) (hm : s.Meets sz a) :
    ∃ s', s.step sz a = some s' ∧ s'.InOrder ∧ s'.Bounded sz := by
  obtain ⟨s', hstep, hin, hf⟩ := refines_step hs hm
  refine ⟨s', hstep, hin, bounded_iff.mpr ?_⟩
  rw [hf]
  cases s.toFarm a with
  | none => exact bounded_iff.mp hb
  | some b => exact Farm.bounded_step hfarm (bounded_iff.mp hb) b

theorem removable_of_fresh {dropped : Nat × JobInfo → Prop} (h : ∀ c ∈ cs, c.2.expired deadline = false) :
    JobList.Removable deadline q dropped cs := by
  rintro pre x y post rfl - hx -
  rw [h x (List.mem_append_right _ List.mem_cons_self)] at hx
  cases hx

/-- Two submissions to a farm of one workflow, and the end of the first one. -/
def twoSubmissions : List HandlerEvent :=
  [.submit { idjob := 1 } 0 0, .submit { idjob := 2 } 0 0, .mark 1, .drop 1 0 false 0, .look 0]

theorem meets_twoSubmissions :
    Along (runEvent ⟨1, 1⟩) (fun o a => ∀ s ∈ o, s.Meets ⟨1, 1⟩ a) (some {}) twoSubmissions := by
  refine ⟨?_, ?_, ?_, ?_, ?_, trivial⟩
  · rintro s ⟨⟩
    exact .inr (removable_of_fresh (by decide))
  · rintro s ⟨⟩
    exact .inr (removable_of_fresh (by decide))
  · rintro s ⟨⟩ -
    decide
  · rintro s ⟨⟩
    exact removable_of_fresh (by decide)
  · rintro s ⟨⟩
    exact .inr (removable_of_fresh (by decide))

/-- The step to `s'` starts the workflow `x`, which comes after `older` in the list. -/
def Starts (s s' : Handlers) (older : List (Nat × JobInfo)) (x : Nat × JobInfo) : Prop :=
  (∃ younger, s'.list.entries = older ++ x :: younger) ∧ s'.started x = true ∧
    ∀ y ∈ s.list.entries, y.2.wf.idjob = x.2.wf.idjob → s.started y = false

/-- No workflow is started while an older one is waiting. -/
def NoOvertaking (s s' : Handlers) : Prop :=
  ∀ older x, Starts s s' older x → ∀ y ∈ older, y.2.wf.status ≠ .unknown

/-- A workflow of the queue is not started while an older one is waiting; a new one is only if the farm has a place for
each workflow of the list. -/
def Fair (sz : FarmSize) (s : Handlers) (a : HandlerEvent) (s' : Handlers) : Prop :=
  ∀ older x, Starts s s' older x →
    match a with
    | .submit wf _ _ => x.2.wf.idjob = wf.idjob ∧ s'.list.entries.length ≤ sz.farm
    | _ => ∀ y ∈ older, y.2.wf.status ≠ .unknown

/-- A workflow that is started in the list is started in the farm. -/
theorem Starts.farm {b : FarmEvent} {older : List (Nat × JobInfo)} {x : Nat × JobInfo} (h : Starts s s' older x)
    (hf : s'.farm = s.farm.step sz b) :
    Farm.Starts sz s.farm b (older.map (entry s'.unmarked)) (entry s'.unmarked x) := by
  obtain ⟨⟨younger, he⟩, hstarted, hothers⟩ := h
  refine ⟨⟨younger.map (entry s'.unmarked), ?_⟩, (started_entry s' x).trans hstarted, ?_⟩
  · rw [← hf, Handlers.farm, he, List.map_append, List.map_cons]
  · intro y hy hid
    obtain ⟨c, hc, rfl⟩ := List.mem_map.mp hy
    exact (started_entry s c).trans (hothers c hc hid)

/-- Without an event of the farm nothing is started. -/
theorem not_starts_of_farm_eq {older : List (Nat × JobInfo)} {x : Nat × JobInfo} (hf : s'.farm = s.farm) :
    ¬ Starts s s' older x := by
  rintro ⟨⟨younger, he⟩, hstarted, hothers⟩
  have hmem : entry s'.unmarked x ∈ s'.farm.entries :=
    List.mem_map_of_mem (he ▸ List.mem_append_right _ List.mem_cons_self)
  rw [hf] at hmem
  obtain ⟨c, hc, hce⟩ := List.mem_map.mp hmem
  have hid : c.2.wf.idjob = x.2.wf.idjob := congrArg FarmEntry.idjob hce
  have hnot := hothers c hc hid
  rw [← started_entry, hce, started_entry, hstarted] at hnot
  cases hnot

theorem older_of_map {older : List (Nat × JobInfo)} {unmarked : List Nat}
    (h : ∀ y ∈ older.map (entry unmarked), y.unstarted = false) : ∀ y ∈ older, y.2.wf.status ≠ .unknown := by
  intro y hy
  exact of_decide_eq_false (h _ (List.mem_map_of_mem hy))

theorem fair_of_step (hfarm : 0 < sz.farm) (hs : s.InOrder) (hm : s.Meets sz a) :
    ∃ s', s.step sz a = some s' ∧ s'.InOrder ∧ Fair sz s a s' := by
  obtain ⟨s', hstep, hin, hf⟩ := refines_step hs hm
  refine ⟨s', hstep, hin, fun older x hx => ?_⟩
  cases hb : s.toFarm a with
  | none =>
    rw [hb] at hf
    exact absurd hx (not_starts_of_farm_eq hf)
  | some b =>
    rw [hb] at hf
    have hfair := Farm.fair_step hfarm s.farm b _ _ (hx.farm hf)
    cases a with
    | submit wf now deadline =>
      cases hb
      refine ⟨hfair.1, ?_⟩
      rw [← farm_entries_length, hf]
      exact hfair.2
    | mark item =>
      change (if item ∈ s.unmarked then _ else none) = some b at hb
      split at hb
      · obtain ⟨c, -, rfl⟩ := Option.map_eq_some_iff.mp hb
        exact older_of_map hfair
      · cases hb
    | notify =>
      cases hb
      exact older_of_map hfair
    | drop idjob deadline log now =>
      cases hb
      exact older_of_map hfair
    | look deadline =>
      cases hb
      exact older_of_map hfair
    | lookup q deadline =>
      cases hb
      exact older_of_map hfair

/-- All along such a run, the queue is served in its order, and a new workflow is started at once only if there is a
place for each workflow of the list. -/
theorem fair_run (hfarm : 0 < sz.farm) {as : List HandlerEvent}
    (h : Along (runEvent sz) (fun o a => ∀ s ∈ o, s.Meets sz a) (some {}) as) :
    Along (runEvent sz) (fun o a => ∃ s s', o = some s ∧ s.step sz a = some s' ∧ Fair sz s a s') (some {}) as := by
  refine Along.of_induct (fun o => ∃ s, o = some s ∧ s.InOrder) ⟨{}, rfl, inOrder_init⟩ ?_ ?_ h
  · rintro o a ⟨s, rfl, hin⟩ hm
    obtain ⟨s', hstep, hin', -⟩ := fair_of_step hfarm hin (hm s rfl)
    exact ⟨s', hstep, hin'⟩
  · rintro o a ⟨s, rfl, hin⟩ hm
    obtain ⟨s', hstep, -, hfair⟩ := fair_of_step hfarm hin (hm s rfl)
    exact ⟨s, s', rfl, hstep, hfair⟩

/-- The queued workflow is started once the one that runs has ended. -/
theorem fair_run_two :
    Along (runEvent ⟨1, 1⟩) (fun o a => ∃ s s', o = some s ∧ s.step ⟨1, 1⟩ a = some s' ∧ Fair ⟨1, 1⟩ s a s') (some {})
      twoSubmissions := fair_run (by decide) meets_twoSubmissions

/-- Two workflows end before a handler looks for a queued one: a new workflow is started before it. -/
theorem overtaking_after_two_ends :
    ¬ Along (runEvent ⟨2, 0⟩) (fun o a => ∃ s s', o = some s ∧ s.step ⟨2, 0⟩ a = some s' ∧ NoOvertaking s s') (some {})
      [.submit { idjob := 1 } 0 0, .submit { idjob := 2 } 0 0, .submit { idjob := 3 } 0 0, .mark 2, .drop 1 0 false 0,
        .drop 2 0 false 0, .submit { idjob := 4 } 0 0] := by
  rintro ⟨-, -, -, -, -, -, ⟨s, s', hs, hs', h⟩, -⟩
  cases hs
  cases hs'
  have hold := h [(2, ⟨0, { idjob := 3, status := .unknown }⟩)] (3, ⟨0, { idjob := 4 }⟩)
    ⟨⟨[], by decide⟩, by decide, by decide⟩ (2, ⟨0, { idjob := 3, status := .unknown }⟩) List.mem_cons_self
  exact hold rfl

end Handlers
end OphidiaWorkflow.Server
