import OphidiaWorkflow.Server.Monitor

/-! The monitor from poll to poll: which tasks it reports as aborted. -/
namespace OphidiaWorkflow.Server

open Lib

section Pass

variable {ids : List Int} {js : List MonitorJob} {x : MonitorJob} {p : Pass} {marked : List Place} {v v' : Int}

theorem mem_overwrite {list : List Int} {u : Int} (h : u ∈ list) (hne : u ≠ v) : u ∈ overwrite v v' list := by
  induction list with
  | nil => cases h
  | cons w ws ih =>
    rw [overwrite]
    split
    · next hw =>
      rcases List.mem_cons.mp h with rfl | h
      · exact absurd hw hne
      · exact List.mem_cons_of_mem _ h
    · rcases List.mem_cons.mp h with rfl | h
      · exact List.mem_cons_self
      · exact List.mem_cons_of_mem _ (ih h)

/-- No two jobs have the same place. -/
def Apart (js : List MonitorJob) : Prop := (js.map MonitorJob.place).Nodup

instance (js : List MonitorJob) : Decidable (Apart js) := inferInstanceAs (Decidable (List.Nodup _))

theorem Distinct.tail (h : Distinct (x :: js)) : Distinct js := by
  refine ⟨fun y hy => h.nonneg y (List.mem_cons_of_mem _ hy), ?_⟩
  exact List.Nodup.sublist ((List.sublist_cons_self _ _).filter _) h.ids

theorem Distinct.ne_head (h : Distinct (x :: js)) (hx : 0 < x.idjob) {y : MonitorJob} (hy : y ∈ js) :
    y.idjob ≠ x.idjob := by
  have hn := h.ids
  rw [List.map_cons, List.filter_cons_of_pos (by simpa using hx), List.nodup_cons] at hn
  intro he
  refine hn.1 (List.mem_filter.mpr ⟨?_, decide_eq_true hx⟩)
  rw [← he]
  exact List.mem_map_of_mem hy

/-- The jobs that are reported were marked before, and the ones that are marked are absent from the queue. -/
theorem check_spec (hd : Distinct js) (ha : Apart js) (ids : List Int) (marked : List Place) :
    (∀ n ∈ (checkAborted js ids marked).notices,
      ∃ x ∈ js, x.running = true ∧ x.notice = n ∧ x.idjob ∉ ids ∧ x.place ∈ marked) ∧
    ∀ pl ∈ (checkAborted js ids marked).marked,
      pl ∈ marked ∨ ∃ x ∈ js, x.place = pl ∧ x.running = true ∧ x.idjob ∉ ids := by
  -- what has been struck out so far belongs to none of the jobs that are still to come
  have hloop (p : Pass) (hlist : ∀ v ∈ ids, v ∈ p.list ∨ ∀ x ∈ js, x.idjob ≠ v)
      (hmarked : ∀ x ∈ js, x.place ∈ p.marked → x.place ∈ marked) :
      (∀ n ∈ (js.foldl Pass.check p).notices,
        n ∈ p.notices ∨ ∃ x ∈ js, x.running = true ∧ x.notice = n ∧ x.idjob ∉ ids ∧ x.place ∈ marked) ∧
      ∀ pl ∈ (js.foldl Pass.check p).marked,
        pl ∈ p.marked ∨ ∃ x ∈ js, x.place = pl ∧ x.running = true ∧ x.idjob ∉ ids := by
    induction js generalizing p with
    | nil => exact ⟨fun n hn => .inl hn, fun pl hpl => .inl hpl⟩
    | cons x js ih =>
      obtain ⟨hplace, ha'⟩ := List.nodup_cons.mp ha
      have hmarked' : ∀ y ∈ js, y.place ∈ p.marked → y.place ∈ marked :=
        fun y hy => hmarked y (List.mem_cons_of_mem _ hy)
      have hlist' : ∀ v ∈ ids, v ∈ p.list ∨ ∀ y ∈ js, y.idjob ≠ v :=
        fun v hv => (hlist v hv).imp_right fun h y hy => h y (List.mem_cons_of_mem _ hy)
      have hmono (q : Pass) (hq : (p.check x) = q) (hl : ∀ v ∈ ids, v ∈ q.list ∨ ∀ y ∈ js, y.idjob ≠ v)
          (hm : ∀ y ∈ js, y.place ∈ q.marked → y.place ∈ marked)
          (hn : ∀ n ∈ q.notices, n ∈ p.notices ∨
            (x.running = true ∧ x.notice = n ∧ x.idjob ∉ ids ∧ x.place ∈ marked))
          (hpl : ∀ pl ∈ q.marked, pl ∈ p.marked ∨ (x.place = pl ∧ x.running = true ∧ x.idjob ∉ ids)) :
          (∀ n ∈ ((x :: js).foldl Pass.check p).notices,
            n ∈ p.notices ∨ ∃ y ∈ x :: js, y.running = true ∧ y.notice = n ∧ y.idjob ∉ ids ∧ y.place ∈ marked) ∧
          ∀ pl ∈ ((x :: js).foldl Pass.check p).marked,
            pl ∈ p.marked ∨ ∃ y ∈ x :: js, y.place = pl ∧ y.running = true ∧ y.idjob ∉ ids := by
        rw [List.foldl_cons, hq]
        obtain ⟨hnotices, hmarks⟩ := ih hd.tail ha' q hl hm
        constructor
        · intro n hmem
          rcases hnotices n hmem with h | ⟨y, hy, h⟩
          · exact (hn n h).imp_right fun h => ⟨x, List.mem_cons_self, h⟩
          · exact .inr ⟨y, List.mem_cons_of_mem _ hy, h⟩
        · intro pl hmem
          rcases hmarks pl hmem with h | ⟨y, hy, h⟩
          · exact (hpl pl h).imp_right fun h => ⟨x, List.mem_cons_self, h⟩
          · exact .inr ⟨y, List.mem_cons_of_mem _ hy, h⟩
      by_cases hc : pollItems ≤ p.notices.length ∨ x.running = false
      · exact hmono p (if_pos hc) hlist' hmarked' (fun n hn => .inl hn) fun pl hpl => .inl hpl
      · have hrun : x.running = true := by
          by_contra hne
          exact hc (.inr (Bool.eq_false_iff.mpr hne))
        by_cases hmem : x.idjob ∈ p.list
        · refine hmono { p with list := overwrite x.idjob 0 p.list } ?_ ?_ hmarked' (fun n hn => .inl hn)
            fun pl hpl => .inl hpl
          · rw [Pass.check, if_neg hc, if_pos hmem]
          · intro v hv
            rcases hlist' v hv with h | h
            · by_cases he : v = x.idjob
              · rcases Int.lt_or_eq_of_le (hd.nonneg x List.mem_cons_self) with hid | hid
                · exact .inr fun y hy => he ▸ hd.ne_head hid hy
                · left
                  show v ∈ overwrite x.idjob 0 p.list
                  rw [← hid, overwrite_zero]
                  exact h
              · exact .inl (mem_overwrite h he)
            · exact .inr h
        · have habsent : x.idjob ∉ ids := by
            intro hids
            rcases hlist _ hids with h | h
            · exact hmem h
            · exact h x List.mem_cons_self rfl
          by_cases hmk : x.place ∈ p.marked
          · refine hmono { p with notices := p.notices ++ [x.notice] } ?_ hlist' hmarked' ?_ fun pl hpl => .inl hpl
            · rw [Pass.check, if_neg hc, if_neg hmem, if_pos hmk]
            · intro n hn
              rcases List.mem_append.mp hn with hn | hn
              · exact .inl hn
              · exact .inr ⟨hrun, (List.mem_singleton.mp hn).symm, habsent, hmarked x List.mem_cons_self hmk⟩
          · refine hmono { p with marked := x.place :: p.marked } ?_ hlist' ?_ (fun n hn => .inl hn) ?_
            · rw [Pass.check, if_neg hc, if_neg hmem, if_neg hmk]
            · intro y hy hyp
              rcases List.mem_cons.mp hyp with he | hyp
              · exact absurd (he ▸ List.mem_map_of_mem hy) hplace
              · exact hmarked' y hy hyp
            · intro pl hpl
              rcases List.mem_cons.mp hpl with rfl | hpl
              · exact .inr ⟨rfl, hrun, habsent⟩
              · exact .inl hpl
  obtain ⟨hnotices, hmarks⟩ := hloop ⟨ids, marked, []⟩ (fun v hv => .inl hv) fun x _ hx => hx
  exact ⟨fun n hn => (hnotices n hn).resolve_left nofun, hmarks⟩

end Pass

/-- The workflows in memory, the flags `is_marked_to_be_aborted`, and the queue as it was read at the last poll. -/
structure Polled where
  ws : List MonitorWorkflow := []
  marked : List Place := []
  prev : Option (List Int) := none
  deriving DecidableEq, Repr

/-- A poll, or what the engine makes of the workflows and the flags between two polls. -/
inductive PollEvent
  | poll (ids : List Int)
  | engine (ws : List MonitorWorkflow) (marked : List Place)
  deriving DecidableEq, Repr

namespace Polled

variable {s : Polled} {e : PollEvent} {es : List PollEvent}

def step (s : Polled) : PollEvent → Polled
  | .poll ids => { s with marked := (checkAborted (monitorJobs s.ws) ids s.marked).marked, prev := some ids }
  | .engine ws marked => { s with ws, marked }

/-- The notifications `ABORTED` of a poll. -/
def notices (s : Polled) : PollEvent → List Notice
  | .poll ids => (checkAborted (monitorJobs s.ws) ids s.marked).notices
  | .engine _ _ => []

/-- The engine only clears flags. A task that keeps its flag also keeps its job, or gets one that was not yet in the
queue: the identifiers of the jobs come from the database. -/
structure Evolves (s : Polled) (ws : List MonitorWorkflow) (marked : List Place) : Prop where
  distinct : Distinct (monitorJobs ws)
  apart : Apart (monitorJobs ws)
  flags : ∀ pl ∈ marked, pl ∈ s.marked
  kept : ∀ x ∈ monitorJobs ws, x.place ∈ marked →
    (∃ y ∈ monitorJobs s.ws, y.place = x.place ∧ y.idjob = x.idjob) ∨ ∀ ids ∈ s.prev, x.idjob ∉ ids

def Legal (s : Polled) : PollEvent → Prop
  | .poll _ => True
  | .engine ws marked => s.Evolves ws marked

/-- No job that has been marked is in the queue again. -/
def Unseen (s : Polled) : PollEvent → Prop
  | .poll ids => ∀ x ∈ monitorJobs s.ws, x.place ∈ s.marked → x.idjob ∉ ids
  | .engine _ _ => True

/-- Each job that is reported as aborted was running, and was absent from the queue now and at the last poll. -/
def Twice (s : Polled) (e : PollEvent) : Prop :=
  ∀ n ∈ s.notices e, ∃ ids prev, e = .poll ids ∧ s.prev = some prev ∧ n.jobid ∉ ids ∧ n.jobid ∉ prev ∧
    ∃ x ∈ monitorJobs s.ws, x.notice = n ∧ x.running = true

/-- The jobs that are marked were absent at the last poll. -/
structure Absent (s : Polled) : Prop where
  distinct : Distinct (monitorJobs s.ws)
  apart : Apart (monitorJobs s.ws)
  absent : ∀ x ∈ monitorJobs s.ws, x.place ∈ s.marked → ∃ prev, s.prev = some prev ∧ x.idjob ∉ prev
  flags : s.prev = none → s.marked = []

theorem twice_of_absent (h : s.Absent) (e : PollEvent) : s.Twice e := by
  intro n hn
  cases e with
  | engine ws marked => cases hn
  | poll ids =>
    obtain ⟨x, hx, hrun, rfl, hids, hmarked⟩ := (check_spec h.distinct h.apart ids s.marked).1 n hn
    obtain ⟨prev, hprev, habsent⟩ := h.absent x hx hmarked
    exact ⟨ids, prev, rfl, hprev, hids, habsent, x, hx, rfl, hrun⟩

theorem eq_of_place {js : List MonitorJob} (ha : Apart js) {x y : MonitorJob} (hx : x ∈ js) (hy : y ∈ js)
    (h : x.place = y.place) : x = y := List.inj_on_of_nodup_map ha hx hy h

theorem absent_step (h : s.Absent) (hl : s.Legal e) (hu : s.Unseen e) : (s.step e).Absent := by
  cases e with
  | poll ids =>
    refine ⟨h.distinct, h.apart, fun x hx hmarked => ⟨ids, rfl, ?_⟩, nofun⟩
    rcases (check_spec h.distinct h.apart ids s.marked).2 x.place hmarked with hold | ⟨y, hy, hplace, -, hids⟩
    · exact hu x hx hold
    · rwa [eq_of_place h.apart hx hy hplace.symm]
  | engine ws marked =>
    refine ⟨hl.distinct, hl.apart, fun x hx hmarked => ?_, fun hprev => ?_⟩
    · change ∃ prev, s.prev = some prev ∧ _
      cases hprev : s.prev with
      | none =>
        have hnil := h.flags hprev
        have hold := hl.flags x.place hmarked
        rw [hnil] at hold
        cases hold
      | some prev =>
        refine ⟨prev, rfl, ?_⟩
        rcases hl.kept x hx hmarked with ⟨y, hy, hplace, hid⟩ | hnew
        · have hold := hl.flags x.place hmarked
          obtain ⟨prev', hprev', habsent⟩ := h.absent y hy (hplace ▸ hold)
          rw [hprev] at hprev'
          cases hprev'
          rwa [hid] at habsent
        · exact hnew prev hprev
    · have hnil := h.flags hprev
      refine List.eq_nil_iff_forall_not_mem.mpr fun pl hpl => ?_
      have hold := hl.flags pl hpl
      rw [hnil] at hold
      cases hold

/-- As long as no job that has been marked is in the queue again, each job that is reported as aborted was running and
absent at two polls in a row. -/
theorem twice_run (h : Along step (fun s e => s.Legal e ∧ s.Unseen e) {} es) : Along step Twice {} es := by
  have h0 : Absent {} :=
    ⟨⟨List.forall_mem_nil _, List.nodup_nil⟩, List.nodup_nil, List.forall_mem_nil _, fun _ => rfl⟩
  exact Along.of_induct Absent h0 (fun s e hs he => absent_step hs he.1 he.2) (fun s e hs _ => twice_of_absent hs e) h

/-- One task that runs. -/
def oneTask : List MonitorWorkflow := [⟨1, [], [{ idjob := 7, status := .running }]⟩]

theorem evolves_oneTask : Evolves {} oneTask [] :=
  ⟨⟨by decide, by decide⟩, by decide, List.forall_mem_nil _, fun _ _ h => absurd h List.not_mem_nil⟩

/-- The job of the task is absent at two polls. -/
theorem twice_run_absent : Along step Twice {} [.engine oneTask [], .poll [], .poll []] :=
  twice_run ⟨⟨evolves_oneTask, trivial⟩, ⟨trivial, fun _ _ _ => List.not_mem_nil⟩,
    ⟨trivial, fun _ _ _ => List.not_mem_nil⟩, trivial⟩

/-- The job of the task is absent, in the queue, and absent: it is reported though it was seen at the last poll. -/
theorem not_twice_seen : Along step Legal {} [.engine oneTask [], .poll [], .poll [7], .poll []] ∧
    ¬ Along step Twice {} [.engine oneTask [], .poll [], .poll [7], .poll []] := by
  refine ⟨⟨evolves_oneTask, trivial, trivial, trivial, trivial⟩, ?_⟩
  rintro ⟨-, -, -, h, -⟩
  obtain ⟨ids, prev, -, hprev, -, hseen, -⟩ := h ⟨⟨1, 0, -1⟩, 7, [], 0, true⟩ (by decide)
  cases hprev
  exact hseen List.mem_cons_self

end Polled
end OphidiaWorkflow.Server
