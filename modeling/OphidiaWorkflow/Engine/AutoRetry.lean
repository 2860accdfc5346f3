import OphidiaWorkflow.Engine.Retries

/-!
The counters that decide on the retries of a task: one for the attempts of its own, and one for the automatic ones, which
is counted down by a notification of the task and once more when its failure is accounted for.
-/
namespace OphidiaWorkflow

/-- What a failure that is accounted for makes of a task with `retry_num > 0`, if the task is to be executed again. -/
def Task.retried (ophAutoRetry : Nat) (t : Task) : Option Task :=
  let (t, auto) := autoRetryUpdate ophAutoRetry t
  if auto then some t else if t.countRetry.residualRetryNum ≠ 0 then some t.countRetry else none

/-- A task waits to be executed, or an attempt of it is under way. -/
inductive Phase
  | waiting | underWay
  deriving DecidableEq, Repr

/--
A task with `retry_num = n` and without light tasks that has been executed `k` times since it was loaded or reset: each
attempt may be notified any number of times, and ends with one notification of its failure.
-/
inductive Executed (ophAutoRetry : Nat) (n : Int) : Phase → Nat → Task → Prop
  | loaded {t : Task} (h : t.counters = (n, n, 0, false, 0)) : Executed ophAutoRetry n .waiting 0 t
  | started {k : Nat} {t t' : Task} (h : Executed ophAutoRetry n .waiting k t) (ht : t'.counters = t.counters) :
      Executed ophAutoRetry n .underWay (k + 1) t'
  | notified {k : Nat} {t t' : Task} (h : Executed ophAutoRetry n .underWay k t) (s : JobStatus)
      (hs : s.notified ≠ some .error) (ht : t'.counters = (markAutoRetry ophAutoRetry s t).1.counters) :
      Executed ophAutoRetry n .underWay k t'
  | failed {k : Nat} {t t' u : Task} (h : Executed ophAutoRetry n .underWay k t) (s : JobStatus)
      (hs : s.notified = some .error) (hn : 0 < n) (hr : t.residualRetryNum ≠ 0)
      (hu : (markAutoRetry ophAutoRetry s t).1.retried ophAutoRetry = some u) (ht : t'.counters = u.counters) :
      Executed ophAutoRetry n .waiting k t'

section Counters

variable {ophAutoRetry : Nat} {n : Int} {k : Nat} {t t' u : Task} {s : JobStatus} {phase : Phase}

theorem Executed.congr (h : Executed ophAutoRetry n phase k t) (ht : t'.counters = t.counters) :
    Executed ophAutoRetry n phase k t' := by
  cases h with
  | loaded h => exact .loaded (ht.trans h)
  | started h hc => exact .started h (ht.trans hc)
  | notified h s hs hc => exact .notified h s hs (ht.trans hc)
  | failed h s hs hn hr hu hc => exact .failed h s hs hn hr hu (ht.trans hc)

theorem markAutoRetry_retryNum : (markAutoRetry ophAutoRetry s t).1.retryNum = t.retryNum := by
  unfold markAutoRetry
  split_ifs <;> rfl

/-- Without automatic retries a failure uses one of the attempts of the task. -/
theorem retried_eq_some_iff (h : t.retryNum ≠ 1 ∨ ophAutoRetry = 0) :
    t.retried ophAutoRetry = some u ↔ t.residualRetryNum ≠ 1 ∧ u = t.countRetry := by
  have hauto : autoRetryUpdate ophAutoRetry t = (t, false) := by
    rw [autoRetryUpdate, if_neg (by tauto)]
  have hleft : t.countRetry.residualRetryNum ≠ 0 ↔ t.residualRetryNum ≠ 1 := not_congr sub_eq_zero
  unfold Task.retried
  simp only [hauto, Bool.false_eq_true, if_false]
  rw [Option.ite_none_right_eq_some, Option.some.injEq, hleft, eq_comm (a := u)]

/-- An automatic retry leaves the attempts of the task alone. -/
theorem retried_of_marked (hA : 0 < ophAutoRetry) (hr : t.retryNum = 1) (hm : t.isMarkedForAutoRetry = true)
    (ha : 1 < t.residualAutoRetryNum) :
    t.retried ophAutoRetry = some { t with residualAutoRetryNum := t.residualAutoRetryNum - 1 } := by
  unfold Task.retried autoRetryUpdate
  rw [if_pos ⟨by omega, hm, hr⟩, if_neg (by omega), if_pos ha]
  rfl

theorem eq_of_retried_marked (hu : t.retried ophAutoRetry = some u) (hA : 0 < ophAutoRetry) (hr : t.retryNum = 1)
    (hres : t.residualRetryNum = 1) (hm : t.isMarkedForAutoRetry = true) (ha : 1 ≤ t.residualAutoRetryNum) :
    1 < t.residualAutoRetryNum ∧ u = { t with residualAutoRetryNum := t.residualAutoRetryNum - 1 } := by
  by_cases hlt : 1 < t.residualAutoRetryNum
  · rw [retried_of_marked hA hr hm hlt] at hu
    exact ⟨hlt, (Option.some.inj hu).symm⟩
  · have hlast : t.countRetry.residualRetryNum = 0 := by
      rw [Task.countRetry, hres]
      rfl
    unfold Task.retried autoRetryUpdate at hu
    rw [if_pos ⟨by omega, hm, hr⟩, if_neg (by omega), if_neg hlt] at hu
    simp only [Bool.false_eq_true, if_false, hlast, ne_eq, not_true_eq_false, reduceCtorEq] at hu

/-- A task without automatic retries is executed once for each attempt of its own. -/
theorem Executed.own (h : Executed ophAutoRetry n phase k t) (hn : n ≠ 1 ∨ ophAutoRetry = 0) :
    t.retryNum = n ∧ t.residualAutoRetryNum = 0 ∧ (n ≤ 0 → phase = .waiting → k = 0 ∧ t.residualRetryNum = n) ∧
      (0 < n → 0 < t.residualRetryNum ∧
        (k : Int) + t.residualRetryNum = match phase with | .waiting => n | .underWay => n + 1) := by
  have hmark {t : Task} {s : JobStatus} (hr : t.retryNum = n) (ha : t.residualAutoRetryNum = 0) :
      (markAutoRetry ophAutoRetry s t).1.residualAutoRetryNum = 0 := by
    have hno : ¬ (ophAutoRetry ≠ 0 ∧ t.retryNum = 1) := by
      rw [hr]
      tauto
    unfold markAutoRetry
    rw [if_neg hno]
    split_ifs
    · exact ha
    · rfl
  induction h with
  | loaded h =>
    simp only [Task.counters, Prod.mk.injEq] at h
    obtain ⟨hr, hres, ha, -, -⟩ := h
    exact ⟨hr, ha, fun _ _ => ⟨rfl, hres⟩, fun hpos => ⟨by omega, by simp [hres]⟩⟩
  | started h ht ih =>
    obtain ⟨hr, hres, ha, -, -⟩ := Task.counters_eq_iff.mp ht
    obtain ⟨ihr, iha, -, ih⟩ := ih
    refine ⟨hr.trans ihr, ha.trans iha, fun _ hp => Phase.noConfusion hp, fun hpos => ?_⟩
    obtain ⟨hlt, hsum⟩ := ih hpos
    simp only at hsum ⊢
    omega
  | notified h s hs ht ih =>
    obtain ⟨hr, hres, ha, -, -⟩ := Task.counters_eq_iff.mp ht
    obtain ⟨ihr, iha, -, ih⟩ := ih
    refine ⟨hr.trans (markAutoRetry_retryNum.trans ihr), ha.trans (hmark ihr iha), fun _ hp => Phase.noConfusion hp,
      fun hpos => ?_⟩
    rw [hres, markAutoRetry_residualRetryNum]
    exact ih hpos
  | failed h s hs hpos hr0 hu ht ih =>
    obtain ⟨hr, hres, ha, -, -⟩ := Task.counters_eq_iff.mp ht
    obtain ⟨ihr, iha, -, ih⟩ := ih
    obtain ⟨hlt, hsum⟩ := ih hpos
    obtain ⟨hne, rfl⟩ := (retried_eq_some_iff (by rw [markAutoRetry_retryNum, ihr]; exact hn)).mp hu
    rw [markAutoRetry_residualRetryNum] at hne
    have hcount (t : Task) : t.countRetry.residualRetryNum = t.residualRetryNum - 1 := rfl
    rw [hcount, markAutoRetry_residualRetryNum] at hres
    refine ⟨hr.trans (markAutoRetry_retryNum.trans ihr), ha.trans (hmark ihr iha), fun hle => ?_, fun _ => ?_⟩
    · omega
    · simp only at hsum ⊢
      omega

/-- The automatic retries of a task that has been executed `k` times: the counter goes down by two at least for each
failure but the first. -/
def Task.AutoCount (ophAutoRetry : Nat) (k : Nat) (t : Task) : Phase → Prop
  | .waiting => (k = 0 ∧ t.residualAutoRetryNum = 0 ∧ t.isMarkedForAutoRetry = false) ∨
      (1 ≤ k ∧ t.isMarkedForAutoRetry = true ∧ 1 ≤ t.residualAutoRetryNum ∧
        t.residualAutoRetryNum + 2 * (k - 1) ≤ ophAutoRetry ∧ (k = 1 → t.residualAutoRetryNum = ophAutoRetry))
  | .underWay => (k = 1 ∧ t.residualAutoRetryNum = 0 ∧ t.isMarkedForAutoRetry = false) ∨
      (2 ≤ k ∧ t.isMarkedForAutoRetry = true ∧ 1 ≤ t.residualAutoRetryNum ∧
        t.residualAutoRetryNum + 2 * (k - 2) ≤ ophAutoRetry)

theorem Task.AutoCount.congr (h : t.AutoCount ophAutoRetry k phase)
    (ha : t'.residualAutoRetryNum = t.residualAutoRetryNum) (hm : t'.isMarkedForAutoRetry = t.isMarkedForAutoRetry) :
    t'.AutoCount ophAutoRetry k phase := by
  cases phase with
  | waiting =>
    unfold AutoCount
    rw [ha, hm]
    exact h
  | underWay =>
    unfold AutoCount
    rw [ha, hm]
    exact h

theorem Task.AutoCount.started (h : t.AutoCount ophAutoRetry k .waiting) : t.AutoCount ophAutoRetry (k + 1) .underWay := by
  rcases h with ⟨rfl, h0, hm⟩ | ⟨hk, hm, hle, hsum, -⟩
  · exact .inl ⟨rfl, h0, hm⟩
  · exact .inr ⟨by omega, hm, hle, by push_cast; omega⟩

/-- A notification marks the task or counts it down. -/
theorem Task.AutoCount.notified (h : t.AutoCount ophAutoRetry k .underWay) (hA : 0 < ophAutoRetry) (hr : t.retryNum = 1)
    (hs : s.notified ≠ some .error) : (markAutoRetry ophAutoRetry s t).1.AutoCount ophAutoRetry k .underWay := by
  have hstart : s ≠ .startError := by
    rintro rfl
    exact hs rfl
  unfold markAutoRetry
  rcases h with ⟨rfl, h0, hm⟩ | ⟨hk, hm, hle, hsum⟩
  · rw [if_neg (by simp [hm, hstart])]
    exact .inl ⟨rfl, rfl, hm⟩
  · rw [if_pos (.inl hm), if_pos ⟨by omega, hr⟩, if_neg (by omega)]
    split_ifs
    · exact .inr ⟨hk, hm, by simp only; omega, by simp only; omega⟩
    · exact .inr ⟨hk, hm, hle, hsum⟩

/-- A failure counts the task down once more; it is not executed again if there is no automatic retry left. -/
theorem Task.AutoCount.failed (h : t.AutoCount ophAutoRetry k .underWay) (hA : 0 < ophAutoRetry) (hr : t.retryNum = 1)
    (hres : t.residualRetryNum = 1) (hu : (markAutoRetry ophAutoRetry s t).1.retried ophAutoRetry = some u) :
    u.retryNum = 1 ∧ u.residualRetryNum = 1 ∧ u.AutoCount ophAutoRetry k .waiting := by
  have hA' : ophAutoRetry ≠ 0 := by omega
  rcases h with ⟨rfl, h0, hm⟩ | ⟨hk, hm, hle, hsum⟩
  · by_cases hs : s = .startError
    · have hmark : (markAutoRetry ophAutoRetry s t).1 =
          { t with residualAutoRetryNum := 1 + ophAutoRetry, isMarkedForAutoRetry := true } := by
        rw [markAutoRetry, if_pos (.inr hs), if_pos ⟨hA', hr⟩, if_pos h0]
      rw [hmark] at hu
      obtain ⟨-, rfl⟩ := eq_of_retried_marked hu hA hr hres rfl (by simp only; omega)
      exact ⟨hr, hres, .inr ⟨Nat.le_refl 1, rfl, by simp only; omega, by simp only; omega, fun _ => by simp only; omega⟩⟩
    · have hmark : (markAutoRetry ophAutoRetry s t).1 = { t with residualAutoRetryNum := 0 } := by
        rw [markAutoRetry, if_neg (by simp [hm, hs])]
      simp [hmark, Task.retried, autoRetryUpdate, Task.countRetry, hm, hres] at hu
  · by_cases hlt : 1 < t.residualAutoRetryNum
    · have hmark : (markAutoRetry ophAutoRetry s t).1 =
          { t with residualAutoRetryNum := t.residualAutoRetryNum - 1 } := by
        rw [markAutoRetry, if_pos (.inl hm), if_pos ⟨hA', hr⟩, if_neg (by omega), if_pos hlt]
      rw [hmark] at hu
      obtain ⟨hlt', rfl⟩ := eq_of_retried_marked hu hA hr hres hm (by simp only; omega)
      simp only at hlt'
      exact ⟨hr, hres, .inr ⟨by omega, hm, by simp only; omega, by simp only; omega, fun h1 => by omega⟩⟩
    · have hmark : (markAutoRetry ophAutoRetry s t).1 = t := by
        rw [markAutoRetry, if_pos (.inl hm), if_pos ⟨hA', hr⟩, if_neg (by omega), if_neg hlt]
      rw [hmark] at hu
      exact absurd (eq_of_retried_marked hu hA hr hres hm hle).1 hlt

theorem Executed.auto (h : Executed ophAutoRetry 1 phase k t) (hA : 0 < ophAutoRetry) :
    t.retryNum = 1 ∧ t.residualRetryNum = 1 ∧ t.AutoCount ophAutoRetry k phase := by
  induction h with
  | loaded h =>
    simp only [Task.counters, Prod.mk.injEq] at h
    obtain ⟨hr, hres, ha, hm, -⟩ := h
    exact ⟨hr, hres, .inl ⟨rfl, ha, hm⟩⟩
  | started h ht ih =>
    obtain ⟨hr, hres, ha, hm, -⟩ := Task.counters_eq_iff.mp ht
    obtain ⟨ihr, ihres, ih⟩ := ih
    exact ⟨hr.trans ihr, hres.trans ihres, ih.started.congr ha hm⟩
  | notified h s hs ht ih =>
    obtain ⟨hr, hres, ha, hm, -⟩ := Task.counters_eq_iff.mp ht
    obtain ⟨ihr, ihres, ih⟩ := ih
    exact ⟨hr.trans (markAutoRetry_retryNum.trans ihr),
      hres.trans ((markAutoRetry_residualRetryNum ophAutoRetry s _).trans ihres), (ih.notified hA ihr hs).congr ha hm⟩
  | failed h s hs hpos hr0 hu ht ih =>
    obtain ⟨hr, hres, ha, hm, -⟩ := Task.counters_eq_iff.mp ht
    obtain ⟨ihr, ihres, ih⟩ := ih
    obtain ⟨hur, hures, hcount⟩ := ih.failed hA ihr ihres hu
    exact ⟨hr.trans hur, hres.trans hures, hcount.congr ha hm⟩

end Counters

/-! ## Runs -/

section Runs

variable {n : Int} {i : Nat} {wf wf' : Workflow} {m : Notification} {status : JobStatus} {s : Sys} {e : Event}
  (ophAutoRetry : Nat) (env : NotifyEnv)

/-- The counters of task `i`, unless it has light tasks, are those of its executions. -/
structure RetriesCounted (n : Int) (i : Nat) (wf : Workflow) : Prop where
  retryNum : (wf.tasks i).retryNum = n
  waiting : (wf.tasks i).status = .unknown → (wf.tasks i).lightTasksNum = 0 →
    Executed ophAutoRetry n .waiting (wf.attempts i) (wf.tasks i)
  underWay : wf.UnderWay i → (wf.tasks i).lightTasksNum = 0 →
    Executed ophAutoRetry n .underWay (wf.attempts i) (wf.tasks i)

/-- The notifications of light tasks come for tasks that have light tasks. -/
def LightNotified (i : Nat) (s : Sys) (e : Event) : Prop :=
  ∀ m ∈ s.delivered e, m.taskIndex = i → m.lightTaskIndex.isSome → (s.wf.tasks i).lightTasksNum ≠ 0

instance (i : Nat) (s : Sys) (e : Event) : Decidable (LightNotified i s e) :=
  inferInstanceAs (Decidable (∀ m ∈ s.delivered e, _))

variable {ophAutoRetry}

theorem RetriesCounted.of_terminal (hr : (wf.tasks i).retryNum = n) (ht : (wf.tasks i).status.Terminal) :
    RetriesCounted ophAutoRetry n i wf :=
  ⟨hr, fun hs => absurd hs (ne_unknown_of_terminal ht), fun hu => absurd hu (not_underWay_of_terminal ht)⟩

/-- A step that leaves the counters alone, from a task that is under way to one that is. -/
theorem RetriesCounted.written (h : RetriesCounted ophAutoRetry n i wf) (hc : (wf'.tasks i).counters = (wf.tasks i).counters)
    (ha : wf'.attempts i = wf.attempts i) (hs : (wf'.tasks i).status = .unknown → (wf.tasks i).status = .unknown)
    (hu : wf'.UnderWay i → wf.UnderWay i) : RetriesCounted ophAutoRetry n i wf' := by
  obtain ⟨hr, -, -, -, hl⟩ := Task.counters_eq_iff.mp hc
  refine ⟨hr.trans h.retryNum, fun hs' hn => ?_, fun hu' hn => ?_⟩
  · rw [ha]
    exact (h.waiting (hs hs') (hl ▸ hn)).congr hc
  · rw [ha]
    exact (h.underWay (hu hu') (hl ▸ hn)).congr hc

theorem RetriesCounted.spared (h : RetriesCounted ophAutoRetry n i wf) (hs : Spared False i wf wf') :
    RetriesCounted ophAutoRetry n i wf' := by
  have hc := hs.counters.resolve_left id
  rcases hs.status with hf | hstatus | ht
  · exact hf.elim
  · exact h.written hc hs.attempts (fun hu => hstatus ▸ hu) (underWay_of_status hstatus).mp
  · exact .of_terminal ((Task.counters_eq_iff.mp hc).1.trans h.retryNum) ht

theorem RetriesCounted.attempted (h : RetriesCounted ophAutoRetry n i wf) (ha : Attempted i wf wf')
    (hr : (wf'.tasks i).retryNum = n) : RetriesCounted ophAutoRetry n i wf' := by
  refine ⟨hr, fun hs => absurd hs ha.status, fun _ hn => ?_⟩
  have hc := ha.counters hn
  rw [ha.attempts]
  exact .started (h.waiting ha.waited ((Task.counters_eq_iff.mp hc).2.2.2.2 ▸ hn)) hc

theorem RetriesCounted.refilled (h : RetriesCounted ophAutoRetry n i wf) (hf : Refilled i wf wf') : RetriesCounted ophAutoRetry n i wf' := by
  have hcounters : (wf'.tasks i).counters = (wf.tasks i).freshCounters := congrArg Prod.fst hf.view
  have hstatus : (wf'.tasks i).status = .unknown := congrArg Prod.snd hf.view
  rw [Task.freshCounters, h.retryNum] at hcounters
  refine ⟨congrArg Prod.fst hcounters, fun _ _ => ?_, fun hu => absurd hstatus (ne_unknown_of_underWay hu)⟩
  rw [hf.attempts]
  exact .loaded hcounters

variable (ophAutoRetry)

/-- The notification of the task itself counts as `markAutoRetry` does. -/
theorem notifyTask_counters : ((notifyTask ophAutoRetry env wf m status).wf.tasks m.taskIndex).counters =
    (markAutoRetry ophAutoRetry m.status (wf.tasks m.taskIndex)).1.counters := by
  have hmark (t : Task) (s' : JobStatus) : (markAutoRetry ophAutoRetry m.status { t with status := s' }).1.counters =
      (markAutoRetry ophAutoRetry m.status t).1.counters := by
    unfold markAutoRetry
    split_ifs <;> rfl
  have hset : ((wf.modify m.taskIndex fun _ => (markAutoRetry ophAutoRetry m.status
      { wf.tasks m.taskIndex with status := m.status }).1).tasks m.taskIndex).counters =
        (markAutoRetry ophAutoRetry m.status (wf.tasks m.taskIndex)).1.counters := by
    rw [Workflow.modify_tasks_self, hmark]
  unfold notifyTask
  simp only
  split
  · exact hset
  · split
    · exact hset
    · split
      · rw [raiseStatus_tasks]
        exact hset
      · exact hset

/-- A failed task is executed again with the counters of `Task.retried`, or its status stays. -/
theorem accountRetry_counters (wf : Workflow) (i : Nat) :
    (accountRetry ophAutoRetry wf i).wf.attempts i = wf.attempts i ∧
      ((∃ u, (wf.tasks i).retried ophAutoRetry = some u ∧
          ((accountRetry ophAutoRetry wf i).wf.tasks i).counters = u.counters ∧
          ((accountRetry ophAutoRetry wf i).wf.tasks i).status = .unknown) ∨
        ((accountRetry ophAutoRetry wf i).wf.tasks i).status = (wf.tasks i).status) := by
  have hupdate : (autoRetryUpdate ophAutoRetry (wf.tasks i)).1.status = (wf.tasks i).status := by
    unfold autoRetryUpdate
    split_ifs <;> rfl
  have hcount (t : Task) : t.countRetry.status = t.status := rfl
  unfold accountRetry Task.retried
  simp only [Workflow.modify_tasks_self]
  split
  case isTrue hauto =>
    refine ⟨rfl, .inl ⟨_, rfl, ?_, ?_⟩⟩
    · rw [Workflow.setTaskStatus, Workflow.modify_tasks_self, Workflow.modify_tasks_self]
      rfl
    · rw [Workflow.setTaskStatus, Workflow.modify_tasks_self]
  case isFalse hauto =>
    split
    case isTrue hleft =>
      refine ⟨rfl, .inl ⟨_, rfl, ?_, ?_⟩⟩
      · rw [Workflow.setTaskStatus, Workflow.modify_tasks_self, Workflow.modify_tasks_self, Workflow.modify_tasks_self]
        rfl
      · rw [Workflow.setTaskStatus, Workflow.modify_tasks_self]
    case isFalse hleft =>
      have hend (wf' : Workflow) : Spared False i wf' (wf'.countEnded i) := .countEnded i
      refine ⟨(hend _).attempts, .inr ?_⟩
      rw [Workflow.countEnded, Workflow.record, Workflow.modify_tasks_self, Workflow.modify_tasks_self, hcount, hupdate]

theorem retried_congr {t t' u' : Task} (ht : t'.counters = t.counters) (hu : t'.retried ophAutoRetry = some u') :
    ∃ u, t.retried ophAutoRetry = some u ∧ u'.counters = u.counters := by
  obtain ⟨hr, hres, ha, hm, hl⟩ := Task.counters_eq_iff.mp ht
  have hupdate : (autoRetryUpdate ophAutoRetry t').2 = (autoRetryUpdate ophAutoRetry t).2 ∧
      (autoRetryUpdate ophAutoRetry t').1.counters = (autoRetryUpdate ophAutoRetry t).1.counters := by
    unfold autoRetryUpdate
    rw [hr, hm, ha]
    split_ifs
    · exact ⟨rfl, Task.counters_eq_iff.mpr ⟨rfl, hres, rfl, rfl, hl⟩⟩
    · exact ⟨rfl, Task.counters_eq_iff.mpr ⟨rfl, hres, rfl, rfl, hl⟩⟩
    · exact ⟨rfl, ht⟩
    · exact ⟨rfl, ht⟩
  have hcount {a b : Task} (h : a.counters = b.counters) : a.countRetry.counters = b.countRetry.counters := by
    obtain ⟨hr, hres, ha, hm, hl⟩ := Task.counters_eq_iff.mp h
    simp only [Task.counters, Task.countRetry, hr, hres, ha, hm, hl]
  have hleft := hcount hupdate.2
  unfold Task.retried at hu ⊢
  simp only at hu ⊢
  rw [hupdate.1, (Task.counters_eq_iff.mp hleft).2.1] at hu
  split_ifs at hu ⊢
  · exact ⟨_, rfl, Option.some.inj hu ▸ hupdate.2⟩
  · exact ⟨_, rfl, Option.some.inj hu ▸ hleft⟩

theorem account_lightTasksNum (outputs : List (String × String)) (status : JobStatus) :
    ((account ophAutoRetry env m outputs wf status).wf.tasks i).lightTasksNum = (wf.tasks i).lightTasksNum := by
  have hspared {wf wf' : Workflow} (h : Spared False i wf wf') : (wf'.tasks i).lightTasksNum = (wf.tasks i).lightTasksNum :=
    (Task.counters_eq_iff.mp (h.counters.resolve_left id)).2.2.2.2
  have hskip : Spared False i wf _ := beforeAccount_spared m m.taskIndex wf
  unfold account
  simp only
  split
  · rfl
  · split
    · rfl
    · split
      · exact hspared (hskip.trans (accountCompleted_spared env _ _ outputs))
      · split
        · exact hspared (hskip.trans (accountContinue_spared _ _))
        · split
          · exact hspared hskip
          · refine Eq.trans ?_ (hspared hskip)
            exact (Task.core_eq_iff.mp ((accountRetry_steady ophAutoRetry _ _).task i)).2.2.2.2.2.2.1

/-- No notification makes a task a massive operation. -/
theorem notify_lightTasksNum (wf : Workflow) (m : Notification) :
    ((notify ophAutoRetry env m wf).1.tasks i).lightTasksNum = (wf.tasks i).lightTasksNum := by
  rcases notify_cases ophAutoRetry env wf m with ⟨status, -, -, heq⟩ | ⟨hnone, -⟩
  · have hu : ((updateStatus ophAutoRetry env m wf status).wf.tasks i).lightTasksNum = (wf.tasks i).lightTasksNum :=
      (Task.core_eq_iff.mp ((updateStatus_steady ophAutoRetry env wf m status).task i)).2.2.2.2.2.2.1
    rw [heq]
    unfold settle
    split
    · exact hu
    · split
      · exact hu
      · rw [(conclude_fields env _ _).1, account_lightTasksNum, hu]
  · have hspared : Spared False i wf (notify ophAutoRetry env m wf).1 :=
      notify_spared_of_not_processed ophAutoRetry env hnone
    exact (Task.counters_eq_iff.mp (hspared.counters.resolve_left id)).2.2.2.2

/-- A failed task that may not be executed again stays as it is. -/
theorem Failing.notify_spared (h : Failing ophAutoRetry env m wf status)
    (hr : ¬ (0 < (wf.tasks m.taskIndex).retryNum ∧ (wf.tasks m.taskIndex).residualRetryNum ≠ 0)) :
    Spared False m.taskIndex (Failing.before ophAutoRetry env m wf status) (notify ophAutoRetry env m wf).1 := by
  have hnum : ((Failing.before ophAutoRetry env m wf status).tasks m.taskIndex).retryNum =
      (wf.tasks m.taskIndex).retryNum :=
    (Task.core_eq_iff.mp ((beforeAccount_core _ m _).trans
      ((updateStatus_steady ophAutoRetry env wf m status).task m.taskIndex))).2.2.2.2.2.2.2.1
  have hres := (Failing.before_spared ophAutoRetry env m wf status).residualRetryNum
  have hbefore : (saveResponse (updateStatus ophAutoRetry env m wf status).wf m.taskIndex m.outputJson).modify m.taskIndex
      Task.skip = Failing.before ophAutoRetry env m wf status := rfl
  have hun := updateStatus_unaccounted ophAutoRetry env wf m status
  rcases notify_cases ophAutoRetry env wf m with ⟨s, hs, -, heq⟩ | ⟨hnone, -⟩
  · obtain rfl := Option.some.inj (h.processed.symm.trans hs)
    rw [heq, settle, if_neg (by simp [h.stop]), h.isOver]
    simp only
    refine Spared.trans ?_ (conclude_spared env _ _)
    unfold account
    simp only [hbefore]
    rw [if_neg (by simp [hun.finalTask, h.finalTask]), if_neg (by rw [hun.residualTasksNum]; exact h.residualTasksNum)]
    split
    · exact accountCompleted_spared env _ _ _
    case isFalse hneg =>
      split
      · exact accountContinue_spared _ _
      case isFalse hzero =>
        split
        · exact .refl _ _ _
        case isFalse hleft =>
          rw [hnum] at hneg hzero
          rw [hres] at hleft
          exact absurd ⟨by omega, hleft⟩ hr
  · rw [h.processed] at hnone
    cases hnone

/-- The failure of a task without light tasks. -/
theorem RetriesCounted.failed (h : RetriesCounted ophAutoRetry n m.taskIndex wf)
    (hr : ((notify ophAutoRetry env m wf).1.tasks m.taskIndex).retryNum = n) (hl : m.lightTaskIndex = none)
    (he : m.Expected wf) (hf : Failing ophAutoRetry env m wf status) :
    RetriesCounted ophAutoRetry n m.taskIndex (notify ophAutoRetry env m wf).1 := by
  have hun := hf.underWay ophAutoRetry env he
  have hbefore := Failing.before_spared ophAutoRetry env m wf status
  by_cases hpos : 0 < (wf.tasks m.taskIndex).retryNum ∧ (wf.tasks m.taskIndex).residualRetryNum ≠ 0
  · have hlight : ((notify ophAutoRetry env m wf).1.tasks m.taskIndex).lightTasksNum =
        (wf.tasks m.taskIndex).lightTasksNum := notify_lightTasksNum ophAutoRetry env wf m
    rw [hf.notify_eq hpos.1 hpos.2] at hr hlight ⊢
    obtain ⟨htasks, -, -, htrace⟩ := conclude_fields env m.taskIndex
      (accountRetry ophAutoRetry (Failing.before ophAutoRetry env m wf status) m.taskIndex)
    obtain ⟨hattempts, ⟨u', hu', hcounters, hstatus⟩ | hstatus⟩ :=
      accountRetry_counters ophAutoRetry (Failing.before ophAutoRetry env m wf status) m.taskIndex
    · have hmark : ((Failing.before ophAutoRetry env m wf status).tasks m.taskIndex).counters =
          (markAutoRetry ophAutoRetry m.status (wf.tasks m.taskIndex)).1.counters := by
        have hskip : Spared False m.taskIndex (updateStatus ophAutoRetry env m wf status).wf
            (Failing.before ophAutoRetry env m wf status) := beforeAccount_spared m m.taskIndex _
        rw [hskip.counters.resolve_left id, updateStatus, hl]
        exact notifyTask_counters ophAutoRetry env
      obtain ⟨u, hu, hcu⟩ := retried_congr ophAutoRetry hmark hu'
      have herror : m.status.notified = some .error := by
        have hover := hf.isOver
        rw [updateStatus, hl] at hover
        obtain ⟨hs, -⟩ := (notifyTask_status ophAutoRetry env wf m status).2 _ hover
        exact hs ▸ notified_of_processed hf.processed
      rw [← htasks] at hstatus hcounters
      refine ⟨hr, fun _ hn => ?_, fun hu => absurd hstatus (ne_unknown_of_underWay hu)⟩
      rw [Workflow.attempts, htrace, ← Workflow.attempts, hattempts, hbefore.attempts]
      exact .failed (h.underWay hun (hlight ▸ hn)) m.status herror (h.retryNum ▸ hpos.1) hpos.2 hu (hcounters.trans hcu)
    · refine .of_terminal hr ?_
      rw [htasks, hstatus]
      exact hf.before_terminal
  · refine .of_terminal hr ?_
    rcases (hf.notify_spared ophAutoRetry env hpos).status with hfalse | hs | hs
    · exact hfalse.elim
    · rw [hs]
      exact hf.before_terminal
    · exact hs

/-- A notification of a task without light tasks that is no failure. -/
theorem RetriesCounted.notified (h : RetriesCounted ophAutoRetry n m.taskIndex wf)
    (hr : ((notify ophAutoRetry env m wf).1.tasks m.taskIndex).retryNum = n) (hl : m.lightTaskIndex = none)
    (he : m.Expected wf) (hp : m.processed wf = some status) (hf : ¬ Failing ophAutoRetry env m wf status) :
    RetriesCounted ophAutoRetry n m.taskIndex (notify ophAutoRetry env m wf).1 := by
  have hspared := notify_spared_of_not_failing ophAutoRetry env hp hf
  have hu := updateStatus_rewritten ophAutoRetry env he hp
  by_cases ht : ((updateStatus ophAutoRetry env m wf status).wf.tasks m.taskIndex).status.Terminal
  · refine .of_terminal hr ?_
    rcases hspared.status with hfalse | hs | hs
    · exact hfalse.elim
    · rwa [hs]
    · exact hs
  · obtain ⟨hunder, hne⟩ := hu.status.resolve_left ht
    have hstatus : m.status.notified ≠ some .error := by
      intro herror
      obtain rfl := Option.some.inj ((notified_of_processed hp).symm.trans herror)
      refine ht ?_
      rw [updateStatus, hl]
      simp only
      rw [(notifyTask_status ophAutoRetry env wf m _).1]
      exact terminal_of_notified herror (.inr rfl)
    have hcounters : ((notify ophAutoRetry env m wf).1.tasks m.taskIndex).counters =
        (markAutoRetry ophAutoRetry m.status (wf.tasks m.taskIndex)).1.counters := by
      rw [hspared.counters.resolve_left id, updateStatus, hl]
      exact notifyTask_counters ophAutoRetry env
    have hattempts := hspared.attempts.trans hu.spared.attempts
    refine ⟨hr, fun hs => absurd hs (hspared.ne_unknown hne), fun _ hn => ?_⟩
    rw [hattempts]
    refine .notified (h.underWay hunder ?_) m.status hstatus hcounters
    rwa [notify_lightTasksNum] at hn

theorem step_counted (h : RetriesCounted ophAutoRetry n i s.wf)
    (hr : ((s.step ophAutoRetry e).wf.tasks i).retryNum = n) (he : NotifiedOnce i s e) (hl : LightNotified i s e) :
    RetriesCounted ophAutoRetry n i (s.step ophAutoRetry e).wf := by
  rcases step_kinds ophAutoRetry s e with ⟨m, hm⟩ | ⟨l, hl'⟩ | ⟨p, hp⟩ | hs
  · rw [(step_delivered ophAutoRetry hm).1] at hr ⊢
    rcases eq_or_ne m.taskIndex i with rfl | hi
    · have hexpected := he.1 m hm rfl
      cases hlight : m.lightTaskIndex with
      | some j =>
        have hn : ((notify ophAutoRetry e.notifyEnv m s.wf).1.tasks m.taskIndex).lightTasksNum ≠ 0 := by
          rw [notify_lightTasksNum]
          exact hl m hm rfl (by rw [hlight]; rfl)
        exact ⟨hr, fun _ h0 => absurd h0 hn, fun _ h0 => absurd h0 hn⟩
      | none =>
        cases hp : m.processed s.wf with
        | none => exact h.spared (notify_spared_of_not_processed ophAutoRetry e.notifyEnv hp)
        | some status =>
          by_cases hf : Failing ophAutoRetry e.notifyEnv m s.wf status
          · exact h.failed ophAutoRetry e.notifyEnv hr hlight hexpected hf
          · exact h.notified ophAutoRetry e.notifyEnv hr hlight hexpected hp hf
    · exact h.spared (notify_spared ophAutoRetry e.notifyEnv s.wf hi)
  · obtain ⟨env, hwf⟩ := step_executed ophAutoRetry hl'
    rw [hwf] at hr ⊢
    rcases (execute_attempts ophAutoRetry env l s.wf).2 with hc | hc
    · exact h.spared hc
    · exact h.attempted hc hr
  · have hwf := step_served ophAutoRetry hp
    rw [hwf] at hr ⊢
    rcases serve_attempts p.2 p.1 s.wf with hc | hc | ⟨hw, hc⟩
    · exact h.spared hc
    · exact h.refilled hc
    · exact h.written hc.counters hc.spared.attempts (fun hu => absurd hu hc.status) fun _ => he.2 p hp hw
  · rw [hs]
    exact h

/--
Along every run in which each attempt of task `i` is notified once: whenever the task waits to be executed, or is under
way, its counters are those of as many executions as there have been since the beginning or since its last reset.
-/
theorem executed_of_run {wf₀ : Workflow} (h₀ : wf₀.Submittable) (tasksIndexes : List Nat) (es : List Event)
    (hs : (wf₀.tasks i).status = .unknown) (hm : (wf₀.tasks i).isMarkedForAutoRetry = false)
    (hes : Lib.Along (Sys.step ophAutoRetry) (NotifiedOnce i) (wf₀.submit tasksIndexes) es)
    (hl : Lib.Along (Sys.step ophAutoRetry) (LightNotified i) (wf₀.submit tasksIndexes) es) :
    RetriesCounted ophAutoRetry (wf₀.tasks i).retryNum i ((wf₀.submit tasksIndexes).run ophAutoRetry es).wf := by
  have hfresh := h₀.unsubmitted i
  have h0 : Layout wf₀ (wf₀.submit tasksIndexes).wf ∧
      RetriesCounted ophAutoRetry (wf₀.tasks i).retryNum i (wf₀.submit tasksIndexes).wf := by
    refine ⟨h₀.layout.rigid (.of_tasks rfl rfl rfl), rfl, fun _ _ => .loaded ?_, fun hu => ?_⟩
    · have hcounters : (wf₀.tasks i).counters = ((wf₀.tasks i).retryNum, (wf₀.tasks i).retryNum, 0, false, 0) := by
        simp only [Task.counters, hfresh.residualRetryNum, hfresh.residualAutoRetryNum, hm, hfresh.lightTasksNum]
      exact hcounters
    · exact absurd hs (ne_unknown_of_underWay hu)
  refine ((hes.and hl).run_induct (fun s => Layout wf₀ s.wf ∧
    RetriesCounted ophAutoRetry (wf₀.tasks i).retryNum i s.wf) h0 fun s e hI he => ?_).2
  have hlayout := step_layout h₀ ophAutoRetry e hI.1
  exact ⟨hlayout, step_counted ophAutoRetry hI.2 (hlayout.task i).retryNum he.1 he.2⟩

end Runs

end OphidiaWorkflow
