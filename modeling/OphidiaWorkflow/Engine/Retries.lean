import OphidiaWorkflow.Engine.Attempts
import OphidiaWorkflow.Flow.Iteration

/-!
The retries of a task with `retry_num > 0` that is not marked for auto-retry: each failure that is accounted for uses
one of its attempts, and the task is handed to `oph_workflow_execute` again until none is left.
-/
namespace OphidiaWorkflow

/-- Task `i` is submitted and not over. -/
def Workflow.UnderWay (wf : Workflow) (i : Nat) : Prop :=
  .unknown < (wf.tasks i).status ∧ (wf.tasks i).status < .completed

instance (wf : Workflow) (i : Nat) : Decidable (wf.UnderWay i) := inferInstanceAs (Decidable (_ ∧ _))

/-- The answers given to `oph_workflow_notify` while the event is handled. -/
def Event.notifyEnv : Event → NotifyEnv
  | .handle _ env => env.notify
  | .external _ env => env

/-- The request that an event serves. -/
def Sys.served (s : Sys) : Event → Option (Request × ServeEnv)
  | .external _ _ => none
  | .handle k env =>
    match s.todo[k]? with
    | some (.serve r) => some (r, env.serve)
    | _ => none

/-- The tasks that an event is to execute. -/
def Sys.executed (s : Sys) : Event → Option (List Nat)
  | .external _ _ => none
  | .handle k _ =>
    match s.todo[k]? with
    | some (.execute l) => some l
    | _ => none

/-- Unless it ends an attempt of its task, a notification is processed while an attempt is under way. -/
def Notification.Expected (m : Notification) (wf : Workflow) : Prop :=
  ∀ status ∈ m.processed wf,
    (m.lightTaskIndex = none ∧ (status = .completed ∨ status = .error)) ∨ wf.UnderWay m.taskIndex

instance (m : Notification) (wf : Workflow) : Decidable (m.Expected wf) :=
  inferInstanceAs (Decidable (∀ status ∈ m.processed wf, _))

/--
What comes about task `i`, but for the end of an attempt, comes while an attempt is under way: the notifications of its
progress and of its light tasks, and what a WAIT operator or an input for it does.
-/
def NotifiedOnce (i : Nat) (s : Sys) (e : Event) : Prop :=
  (∀ m ∈ s.delivered e, m.taskIndex = i → m.Expected s.wf) ∧
    ∀ p ∈ s.served e, p.2.writes s.wf p.1 = some i → s.wf.UnderWay i

instance (i : Nat) (s : Sys) (e : Event) : Decidable (NotifiedOnce i s e) := inferInstanceAs (Decidable (_ ∧ _))

/-- The step leaves task `i` unmarked for auto-retry. -/
def Unmarked (ophAutoRetry i : Nat) (s : Sys) (e : Event) : Prop :=
  ((s.step ophAutoRetry e).wf.tasks i).isMarkedForAutoRetry = false

instance (ophAutoRetry i : Nat) (s : Sys) (e : Event) : Decidable (Unmarked ophAutoRetry i s e) :=
  inferInstanceAs (Decidable (_ = _))

/-- The notification tells of a failure of its task, and the failure is accounted for: neither the workflow is over nor
the JSON Response of the task is lost. -/
structure Failing (ophAutoRetry : Nat) (env : NotifyEnv) (m : Notification) (wf : Workflow) (status : JobStatus) :
    Prop where
  processed : m.processed wf = some status
  stop : (updateStatus ophAutoRetry env m wf status).stop = false
  isOver : (updateStatus ophAutoRetry env m wf status).isOver = some .error
  finalTask : wf.finalTask = false
  residualTasksNum : wf.residualTasksNum ≠ 0

/-- A failure of task `i` is accounted for. -/
def Sys.Fails (ophAutoRetry i : Nat) (s : Sys) (e : Event) : Prop :=
  ∃ m ∈ s.delivered e, m.taskIndex = i ∧ ∃ status, Failing ophAutoRetry e.notifyEnv m s.wf status

/-- Task `i` has failed and is to be executed again. -/
def Sys.Waits (i : Nat) (s : Sys) : Prop := (s.wf.tasks i).status = .unknown ∧ 0 < s.wf.attempts i

/--
What a step does to a task with `n` attempts. The branch 'error in handling the retry attempts' is for a task that has
failed and has no attempt left.
-/
structure Sys.Retries (ophAutoRetry n i : Nat) (s : Sys) (e : Event) : Prop where
  left : s.Fails ophAutoRetry i e → 0 < (s.wf.tasks i).residualRetryNum
  again : s.Fails ophAutoRetry i e → s.wf.attempts i < n →
    (s.step ophAutoRetry e).Waits i ∧
      (s.step ophAutoRetry e).wf.residualTasksNum = s.wf.residualTasksNum ∧
      ((s.step ophAutoRetry e).wf.status = s.wf.status ∨ (s.step ophAutoRetry e).wf.status = .running) ∧
      (e.notifyEnv.dbFails = false → .execute [i] ∈ (s.step ophAutoRetry e).todo)
  last : s.Fails ophAutoRetry i e → s.wf.attempts i = n →
    ((s.step ophAutoRetry e).wf.tasks i).status.Terminal ∧
      (s.step ophAutoRetry e).wf.residualTasksNum = s.wf.residualTasksNum - 1 ∧
      (s.step ophAutoRetry e).wf.status = .error
  resumed : ∀ l ∈ s.executed e, i ∈ l → s.wf.status < .completed → s.Waits i → (s.wf.tasks i).residualDepsNum = 0 →
    (s.step ophAutoRetry e).wf.attempts i = s.wf.attempts i + 1 ∨ ((s.step ophAutoRetry e).wf.tasks i).status.Terminal

/--
A retry of task `i` is lost: the OphidiaDB cannot be reached, the workflow is over when the task is to be executed
again, or a flow control operator has the task wait for a dependence again.
-/
def Sys.Loses (ophAutoRetry i : Nat) (s : Sys) (e : Event) : Prop :=
  (s.Fails ophAutoRetry i e ∧ e.notifyEnv.dbFails = true) ∨
    (s.Waits i ∧ ∃ l ∈ s.executed e, i ∈ l ∧ ¬ s.wf.status < .completed) ∨
    ((s.served e).isSome ∧ 0 < (s.step ophAutoRetry e).wf.attempts i ∧ (s.wf.tasks i).residualDepsNum = 0 ∧
      ((s.step ophAutoRetry e).wf.tasks i).residualDepsNum ≠ 0)

/-! ## The invariant -/

/-- The attempts of a task and those it has left, while it waits for one and while one is under way. -/
structure Tried (n i : Nat) (wf : Workflow) : Prop where
  le : wf.attempts i ≤ n
  waiting : (wf.tasks i).status = .unknown →
    0 < (wf.tasks i).residualRetryNum ∧ wf.attempts i + (wf.tasks i).residualRetryNum = n
  underWay : wf.UnderWay i → 0 < wf.attempts i ∧ 0 < (wf.tasks i).residualRetryNum ∧
    wf.attempts i + (wf.tasks i).residualRetryNum = n + 1

/-- Task `i`, which waited, has been executed once more. -/
structure Attempted (i : Nat) (wf wf' : Workflow) : Prop where
  waited : (wf.tasks i).status = .unknown
  status : (wf'.tasks i).status ≠ .unknown
  residualRetryNum : (wf'.tasks i).residualRetryNum = (wf.tasks i).residualRetryNum
  attempts : wf'.attempts i = wf.attempts i + 1
  residualDepsNum : (wf.tasks i).residualDepsNum = 0
  counters : CountersKept i wf wf'

/-- The status of task `i` is written again: the task is over, or it was under way. -/
structure Rewritten (i : Nat) (wf wf' : Workflow) : Prop where
  spared : Spared True i wf wf'
  status : (wf'.tasks i).status.Terminal ∨ (wf.UnderWay i ∧ (wf'.tasks i).status ≠ .unknown)

/-- What a step that accounts for no failure of task `i` may do to it. -/
inductive Moves (i : Nat) (wf wf' : Workflow) : Prop
  | spared (h : Spared False i wf wf')
  | rewritten (h : Rewritten i wf wf')
  | attempted (h : Attempted i wf wf')
  | refilled (h : Refilled i wf wf')

section Invariant

variable {own : Prop} {n i : Nat} {wf wf' : Workflow}

theorem underWay_of_status (h : (wf'.tasks i).status = (wf.tasks i).status) : wf'.UnderWay i ↔ wf.UnderWay i := by
  rw [Workflow.UnderWay, Workflow.UnderWay, h]

theorem not_underWay_of_terminal (h : (wf.tasks i).status.Terminal) : ¬ wf.UnderWay i :=
  fun hu => JobStatus.not_terminal_iff.mpr hu.2 h

theorem ne_unknown_of_underWay (h : wf.UnderWay i) : (wf.tasks i).status ≠ .unknown := by
  intro hs
  rw [Workflow.UnderWay, hs] at h
  exact absurd h.1 (Nat.lt_irrefl _)

theorem ne_unknown_of_terminal (h : (wf.tasks i).status.Terminal) : (wf.tasks i).status ≠ .unknown := by
  intro hs
  rw [hs] at h
  exact absurd h JobStatus.not_terminal_unknown

theorem Tried.of_terminal (h : wf'.attempts i ≤ n) (ht : (wf'.tasks i).status.Terminal) : Tried n i wf' :=
  ⟨h, fun hu => absurd hu (ne_unknown_of_terminal ht), fun hu => absurd hu (not_underWay_of_terminal ht)⟩

theorem Tried.spared (h : Tried n i wf) (hs : Spared False i wf wf') : Tried n i wf' := by
  have hle : wf'.attempts i ≤ n := hs.attempts ▸ h.le
  rcases hs.status with hf | hs' | ht
  · exact hf.elim
  · refine ⟨hle, fun hu => ?_, fun hu => ?_⟩
    · rw [hs.attempts, hs.residualRetryNum]
      exact h.waiting (hs' ▸ hu)
    · rw [hs.attempts, hs.residualRetryNum]
      exact h.underWay ((underWay_of_status hs').mp hu)
  · exact .of_terminal hle ht

theorem Spared.ne_unknown (h : Spared False i wf wf') (hs : (wf.tasks i).status ≠ .unknown) :
    (wf'.tasks i).status ≠ .unknown := by
  rcases h.status with hf | heq | ht
  · exact hf.elim
  · rwa [heq]
  · exact ne_unknown_of_terminal ht

theorem Rewritten.ne_unknown (h : Rewritten i wf wf') : (wf'.tasks i).status ≠ .unknown := by
  rcases h.status with ht | ⟨-, hne⟩
  · exact ne_unknown_of_terminal ht
  · exact hne

theorem Rewritten.trans_spared {wf'' : Workflow} (h : Rewritten i wf wf') (h' : Spared False i wf' wf'') :
    Rewritten i wf wf'' := by
  refine ⟨h.spared.trans (h'.mono False.elim), ?_⟩
  rcases h.status with ht | ⟨hu, hne⟩
  · rcases h'.status with hf | hs | ht'
    · exact hf.elim
    · exact .inl (hs ▸ ht)
    · exact .inl ht'
  · exact .inr ⟨hu, h'.ne_unknown hne⟩

/-- A task does not come to wait for another attempt unless it fails. -/
theorem Moves.waits (h : Moves i wf wf') (hs : (wf'.tasks i).status = .unknown) (ha : 0 < wf'.attempts i) :
    (wf.tasks i).status = .unknown ∧ wf'.attempts i = wf.attempts i := by
  cases h with
  | spared h => exact ⟨by_contra fun hne => h.ne_unknown hne hs, h.attempts⟩
  | rewritten h => exact absurd hs h.ne_unknown
  | attempted h => exact absurd hs h.status
  | refilled h =>
    rw [h.attempts] at ha
    exact absurd ha (Nat.lt_irrefl 0)

theorem Tried.moves (h : Tried n i wf) (hn : 0 < n) (hr : (wf.tasks i).retryNum = n) (hm : Moves i wf wf') :
    Tried n i wf' := by
  cases hm with
  | spared hs => exact h.spared hs
  | rewritten hw =>
    have hle : wf'.attempts i ≤ n := hw.spared.attempts ▸ h.le
    rcases hw.status with ht | ⟨hu, hne⟩
    · exact .of_terminal hle ht
    · refine ⟨hle, fun hu' => absurd hu' hne, fun _ => ?_⟩
      rw [hw.spared.attempts, hw.spared.residualRetryNum]
      exact h.underWay hu
  | attempted ha =>
    obtain ⟨hpos, hsum⟩ := h.waiting ha.waited
    have hattempts := ha.attempts
    have hres := ha.residualRetryNum
    exact ⟨by omega, fun hu => absurd hu ha.status, fun _ => ⟨by omega, by omega, by omega⟩⟩
  | refilled hf =>
    have hres : (wf'.tasks i).residualRetryNum = (wf.tasks i).retryNum := congrArg (fun v => v.1.2.1) hf.view
    have hs : (wf'.tasks i).status = .unknown := congrArg Prod.snd hf.view
    refine ⟨hf.attempts.le.trans (Nat.zero_le n), fun _ => ?_, fun hu => absurd hs (ne_unknown_of_underWay hu)⟩
    rw [hres, hr, hf.attempts]
    omega

end Invariant

/-! ## Execution -/

section Execution

variable {n i : Nat} {wf wf' wf'' : Workflow} (ophAutoRetry : Nat) (env : ExecEnv)

theorem attempts_started (wf : Workflow) (i : Nat) : (wf.record (.started i)).attempts i = wf.attempts i + 1 := by
  have hb : (Entry.reset i == Entry.started i) = false := beq_eq_false_iff_ne.mpr Entry.noConfusion
  refine (Lib.countSince_cons hb).trans ?_
  rw [beq_self_eq_true]
  rfl

theorem Attempted.spared (h : Attempted i wf wf') (h' : Spared False i wf' wf'') : Attempted i wf wf'' :=
  ⟨h.waited, h'.ne_unknown h.status, h'.residualRetryNum.trans h.residualRetryNum, h'.attempts.trans h.attempts,
    h.residualDepsNum, h.counters.trans h'.countersKept⟩

theorem Spared.attempted (h : Spared False i wf wf') (hd : (wf'.tasks i).residualDepsNum = (wf.tasks i).residualDepsNum)
    (h' : Attempted i wf' wf'') : Attempted i wf wf'' := by
  refine ⟨?_, h'.status, h'.residualRetryNum.trans h.residualRetryNum, by rw [h'.attempts, h.attempts],
    hd ▸ h'.residualDepsNum, h.countersKept.trans h'.counters⟩
  by_contra hne
  exact h.ne_unknown hne h'.waited

theorem startTask_attempted (hs : startTest wf i = true) : Attempted i wf (startTask ophAutoRetry env wf i).1 := by
  simp only [startTest, Bool.and_eq_true, decide_eq_true_eq] at hs
  have hspared : Spared (i = i) i (wf.record (.started i)) (startTask ophAutoRetry env wf i).1 :=
    startTask_spared ophAutoRetry env i wf
  exact ⟨hs.2, (startTask_later ophAutoRetry env i wf).2, hspared.residualRetryNum,
    hspared.attempts.trans (attempts_started wf i), hs.1.2, startTask_countersKept ophAutoRetry env wf⟩

/-- What the loop of `oph_workflow_execute` does to task `i`. -/
def AttemptedOr (i : Nat) (wf wf' : Workflow) : Prop :=
  (wf'.tasks i).residualDepsNum = (wf.tasks i).residualDepsNum ∧ (Spared False i wf wf' ∨ Attempted i wf wf')

theorem AttemptedOr.trans (h : AttemptedOr i wf wf') (h' : AttemptedOr i wf' wf'') : AttemptedOr i wf wf'' := by
  obtain ⟨hd, h⟩ := h
  obtain ⟨hd', h'⟩ := h'
  refine ⟨hd'.trans hd, ?_⟩
  rcases h with h | h
  · exact h'.imp h.trans (h.attempted hd)
  · rcases h' with h' | h'
    · exact .inr (h.spared h')
    · exact absurd h'.waited h.status

theorem executeTask_attempts (k : Nat) (wf : Workflow) : AttemptedOr i wf (executeTask ophAutoRetry env wf k).1 := by
  unfold executeTask
  split
  case isTrue hs =>
    have hlayout := (startTask_rigid ophAutoRetry env k wf).task i
    simp only [Task.layout, Prod.mk.injEq] at hlayout
    refine ⟨hlayout.2.2.2.2.1, ?_⟩
    rcases eq_or_ne k i with rfl | hk
    · exact .inr (startTask_attempted ophAutoRetry env hs)
    · have hstart : Spared False i wf (wf.record (.started k)) := .record Entry.noConfusion (by simpa using hk.symm)
      have hspared : Spared (k = i) i (wf.record (.started k)) (startTask ophAutoRetry env wf k).1 :=
        startTask_spared ophAutoRetry env k wf
      exact .inl (hstart.trans (hspared.mono hk))
  · exact ⟨rfl, .inl (.refl False i wf)⟩

theorem executeTasks_attempts (l : List Nat) (wf : Workflow) :
    AttemptedOr i wf (Lib.foldOut (executeTask ophAutoRetry env) l wf).1 := by
  refine Lib.foldOut_induct (fun wf' _ => AttemptedOr i wf wf') ⟨rfl, .inl (.refl False i wf)⟩ fun k _ wf' _ h => ?_
  exact h.trans (executeTask_attempts ophAutoRetry env k wf')

theorem execute_attempts (l : List Nat) (wf : Workflow) : AttemptedOr i wf (execute ophAutoRetry env l wf).1 := by
  unfold execute
  split
  · exact executeTasks_attempts ophAutoRetry env l wf
  · exact ⟨rfl, .inl (.refl False i wf)⟩

theorem AttemptedOr.ne_unknown (h : AttemptedOr i wf wf') (hne : (wf.tasks i).status ≠ .unknown) :
    (wf'.tasks i).status ≠ .unknown := by
  rcases h.2 with h | h
  · exact h.ne_unknown hne
  · exact h.status

/-- A task that waits for no dependence does not wait any longer once the loop has come to it. -/
theorem execute_ne_unknown {l : List Nat} (hi : i ∈ l) (hlt : i < wf.tasksNum) (hs : wf.status < .completed)
    (hd : (wf.tasks i).residualDepsNum = 0) : ((execute ophAutoRetry env l wf).1.tasks i).status ≠ .unknown := by
  obtain ⟨l₁, l₂, rfl⟩ := List.append_of_mem hi
  rw [execute, if_pos (.inl hs), Lib.foldOut_append]
  have hfirst : AttemptedOr i wf (Lib.foldOut (executeTask ophAutoRetry env) l₁ wf).1 :=
    executeTasks_attempts ophAutoRetry env l₁ wf
  have hnum : (Lib.foldOut (executeTask ophAutoRetry env) l₁ wf).1.tasksNum = wf.tasksNum := by
    refine Lib.foldOut_induct (fun (wf' : Workflow) _ => wf'.tasksNum = wf.tasksNum) rfl fun k _ wf' _ h => ?_
    unfold executeTask
    split
    · exact (startTask_rigid ophAutoRetry env k wf').tasksNum.trans h
    · exact h
  generalize (Lib.foldOut (executeTask ophAutoRetry env) l₁ wf).1 = wf₁ at hfirst hnum ⊢
  rw [Lib.foldOut]
  refine (executeTasks_attempts ophAutoRetry env l₂ _).ne_unknown ?_
  rw [executeTask]
  by_cases hu : (wf₁.tasks i).status = .unknown
  · have htest : startTest wf₁ i = true := by
      simp [startTest, hu, hnum, hlt, hfirst.1, hd]
    rw [if_pos htest]
    exact (startTask_attempted ophAutoRetry env htest).status
  · have htest : ¬ startTest wf₁ i = true := by simp [startTest, hu]
    rwa [if_neg htest]

theorem AttemptedOr.moves (h : AttemptedOr i wf wf') : Moves i wf wf' := by
  rcases h.2 with h | h
  · exact .spared h
  · exact .attempted h

end Execution

/-! ## The end of an attempt -/

section Failure

variable {n i : Nat} {wf : Workflow} {m : Notification} {status : JobStatus} (ophAutoRetry : Nat) (env : NotifyEnv)

/-- Nothing is accounted for by the update of a status. -/
structure Unaccounted (wf wf' : Workflow) : Prop where
  residualTasksNum : wf'.residualTasksNum = wf.residualTasksNum
  finalTask : wf'.finalTask = wf.finalTask
  status : wf'.status = wf.status ∨ wf'.status = .running

theorem Unaccounted.trans {wf' wf'' : Workflow} (h : Unaccounted wf wf') (h' : Unaccounted wf' wf'') :
    Unaccounted wf wf'' := by
  refine ⟨h'.residualTasksNum.trans h.residualTasksNum, h'.finalTask.trans h.finalTask, ?_⟩
  rcases h'.status with hs | hs
  · rw [hs]
    exact h.status
  · exact .inr hs

theorem Unaccounted.modify (wf : Workflow) (k : Nat) (f : Task → Task) : Unaccounted wf (wf.modify k f) :=
  ⟨rfl, rfl, .inl rfl⟩

theorem raiseStatus_unaccounted (wf : Workflow) : Unaccounted wf (raiseStatus wf .running) := by
  unfold raiseStatus
  split
  · exact ⟨rfl, rfl, .inr rfl⟩
  · exact ⟨rfl, rfl, .inl rfl⟩

theorem updateStatus_unaccounted (wf : Workflow) (m : Notification) (status : JobStatus) :
    Unaccounted wf (updateStatus ophAutoRetry env m wf status).wf := by
  unfold updateStatus
  split
  case h_1 j _ =>
    have hwrite : Unaccounted wf (writeLight ophAutoRetry wf m j) := by
      unfold writeLight
      split
      · exact (Unaccounted.modify wf _ _).trans
          (((Unaccounted.modify _ _ _).trans (.modify _ _ _)).trans (raiseStatus_unaccounted _))
      · exact .modify wf _ _
    have hover (wf : Workflow) : Unaccounted wf (lightOver wf m.taskIndex j status m.outputs).wf := by
      unfold lightOver
      split
      · exact ⟨rfl, rfl, .inl rfl⟩
      · simp only
        split
        · exact ⟨rfl, rfl, .inl rfl⟩
        · exact ⟨rfl, rfl, .inl rfl⟩
    unfold notifyLight
    simp only
    split
    · exact hwrite
    · split
      · exact hwrite.trans (hover _)
      · split
        · exact hwrite.trans ((Unaccounted.modify _ _ _).trans (raiseStatus_unaccounted _))
        · exact hwrite
  · have hset : Unaccounted wf (wf.modify m.taskIndex fun _ =>
        (markAutoRetry ophAutoRetry m.status { wf.tasks m.taskIndex with status := m.status }).1) := .modify wf _ _
    unfold notifyTask
    simp only
    split
    · exact hset
    · split
      · exact hset
      · split
        · exact hset.trans (raiseStatus_unaccounted _)
        · exact hset

/-- The status of a task becomes that of its notification. -/
theorem notifyTask_status (wf : Workflow) (m : Notification) (status : JobStatus) :
    ((notifyTask ophAutoRetry env wf m status).wf.tasks m.taskIndex).status = m.status ∧
      ∀ s, (notifyTask ophAutoRetry env wf m status).isOver = some s →
        s = status ∧ (status = .completed ∨ status = .error) := by
  have hset : ((wf.modify m.taskIndex fun _ => (markAutoRetry ophAutoRetry m.status
      { wf.tasks m.taskIndex with status := m.status }).1).tasks m.taskIndex).status = m.status := by
    rw [Workflow.modify_tasks_self, markAutoRetry_status]
  unfold notifyTask
  simp only
  split
  · exact ⟨hset, nofun⟩
  · split
    case isTrue hover => exact ⟨hset, fun s hs => ⟨(Option.some.inj hs).symm, hover⟩⟩
    · split
      · refine ⟨?_, nofun⟩
        rw [raiseStatus_tasks]
        exact hset
      · exact ⟨hset, nofun⟩

theorem toRunning_status (t : Task) : t.toRunning.status = t.status ∨ t.toRunning.status = .running := by
  unfold Task.toRunning
  split
  · exact .inr rfl
  · exact .inl rfl

/-- The status of a task whose light task is notified: the task is over with the last of them. -/
theorem notifyLight_status (wf : Workflow) (m : Notification) (j : Nat) (status : JobStatus) :
    ((notifyLight ophAutoRetry env wf m j status).isOver = none ∧
      (((notifyLight ophAutoRetry env wf m j status).wf.tasks m.taskIndex).status = (wf.tasks m.taskIndex).status ∨
        ((notifyLight ophAutoRetry env wf m j status).wf.tasks m.taskIndex).status = .running)) ∨
    ∃ s, (notifyLight ophAutoRetry env wf m j status).isOver = some s ∧ (s = .completed ∨ s = .error) ∧
      ((notifyLight ophAutoRetry env wf m j status).wf.tasks m.taskIndex).status = s := by
  have hwrite : ((writeLight ophAutoRetry wf m j).tasks m.taskIndex).status = (wf.tasks m.taskIndex).status ∨
      ((writeLight ophAutoRetry wf m j).tasks m.taskIndex).status = .running := by
    have hlight (f : LightTask → LightTask) :
        ((wf.modify m.taskIndex fun t => t.modifyLight j f).tasks m.taskIndex).status =
          (wf.tasks m.taskIndex).status := by
      rw [Workflow.modify_tasks_self]
      rfl
    have hmark (t : Task) : (t.markForAutoRetry ophAutoRetry).status = t.status := by
      unfold Task.markForAutoRetry
      split <;> rfl
    unfold writeLight
    split
    · rw [lightStartError, raiseStatus_tasks, Workflow.modify_tasks_self, Workflow.modify_tasks_self]
      rcases toRunning_status (((wf.modify m.taskIndex fun t => t.modifyLight j fun l =>
        { l with status := m.status }).tasks m.taskIndex).markForAutoRetry ophAutoRetry) with h | h
      · exact .inl (h.trans ((hmark _).trans (hlight _)))
      · exact .inr h
    · exact .inl (hlight _)
  unfold notifyLight
  simp only
  generalize writeLight ophAutoRetry wf m j = wf₁ at hwrite ⊢
  split
  · exact .inl ⟨rfl, hwrite⟩
  · split
    · unfold lightOver
      split
      · exact .inl ⟨rfl, hwrite⟩
      · simp only
        split
        · refine .inr ⟨_, rfl, ?_, ?_⟩
          · split
            · exact .inl rfl
            · exact .inr rfl
          · rw [Workflow.setTaskStatus, Workflow.modify_tasks_self]
        · refine .inl ⟨rfl, ?_⟩
          rw [Workflow.record, Workflow.modify_tasks_self]
          exact hwrite
    · split
      · refine .inl ⟨rfl, ?_⟩
        rw [raiseStatus_tasks, Workflow.modify_tasks_self]
        rcases toRunning_status (wf₁.tasks m.taskIndex) with h | h
        · rw [h]
          exact hwrite
        · exact .inr h
      · exact .inl ⟨rfl, hwrite⟩

theorem accountRetry_isMarked (wf : Workflow) (i : Nat) :
    ((accountRetry ophAutoRetry wf i).wf.tasks i).isMarkedForAutoRetry = (wf.tasks i).isMarkedForAutoRetry := by
  have hauto : (autoRetryUpdate ophAutoRetry (wf.tasks i)).1.isMarkedForAutoRetry =
      (wf.tasks i).isMarkedForAutoRetry := by
    unfold autoRetryUpdate
    split_ifs <;> rfl
  unfold accountRetry
  simp only
  split_ifs
  · rw [Workflow.setTaskStatus, Workflow.modify_tasks_self, Workflow.modify_tasks_self]
    exact hauto
  · rw [Workflow.setTaskStatus, Workflow.modify_tasks_self, Workflow.modify_tasks_self, Workflow.modify_tasks_self]
    exact hauto
  · rw [Workflow.countEnded, Workflow.record, Workflow.modify_tasks_self, Workflow.modify_tasks_self]
    exact hauto

/-- A task that is not marked for auto-retry uses one of its attempts. -/
theorem accountRetry_eq (h : (wf.tasks i).isMarkedForAutoRetry = false) : accountRetry ophAutoRetry wf i =
    if (wf.tasks i).residualRetryNum ≠ 1 then
      { wf := (wf.modify i Task.countRetry).setTaskStatus i .unknown, retry := true }
    else
      { wf := { (wf.modify i Task.countRetry).countEnded i with status := .error },
        final := !activeTask { (wf.modify i Task.countRetry).countEnded i with status := .error } } := by
  have hauto : autoRetryUpdate ophAutoRetry (wf.tasks i) = (wf.tasks i, false) := by
    rw [autoRetryUpdate, if_neg (by simp [h])]
  have hsame : (wf.modify i fun _ => wf.tasks i) = wf := by
    rw [Workflow.modify, Function.update_eq_self]
  have hleft : ((wf.modify i Task.countRetry).tasks i).residualRetryNum ≠ 0 ↔ (wf.tasks i).residualRetryNum ≠ 1 := by
    rw [Workflow.modify_tasks_self]
    exact not_congr sub_eq_zero
  unfold accountRetry
  rw [hauto]
  simp only [hsame, Bool.false_eq_true, if_false, hleft]

/-- The workflow when the failure of a task is accounted for. -/
def Workflow.beforeAccount (wf : Workflow) (m : Notification) : Workflow :=
  (saveResponse wf m.taskIndex m.outputJson).modify m.taskIndex Task.skip

theorem beforeAccount_unaccounted (wf : Workflow) (m : Notification) : Unaccounted wf (wf.beforeAccount m) := by
  unfold Workflow.beforeAccount saveResponse
  split
  · exact (Unaccounted.modify wf _ _).trans (.modify _ _ _)
  · exact .modify wf _ _

theorem beforeAccount_core (wf : Workflow) (m : Notification) (k : Nat) :
    ((wf.beforeAccount m).tasks k).core = (wf.tasks k).core :=
  ((saveResponse_steady wf m.taskIndex m.outputJson).trans (.modify (skip_core _))).task k

theorem account_error_eq (outputs : List (String × String)) (hf : wf.finalTask = false) (ht : wf.residualTasksNum ≠ 0)
    (hr : 0 < (wf.tasks m.taskIndex).retryNum) (hres : (wf.tasks m.taskIndex).residualRetryNum ≠ 0) :
    account ophAutoRetry env m outputs wf .error = accountRetry ophAutoRetry (wf.beforeAccount m) m.taskIndex := by
  have hcore := (Task.core_eq_iff.mp (beforeAccount_core wf m m.taskIndex)).2.2.2.2.2.2.2.1
  have hspared : Spared False m.taskIndex wf (wf.beforeAccount m) := beforeAccount_spared m m.taskIndex wf
  have hbefore : (saveResponse wf m.taskIndex m.outputJson).modify m.taskIndex Task.skip = wf.beforeAccount m := rfl
  unfold account
  simp only [hbefore]
  rw [if_neg (by simp [hf]), if_neg ht, if_neg (by rw [hcore]; simp; omega), if_neg (by rw [hcore]; omega),
    if_neg (by rw [hspared.residualRetryNum]; exact hres)]

theorem conclude_fields (k : Nat) (v : Verdict) :
    (conclude env k v).1.tasks = v.wf.tasks ∧ (conclude env k v).1.residualTasksNum = v.wf.residualTasksNum ∧
      (conclude env k v).1.status = v.wf.status ∧ (conclude env k v).1.trace = v.wf.trace := by
  unfold conclude finalise
  split_ifs
  all_goals exact ⟨rfl, rfl, rfl, rfl⟩

/-- A task with attempts left fails, and it is not marked for auto-retry afterwards. -/
structure Failing.Limited (h : Failing ophAutoRetry env m wf status) : Prop where
  retryNum : 0 < (wf.tasks m.taskIndex).retryNum
  residualRetryNum : 0 < (wf.tasks m.taskIndex).residualRetryNum
  unmarked : ((notify ophAutoRetry env m wf).1.tasks m.taskIndex).isMarkedForAutoRetry = false

namespace Failing

/-- The workflow when the failure is accounted for. -/
def before (ophAutoRetry : Nat) (env : NotifyEnv) (m : Notification) (wf : Workflow) (status : JobStatus) : Workflow :=
  (updateStatus ophAutoRetry env m wf status).wf.beforeAccount m

theorem before_spared (m : Notification) (wf : Workflow) (status : JobStatus) :
    Spared True m.taskIndex wf (before ophAutoRetry env m wf status) := by
  have hspared : Spared (m.taskIndex = m.taskIndex) m.taskIndex wf (updateStatus ophAutoRetry env m wf status).wf :=
    updateStatus_spared ophAutoRetry env m wf status
  exact (hspared.mono fun _ => trivial).trans (beforeAccount_spared m m.taskIndex _)

theorem before_unaccounted (m : Notification) (wf : Workflow) (status : JobStatus) :
    Unaccounted wf (before ophAutoRetry env m wf status) :=
  (updateStatus_unaccounted ophAutoRetry env wf m status).trans (beforeAccount_unaccounted _ m)

variable {ophAutoRetry env} (h : Failing ophAutoRetry env m wf status)
include h

theorem before_terminal : ((before ophAutoRetry env m wf status).tasks m.taskIndex).status.Terminal := by
  have hterm : ((updateStatus ophAutoRetry env m wf status).wf.tasks m.taskIndex).status.Terminal := by
    have hover := h.isOver
    unfold updateStatus at hover ⊢
    split at hover
    case h_1 j _ =>
      rcases notifyLight_status ophAutoRetry env wf m j status with ⟨hnone, -⟩ | ⟨s, hs, -, hstatus⟩
      · rw [hnone] at hover
        cases hover
      · rw [hstatus, Option.some.inj (hs.symm.trans hover)]
        decide
    · obtain ⟨hstatus, hall⟩ := notifyTask_status ophAutoRetry env wf m status
      rw [hstatus]
      exact terminal_of_notified (notified_of_processed h.processed) (hall _ hover).2
  have hspared : Spared False m.taskIndex (updateStatus ophAutoRetry env m wf status).wf
      (before ophAutoRetry env m wf status) := beforeAccount_spared m m.taskIndex _
  rcases hspared.status with hf | hs | ht
  · exact hf.elim
  · rwa [hs]
  · exact ht

theorem notify_eq (hr : 0 < (wf.tasks m.taskIndex).retryNum)
    (hres : (wf.tasks m.taskIndex).residualRetryNum ≠ 0) : notify ophAutoRetry env m wf = conclude env m.taskIndex
    (accountRetry ophAutoRetry (before ophAutoRetry env m wf status) m.taskIndex) := by
  have hun := updateStatus_unaccounted ophAutoRetry env wf m status
  have hspared : Spared (m.taskIndex = m.taskIndex) m.taskIndex wf (updateStatus ophAutoRetry env m wf status).wf :=
    updateStatus_spared ophAutoRetry env m wf status
  have hretry := (Task.core_eq_iff.mp ((updateStatus_steady ophAutoRetry env wf m status).task
    m.taskIndex)).2.2.2.2.2.2.2.1
  rcases notify_cases ophAutoRetry env wf m with ⟨s, hs, -, heq⟩ | ⟨hnone, -⟩
  · obtain rfl := Option.some.inj (h.processed.symm.trans hs)
    rw [heq, settle, if_neg (by simp [h.stop]), h.isOver]
    simp only
    rw [account_error_eq ophAutoRetry env _ (hun.finalTask.trans h.finalTask)
      (by rw [hun.residualTasksNum]; exact h.residualTasksNum) (by rw [hretry]; exact hr)
      (by rw [hspared.residualRetryNum]; exact hres)]
    rfl
  · rw [h.processed] at hnone
    cases hnone

theorem before_isMarked (hl : h.Limited) :
    ((before ophAutoRetry env m wf status).tasks m.taskIndex).isMarkedForAutoRetry = false := by
  have hmark := hl.unmarked
  rwa [h.notify_eq hl.retryNum hl.residualRetryNum.ne', (conclude_fields env _ _).1, accountRetry_isMarked] at hmark

/-- The task waits for another attempt. -/
theorem again (hl : h.Limited) (hr : (wf.tasks m.taskIndex).residualRetryNum ≠ 1) :
    notify ophAutoRetry env m wf = (((before ophAutoRetry env m wf status).modify m.taskIndex
      Task.countRetry).setTaskStatus m.taskIndex .unknown, if env.dbFails then [] else [.execute [m.taskIndex]]) := by
  have hres := (before_spared ophAutoRetry env m wf status).residualRetryNum
  rw [h.notify_eq hl.retryNum hl.residualRetryNum.ne', accountRetry_eq ophAutoRetry (h.before_isMarked hl), if_pos (by rw [hres]; exact hr), conclude]
  simp only [Bool.false_eq_true, if_false, if_true]
  split <;> rfl

/-- The task has failed, and the workflow with it. -/
theorem last (hl : h.Limited) (hr : (wf.tasks m.taskIndex).residualRetryNum = 1) :
    (notify ophAutoRetry env m wf).1.tasks =
        ((before ophAutoRetry env m wf status).modify m.taskIndex Task.countRetry).tasks ∧
      (notify ophAutoRetry env m wf).1.residualTasksNum = wf.residualTasksNum - 1 ∧
      (notify ophAutoRetry env m wf).1.status = .error ∧
      (notify ophAutoRetry env m wf).1.trace = .ended m.taskIndex :: (before ophAutoRetry env m wf status).trace := by
  have hres := (before_spared ophAutoRetry env m wf status).residualRetryNum
  have hun := before_unaccounted ophAutoRetry env m wf status
  rw [h.notify_eq hl.retryNum hl.residualRetryNum.ne', accountRetry_eq ophAutoRetry (h.before_isMarked hl), if_neg (by rw [hres]; exact not_not.mpr hr)]
  obtain ⟨htasks, hnum, hstatus, htrace⟩ := conclude_fields env m.taskIndex _
  rw [htasks, hnum, hstatus, htrace]
  refine ⟨rfl, ?_, rfl, rfl⟩
  exact congrArg (fun r => r - 1) hun.residualTasksNum

end Failing

/-- An error is processed only while an attempt is under way. -/
theorem underWay_of_error (hl : m.lightTaskIndex = none) (hp : m.processed wf = some .error) :
    wf.UnderWay m.taskIndex := by
  unfold Notification.processed at hp
  split at hp
  · cases hp
  · split at hp
    · cases hp
    case isFalse hpass =>
      obtain rfl := Option.some.inj hp
      simp only [not_or, not_and, targetStatus, hl] at hpass
      obtain ⟨hne, hlt⟩ := hpass.2.2.2 trivial
      refine ⟨?_, Nat.not_le.mp hlt⟩
      cases hs : (wf.tasks m.taskIndex).status
      case unknown => exact absurd hs hne
      all_goals decide

theorem Failing.underWay (h : Failing ophAutoRetry env m wf status) (he : m.Expected wf) : wf.UnderWay m.taskIndex := by
  rcases he status h.processed with ⟨hl, -⟩ | hu
  · have hover := h.isOver
    rw [updateStatus, hl] at hover
    obtain ⟨hs, -⟩ := (notifyTask_status ophAutoRetry env wf m status).2 _ hover
    exact underWay_of_error hl (hs ▸ h.processed)
  · exact hu

theorem updateStatus_rewritten (he : m.Expected wf) (hp : m.processed wf = some status) :
    Rewritten m.taskIndex wf (updateStatus ophAutoRetry env m wf status).wf := by
  have hspared : Spared (m.taskIndex = m.taskIndex) m.taskIndex wf (updateStatus ophAutoRetry env m wf status).wf :=
    updateStatus_spared ophAutoRetry env m wf status
  have hn := notified_of_processed hp
  rcases he status hp with ⟨hl, hover⟩ | hu
  · refine ⟨hspared.mono fun _ => trivial, .inl ?_⟩
    have hstatus := (notifyTask_status ophAutoRetry env wf m status).1
    rw [updateStatus, hl]
    simp only
    rw [hstatus]
    exact terminal_of_notified hn hover
  · refine ⟨hspared.mono fun _ => trivial, .inr ⟨hu, ?_⟩⟩
    unfold updateStatus
    split
    case h_1 j _ =>
      rcases notifyLight_status ophAutoRetry env wf m j status with ⟨-, hs | hs⟩ | ⟨s, -, hs | hs, hstatus⟩
      · rw [hs]
        exact ne_unknown_of_underWay hu
      · rw [hs]
        exact JobStatus.noConfusion
      · rw [hstatus, hs]
        exact JobStatus.noConfusion
      · rw [hstatus, hs]
        exact JobStatus.noConfusion
    · rw [(notifyTask_status ophAutoRetry env wf m status).1]
      exact ne_unknown_of_notified hn

theorem Failing.limited (h : Failing ophAutoRetry env m wf status) (ht : Tried n m.taskIndex wf) (he : m.Expected wf)
    (hr : 0 < (wf.tasks m.taskIndex).retryNum)
    (hmark : ((notify ophAutoRetry env m wf).1.tasks m.taskIndex).isMarkedForAutoRetry = false) : h.Limited :=
  ⟨hr, (ht.underWay (h.underWay ophAutoRetry env he)).2.1, hmark⟩

theorem Failing.attempts_eq (h : Failing ophAutoRetry env m wf status) (hl : h.Limited) :
    (notify ophAutoRetry env m wf).1.attempts m.taskIndex = wf.attempts m.taskIndex := by
  have hattempts := (Failing.before_spared ophAutoRetry env m wf status).attempts
  by_cases hr : (wf.tasks m.taskIndex).residualRetryNum = 1
  · have hend : Spared False m.taskIndex (Failing.before ophAutoRetry env m wf status)
        ((Failing.before ophAutoRetry env m wf status).record (.ended m.taskIndex)) :=
      .record Entry.noConfusion Entry.noConfusion
    have hcount : (notify ophAutoRetry env m wf).1.attempts m.taskIndex =
        ((Failing.before ophAutoRetry env m wf status).record (.ended m.taskIndex)).attempts m.taskIndex := by
      rw [Workflow.attempts, (h.last hl hr).2.2.2]
      rfl
    rw [hcount, hend.attempts, hattempts]
  · rw [h.again hl hr]
    exact hattempts

theorem Failing.tried (h : Failing ophAutoRetry env m wf status) (ht : Tried n m.taskIndex wf) (he : m.Expected wf)
    (hl : h.Limited) : Tried n m.taskIndex (notify ophAutoRetry env m wf).1 := by
  obtain ⟨-, hpos, hsum⟩ := ht.underWay (h.underWay ophAutoRetry env he)
  have hattempts := h.attempts_eq ophAutoRetry env hl
  by_cases hr : (wf.tasks m.taskIndex).residualRetryNum = 1
  · refine .of_terminal (hattempts.le.trans ht.le) ?_
    rw [(h.last hl hr).1, Workflow.modify_tasks_self]
    exact h.before_terminal
  · have hleft : ((notify ophAutoRetry env m wf).1.tasks m.taskIndex).residualRetryNum =
        (wf.tasks m.taskIndex).residualRetryNum - 1 := by
      rw [h.again hl hr, ← (Failing.before_spared ophAutoRetry env m wf status).residualRetryNum]
      simp only [Workflow.setTaskStatus, Workflow.modify_tasks_self]
      rfl
    have hstatus : ((notify ophAutoRetry env m wf).1.tasks m.taskIndex).status = .unknown := by
      rw [h.again hl hr, Workflow.setTaskStatus, Workflow.modify_tasks_self]
    refine ⟨hattempts.le.trans ht.le, fun _ => ?_, fun hu => absurd hstatus (ne_unknown_of_underWay hu)⟩
    rw [hattempts, hleft]
    omega

/-- A task that is over without a failure to be accounted for. -/
theorem account_spared_of_not_failing {s : JobStatus} {outputs : List (String × String)}
    (hp : m.processed wf = some status) (hstop : ¬ (updateStatus ophAutoRetry env m wf status).stop = true)
    (hover : (updateStatus ophAutoRetry env m wf status).isOver = some s)
    (hf : ¬ Failing ophAutoRetry env m wf status) :
    Spared False m.taskIndex (updateStatus ophAutoRetry env m wf status).wf
      (account ophAutoRetry env m outputs (updateStatus ophAutoRetry env m wf status).wf s).wf := by
  have hun := updateStatus_unaccounted ophAutoRetry env wf m status
  have hcases : s = .completed ∨ s = .error := by
    unfold updateStatus at hover
    split at hover
    case h_1 j _ =>
      rcases notifyLight_status ophAutoRetry env wf m j status with ⟨hnone, -⟩ | ⟨s', hs, hcases, -⟩
      · rw [hnone] at hover
        cases hover
      · rwa [Option.some.inj (hover.symm.trans hs)]
    · obtain ⟨rfl, hcases⟩ := (notifyTask_status ophAutoRetry env wf m status).2 _ hover
      exact hcases
  unfold account
  simp only
  split
  · exact .refl _ _ _
  case isFalse hfinal =>
    split
    · exact .refl _ _ _
    case isFalse hnum =>
      rcases hcases with rfl | rfl
      · rw [if_pos (.inl rfl)]
        exact (beforeAccount_spared m m.taskIndex _).trans (accountCompleted_spared env _ _ outputs)
      · refine absurd ⟨hp, Bool.eq_false_iff.mpr hstop, hover, ?_, ?_⟩ hf
        · exact hun.finalTask ▸ Bool.eq_false_iff.mpr hfinal
        · exact hun.residualTasksNum ▸ hnum

/-- Apart from the update of a status. -/
theorem notify_spared_of_not_failing (hp : m.processed wf = some status)
    (hf : ¬ Failing ophAutoRetry env m wf status) :
    Spared False m.taskIndex (updateStatus ophAutoRetry env m wf status).wf (notify ophAutoRetry env m wf).1 := by
  rcases notify_cases ophAutoRetry env wf m with ⟨s, hs, -, heq⟩ | ⟨hnone, -⟩
  · obtain rfl := Option.some.inj (hp.symm.trans hs)
    rw [heq]
    unfold settle
    split
    · exact .refl _ _ _
    case isFalse hstop =>
      split
      · exact .refl _ _ _
      case h_2 s hover =>
        exact (account_spared_of_not_failing ophAutoRetry env hp hstop hover hf).trans (conclude_spared env _ _)
  · rw [hp] at hnone
    cases hnone

theorem notify_cases_of_not_failing (he : m.Expected wf) (hf : ∀ status, ¬ Failing ophAutoRetry env m wf status) :
    Spared False m.taskIndex wf (notify ophAutoRetry env m wf).1 ∨
      Rewritten m.taskIndex wf (notify ophAutoRetry env m wf).1 := by
  cases hp : m.processed wf with
  | none => exact .inl (notify_spared_of_not_processed ophAutoRetry env hp)
  | some status =>
    have hu := updateStatus_rewritten ophAutoRetry env he hp
    exact .inr (hu.trans_spared (notify_spared_of_not_failing ophAutoRetry env hp (hf status)))

end Failure

/-! ## The dependences of a task that has been executed -/

section Dependences

variable {i : Nat} {wf wf' wf'' : Workflow} (ophAutoRetry : Nat) (env : NotifyEnv)

/-- If task `i` waits for no dependence, it does not come to wait for one. -/
def StaysReady (i : Nat) (wf wf' : Workflow) : Prop :=
  (wf.tasks i).residualDepsNum = 0 → (wf'.tasks i).residualDepsNum = 0

theorem StaysReady.trans (h : StaysReady i wf wf') (h' : StaysReady i wf' wf'') : StaysReady i wf wf'' :=
  fun hd => h' (h hd)

theorem Rigid.staysReady (h : Rigid wf wf') : StaysReady i wf wf' := by
  have hlayout := h.task i
  simp only [Task.layout, Prod.mk.injEq] at hlayout
  exact fun hd => hlayout.2.2.2.2.1.trans hd

theorem Steady.staysReady (h : Steady wf wf') : StaysReady i wf wf' := h.rigid.staysReady

theorem satisfyDep_staysReady (src dst : Nat) (st : DepLoop) (j : Nat) :
    StaysReady i st.wf (satisfyDep src dst st j).1.wf := by
  have hfeed : StaysReady i st.wf (feedArgument src dst ((st.wf.tasks dst).deps.getD j default) st).wf :=
    (feedArgument_rigid src dst _ st).staysReady
  unfold satisfyDep
  simp only
  split
  · exact id
  · split
    · exact hfeed
    · split
      · exact hfeed
      · split
        · exact hfeed.trans id
        case isFalse hres =>
          refine hfeed.trans fun hd => ?_
          rcases eq_or_ne i dst with rfl | hi
          · exact absurd hd hres
          · simpa only [Workflow.modify_tasks_ne _ _ hi] using hd

theorem releaseDependents_staysReady (wf : Workflow) (src : Nat) : StaysReady i wf (releaseDependents wf src).wf := by
  unfold releaseDependents
  refine Lib.foldWhile_induct (fun st : DepLoop => StaysReady i wf st.wf) id fun dst _ st h => ?_
  unfold satisfyDeps
  split
  · refine Lib.foldWhile_induct (fun st : DepLoop => StaysReady i wf st.wf) h fun j _ st' h' => ?_
    exact h'.trans (satisfyDep_staysReady src dst st' j)
  · exact h

theorem accountCompleted_staysReady (k : Nat) (wf : Workflow) (outputs : List (String × String)) :
    StaysReady i wf (accountCompleted env wf k outputs).wf := by
  have hcount : StaysReady i wf (((wf.modify k Task.unselect).countEnded k).record (.completed k)) :=
    ((Steady.modify (unselect_core _)).trans (Steady.countEnded k)).staysReady
  have hrel (wf' : Workflow) : StaysReady i wf' (releaseDependents (wf'.modify k (Task.takeOutputs outputs)) k).wf :=
    (Steady.staysReady (.modify (takeOutputs_core outputs _))).trans (releaseDependents_staysReady _ k)
  have hexit (wf' : Workflow) : StaysReady i wf' (addExitObject env wf') := id
  unfold accountCompleted
  simp only
  split
  · exact hcount
  · split
    · exact hcount.trans (hrel _)
    · exact (hcount.trans (hrel _)).trans ((hexit _).trans (checkEnd_steady _).staysReady)

theorem account_staysReady (m : Notification) (outputs : List (String × String)) (wf : Workflow) (s : JobStatus) :
    StaysReady i wf (account ophAutoRetry env m outputs wf s).wf := by
  have hskip : StaysReady i wf ((saveResponse wf m.taskIndex m.outputJson).modify m.taskIndex Task.skip) :=
    ((saveResponse_steady wf m.taskIndex m.outputJson).trans (.modify (skip_core _))).staysReady
  unfold account
  simp only
  split
  · exact id
  · split
    · exact id
    · split
      · exact hskip.trans (accountCompleted_staysReady env _ _ outputs)
      · split
        · exact hskip.trans (accountContinue_steady _ _).staysReady
        · split
          · exact hskip
          · exact hskip.trans (accountRetry_steady ophAutoRetry _ _).staysReady

theorem notify_staysReady (m : Notification) (wf : Workflow) : StaysReady i wf (notify ophAutoRetry env m wf).1 := by
  rcases notify_cases ophAutoRetry env wf m with ⟨status, -, -, heq⟩ | ⟨hnone, -⟩
  · have hu : StaysReady i wf (updateStatus ophAutoRetry env m wf status).wf :=
      (updateStatus_steady ophAutoRetry env wf m status).staysReady
    rw [heq]
    unfold settle
    split
    · exact hu
    · split
      · exact hu
      · exact hu.trans ((account_staysReady ophAutoRetry env m _ _ _).trans (conclude_steady env _ _).staysReady)
  · obtain ⟨-, hwf | ⟨s, hwf⟩ | hwf⟩ := notify_of_not_processed ophAutoRetry env hnone
    · rw [hwf]
      exact id
    · rw [hwf]
      exact (internalResponse_steady wf m s).staysReady
    · rw [hwf]
      exact id

end Dependences

/-! ## Runs -/

section Steps

variable {n i : Nat} {s : Sys} {e : Event} {m : Notification} (ophAutoRetry : Nat)

theorem step_delivered (h : s.delivered e = some m) :
    (s.step ophAutoRetry e).wf = (notify ophAutoRetry e.notifyEnv m s.wf).1 ∧
      ∃ rest, (s.step ophAutoRetry e).todo = rest ++ (notify ophAutoRetry e.notifyEnv m s.wf).2 := by
  cases e with
  | external m' env =>
    cases h
    exact ⟨rfl, s.todo, rfl⟩
  | handle k env =>
    cases hk : s.todo[k]? with
    | none => simp [Sys.delivered, hk] at h
    | some t =>
      rw [Sys.step_handle_some ophAutoRetry hk]
      cases t with
      | execute l => simp [Sys.delivered, hk] at h
      | serve r => simp [Sys.delivered, hk] at h
      | special m' =>
        obtain rfl : m' = m := by simpa [Sys.delivered, hk] using h
        exact ⟨rfl, s.todo.eraseIdx k, rfl⟩
      | notify m' =>
        obtain rfl : m' = m := by simpa [Sys.delivered, hk] using h
        exact ⟨rfl, s.todo.eraseIdx k, rfl⟩

theorem step_executed {l : List Nat} (h : s.executed e = some l) :
    ∃ env, (s.step ophAutoRetry e).wf = (execute ophAutoRetry env l s.wf).1 := by
  cases e with
  | external m env => cases h
  | handle k env =>
    cases hk : s.todo[k]? with
    | none => simp [Sys.executed, hk] at h
    | some t =>
      rw [Sys.step_handle_some ophAutoRetry hk]
      cases t with
      | execute l' =>
        obtain rfl : l' = l := by simpa [Sys.executed, hk] using h
        exact ⟨env.exec, rfl⟩
      | _ => simp [Sys.executed, hk] at h

theorem step_served {p : Request × ServeEnv} (h : s.served e = some p) :
    (s.step ophAutoRetry e).wf = (serve p.2 p.1 s.wf).1 := by
  cases e with
  | external m env => cases h
  | handle k env =>
    cases hk : s.todo[k]? with
    | none => simp [Sys.served, hk] at h
    | some t =>
      rw [Sys.step_handle_some ophAutoRetry hk]
      cases t with
      | serve r =>
        obtain rfl : (r, env.serve) = p := by simpa [Sys.served, hk] using h
        rfl
      | _ => simp [Sys.served, hk] at h

/-- An event delivers a notification, executes some tasks, serves a request or does nothing. -/
theorem step_kinds (s : Sys) (e : Event) : (∃ m, s.delivered e = some m) ∨ (∃ l, s.executed e = some l) ∨
    (∃ p, s.served e = some p) ∨ s.step ophAutoRetry e = s := by
  cases e with
  | external m env => exact .inl ⟨m, rfl⟩
  | handle k env =>
    cases hk : s.todo[k]? with
    | none => exact .inr (.inr (.inr (Sys.step_handle_none ophAutoRetry hk env)))
    | some t =>
      cases t with
      | execute l => exact .inr (.inl ⟨l, by simp [Sys.executed, hk]⟩)
      | serve r => exact .inr (.inr (.inl ⟨(r, env.serve), by simp [Sys.served, hk]⟩))
      | special m => exact .inl ⟨m, by simp [Sys.delivered, hk]⟩
      | notify m => exact .inl ⟨m, by simp [Sys.delivered, hk]⟩

theorem step_moves (he : NotifiedOnce i s e) (hf : ¬ s.Fails ophAutoRetry i e) :
    Moves i s.wf (s.step ophAutoRetry e).wf := by
  rcases step_kinds ophAutoRetry s e with ⟨m, hm⟩ | ⟨l, hl⟩ | ⟨p, hp⟩ | hs
  · rw [(step_delivered ophAutoRetry hm).1]
    by_cases hi : m.taskIndex = i
    · subst hi
      rcases notify_cases_of_not_failing ophAutoRetry e.notifyEnv (he.1 m hm rfl) fun status hs =>
        hf ⟨m, hm, rfl, status, hs⟩ with h | h
      · exact .spared h
      · exact .rewritten h
    · exact .spared (notify_spared ophAutoRetry e.notifyEnv s.wf hi)
  · obtain ⟨env, hwf⟩ := step_executed ophAutoRetry hl
    rw [hwf]
    exact (execute_attempts ophAutoRetry env l s.wf).moves
  · rw [step_served ophAutoRetry hp]
    rcases serve_attempts p.2 p.1 s.wf with h | h | ⟨hw, h, hne⟩
    · exact .spared h
    · exact .refilled h
    · exact .rewritten ⟨h, .inr ⟨he.2 p hp hw, hne⟩⟩
  · rw [hs]
    exact .spared (.refl False i s.wf)

theorem Failing.limited_of_step {status : JobStatus} (h : Failing ophAutoRetry e.notifyEnv m s.wf status)
    (ht : Tried n m.taskIndex s.wf) (hn : 0 < n) (hr : (s.wf.tasks m.taskIndex).retryNum = n)
    (he : NotifiedOnce m.taskIndex s e) (hm : s.delivered e = some m) (hu : Unmarked ophAutoRetry m.taskIndex s e) :
    h.Limited := by
  have hmark := hu
  rw [Unmarked, (step_delivered ophAutoRetry hm).1] at hmark
  exact h.limited ophAutoRetry _ ht (he.1 m hm rfl) (by omega) hmark

theorem step_tried (ht : Tried n i s.wf) (hn : 0 < n) (hr : (s.wf.tasks i).retryNum = n) (he : NotifiedOnce i s e)
    (hu : Unmarked ophAutoRetry i s e) : Tried n i (s.step ophAutoRetry e).wf := by
  by_cases hf : s.Fails ophAutoRetry i e
  · obtain ⟨m, hm, rfl, status, h⟩ := hf
    rw [(step_delivered ophAutoRetry hm).1]
    exact h.tried ophAutoRetry _ ht (he.1 m hm rfl) (h.limited_of_step ophAutoRetry ht hn hr he hm hu)
  · exact ht.moves hn hr (step_moves ophAutoRetry he hf)

theorem step_retries (ht : Tried n i s.wf) (hi : i < s.wf.tasksNum) (hn : 0 < n) (hr : (s.wf.tasks i).retryNum = n)
    (he : NotifiedOnce i s e) (hu : Unmarked ophAutoRetry i s e) : s.Retries ophAutoRetry n i e := by
  refine ⟨?_, ?_, ?_, fun l hl hil hs hw hd => ?_⟩
  · rintro ⟨m, hm, rfl, status, h⟩
    exact (ht.underWay (h.underWay ophAutoRetry _ (he.1 m hm rfl))).2.1
  · rintro ⟨m, hm, rfl, status, h⟩ hlt
    obtain ⟨hstarted, hpos, hsum⟩ := ht.underWay (h.underWay ophAutoRetry _ (he.1 m hm rfl))
    have hl := h.limited_of_step ophAutoRetry ht hn hr he hm hu
    have hagain := h.again hl (by omega)
    have hspared := Failing.before_spared ophAutoRetry e.notifyEnv m s.wf status
    have hun := Failing.before_unaccounted ophAutoRetry e.notifyEnv m s.wf status
    obtain ⟨hwf, rest, htodo⟩ := step_delivered ophAutoRetry hm
    have hattempts : (((Failing.before ophAutoRetry e.notifyEnv m s.wf status).modify m.taskIndex
        Task.countRetry).setTaskStatus m.taskIndex .unknown).attempts m.taskIndex = s.wf.attempts m.taskIndex :=
      hspared.attempts
    rw [Sys.Waits, hwf, htodo, hagain]
    refine ⟨⟨?_, ?_⟩, hun.residualTasksNum, hun.status, fun hdb => ?_⟩
    · rw [Workflow.setTaskStatus, Workflow.modify_tasks_self]
    · rw [hattempts]
      exact hstarted
    · rw [hdb]
      exact List.mem_append_right _ List.mem_cons_self
  · rintro ⟨m, hm, rfl, status, h⟩ heq
    obtain ⟨-, hpos, hsum⟩ := ht.underWay (h.underWay ophAutoRetry _ (he.1 m hm rfl))
    have hl := h.limited_of_step ophAutoRetry ht hn hr he hm hu
    obtain ⟨htasks, hnum, hstatus, -⟩ := h.last hl (by omega)
    rw [(step_delivered ophAutoRetry hm).1]
    refine ⟨?_, hnum, hstatus⟩
    rw [htasks, Workflow.modify_tasks_self]
    exact h.before_terminal
  · obtain ⟨env, hwf⟩ := step_executed ophAutoRetry hl
    have hne := execute_ne_unknown ophAutoRetry env hil hi hs hd
    rw [hwf]
    rcases (execute_attempts ophAutoRetry env l s.wf).2 with h | h
    · rcases h.status with hf | hsame | hterm
      · exact hf.elim
      · rw [hsame, hw.1] at hne
        exact absurd rfl hne
      · exact .inr hterm
    · exact .inl h.attempts

/-- Pending work stays pending until it is done. -/
theorem step_todo (e : Event) {t : Todo} (h : t ∈ s.todo) :
    t ∈ (s.step ophAutoRetry e).todo ∨ ∃ k env, e = .handle k env ∧ s.todo[k]? = some t := by
  cases e with
  | external m env => exact .inl (List.mem_append_left _ h)
  | handle k env =>
    cases hk : s.todo[k]? with
    | none =>
      rw [Sys.step_handle_none ophAutoRetry hk]
      exact .inl h
    | some t' =>
      rw [Sys.step_handle_some ophAutoRetry hk]
      obtain ⟨hlt, ht'⟩ := List.getElem?_eq_some_iff.mp hk
      rcases List.mem_cons.mp ((List.getElem_cons_eraseIdx_perm hlt).mem_iff.mpr h) with rfl | hmem
      · exact .inr ⟨k, env, rfl, ht' ▸ hk⟩
      · exact .inl (List.mem_append_left _ hmem)

/-- A task that has been executed waits for no dependence and, when it has failed, for its next execution. -/
structure Sys.Resumes (i : Nat) (s : Sys) : Prop where
  residualDepsNum : 0 < s.wf.attempts i → (s.wf.tasks i).residualDepsNum = 0
  pending : s.Waits i → ∃ l, .execute l ∈ s.todo ∧ i ∈ l

theorem step_ready (h : s.Resumes i) (ht : Tried n i s.wf) (hn : 0 < n) (hr : (s.wf.tasks i).retryNum = n)
    (he : NotifiedOnce i s e) (hu : Unmarked ophAutoRetry i s e) (hl : ¬ s.Loses ophAutoRetry i e)
    (ha : 0 < (s.step ophAutoRetry e).wf.attempts i) : ((s.step ophAutoRetry e).wf.tasks i).residualDepsNum = 0 := by
  have hsame (hattempts : (s.step ophAutoRetry e).wf.attempts i = s.wf.attempts i) :
      (s.wf.tasks i).residualDepsNum = 0 := h.residualDepsNum (hattempts ▸ ha)
  rcases step_kinds ophAutoRetry s e with ⟨m, hm⟩ | ⟨l, hl'⟩ | ⟨p, hp⟩ | hs
  · have hwf := (step_delivered ophAutoRetry hm).1
    have hattempts : (s.step ophAutoRetry e).wf.attempts i = s.wf.attempts i := by
      rw [hwf]
      by_cases hi : m.taskIndex = i
      · subst hi
        by_cases hf : ∃ status, Failing ophAutoRetry e.notifyEnv m s.wf status
        · obtain ⟨status, hf⟩ := hf
          exact hf.attempts_eq ophAutoRetry _ (hf.limited_of_step ophAutoRetry ht hn hr he hm hu)
        · rcases notify_cases_of_not_failing ophAutoRetry e.notifyEnv (he.1 m hm rfl) (not_exists.mp hf) with hc | hc
          · exact hc.attempts
          · exact hc.spared.attempts
      · have hspared : Spared False i s.wf (notify ophAutoRetry e.notifyEnv m s.wf).1 :=
          notify_spared ophAutoRetry e.notifyEnv s.wf hi
        exact hspared.attempts
    rw [hwf]
    exact notify_staysReady ophAutoRetry e.notifyEnv m s.wf (hsame hattempts)
  · obtain ⟨env, hwf⟩ := step_executed ophAutoRetry hl'
    rw [hwf] at ha hsame ⊢
    obtain ⟨hd, hc⟩ : AttemptedOr i s.wf (execute ophAutoRetry env l s.wf).1 := execute_attempts ophAutoRetry env l s.wf
    rw [hd]
    rcases hc with hc | hc
    · exact hsame hc.attempts
    · exact hc.residualDepsNum
  · by_contra hne
    refine hl (.inr (.inr ⟨by rw [hp]; rfl, ha, hsame ?_, hne⟩))
    have hwf := step_served ophAutoRetry hp
    rw [hwf] at ha ⊢
    rcases serve_attempts p.2 p.1 s.wf with hc | hc | ⟨-, hc, -⟩
    · exact hc.attempts
    · rw [hc.attempts] at ha
      exact absurd ha (Nat.lt_irrefl 0)
    · exact hc.attempts
  · rw [hs] at ha ⊢
    exact h.residualDepsNum ha

theorem step_resumes (h : s.Resumes i) (ht : Tried n i s.wf) (hi : i < s.wf.tasksNum) (hn : 0 < n)
    (hr : (s.wf.tasks i).retryNum = n) (he : NotifiedOnce i s e) (hu : Unmarked ophAutoRetry i s e)
    (hl : ¬ s.Loses ophAutoRetry i e) : (s.step ophAutoRetry e).Resumes i := by
  refine ⟨step_ready ophAutoRetry h ht hn hr he hu hl, fun hw => ?_⟩
  by_cases hf : s.Fails ophAutoRetry i e
  · have hretries := step_retries ophAutoRetry ht hi hn hr he hu
    have hdb : e.notifyEnv.dbFails = false := Bool.eq_false_iff.mpr fun hdb => hl (.inl ⟨hf, hdb⟩)
    rcases ht.le.lt_or_eq with hlt | heq
    · exact ⟨[i], (hretries.again hf hlt).2.2.2 hdb, List.mem_cons_self⟩
    · exact absurd hw.1 (ne_unknown_of_terminal (hretries.last hf heq).1)
  · obtain ⟨hs, ha⟩ := (step_moves ophAutoRetry he hf).waits hw.1 hw.2
    have hwaits : s.Waits i := ⟨hs, ha ▸ hw.2⟩
    obtain ⟨l, hmem, hil⟩ := h.pending hwaits
    rcases step_todo ophAutoRetry e hmem with hmem' | ⟨k, env, rfl, hk⟩
    · exact ⟨l, hmem', hil⟩
    · -- the pending execution is done now
      have hexec : s.executed (.handle k env) = some l := by simp [Sys.executed, hk]
      have hrun : s.wf.status < .completed := by
        by_contra hover
        exact hl (.inr (.inl ⟨hwaits, l, hexec, hil, hover⟩))
      obtain ⟨env', hwf⟩ := step_executed ophAutoRetry hexec
      have hne := execute_ne_unknown ophAutoRetry env' hil hi hrun (h.residualDepsNum hwaits.2)
      rw [← hwf] at hne
      exact absurd hw.1 hne

/-- What every step of such a run keeps. -/
structure Sys.Tries (wf₀ : Workflow) (n i : Nat) (s : Sys) : Prop where
  layout : Layout wf₀ s.wf
  tried : Tried n i s.wf

theorem Sys.Tries.retryNum {wf₀ : Workflow} (h : s.Tries wf₀ n i) (hr : (wf₀.tasks i).retryNum = n) :
    (s.wf.tasks i).retryNum = n := (h.layout.task i).retryNum.trans hr

/--
Along every run in which each attempt of task `i`, which may be executed `n` times and is never marked for auto-retry,
is notified once: the task is executed `n` times at most between two resets. Each failure is that of an attempt, and the
task is left to be executed again, unless it was the last one: then the task and the workflow have failed. While the
task waits for its next attempt it is pending, if no retry has been lost.
-/
theorem retries_of_run (ophAutoRetry : Nat) {wf₀ : Workflow} (h₀ : wf₀.Submittable) (tasksIndexes : List Nat)
    (es : List Event) {i n : Nat} (hi : i < wf₀.tasksNum) (hn : 0 < n) (hr : (wf₀.tasks i).retryNum = n)
    (hs : (wf₀.tasks i).status = .unknown)
    (hes : Lib.Along (Sys.step ophAutoRetry) (NotifiedOnce i) (wf₀.submit tasksIndexes) es)
    (hun : Lib.Along (Sys.step ophAutoRetry) (Unmarked ophAutoRetry i) (wf₀.submit tasksIndexes) es) :
    ((wf₀.submit tasksIndexes).run ophAutoRetry es).wf.attempts i ≤ n ∧
      Lib.Along (Sys.step ophAutoRetry) (Sys.Retries ophAutoRetry n i) (wf₀.submit tasksIndexes) es ∧
      (((wf₀.submit tasksIndexes).run ophAutoRetry es).Resumes i ∨
        Lib.Sometime (Sys.step ophAutoRetry) (Sys.Loses ophAutoRetry i) (wf₀.submit tasksIndexes) es) := by
  have hres : (wf₀.tasks i).residualRetryNum = n := (h₀.unsubmitted i).residualRetryNum.trans hr
  have hattempts : (wf₀.submit tasksIndexes).wf.attempts i = 0 := rfl
  have hall := hes.and hun
  have h0 : (wf₀.submit tasksIndexes).Tries wf₀ n i := by
    refine ⟨h₀.layout.rigid (.of_tasks rfl rfl rfl), hattempts.le.trans (Nat.zero_le n), fun _ => ?_, fun hu => ?_⟩
    · rw [hattempts]
      have hres' : ((wf₀.submit tasksIndexes).wf.tasks i).residualRetryNum = n := hres
      omega
    · exact absurd hs (ne_unknown_of_underWay hu)
  have hstep (s : Sys) (e : Event) (hI : s.Tries wf₀ n i) (he : NotifiedOnce i s e ∧ Unmarked ophAutoRetry i s e) :
      (s.step ophAutoRetry e).Tries wf₀ n i :=
    ⟨step_layout h₀ ophAutoRetry e hI.layout, step_tried ophAutoRetry hI.tried hn (hI.retryNum hr) he.1 he.2⟩
  refine ⟨(hall.run_induct (Sys.Tries wf₀ n i) h0 hstep).tried.le,
    hall.of_induct (Sys.Tries wf₀ n i) h0 hstep fun s e hI he => ?_, ?_⟩
  · exact step_retries ophAutoRetry hI.tried (hI.layout.tasksNum ▸ hi) hn (hI.retryNum hr) he.1 he.2
  · refine or_iff_not_imp_right.mpr fun hnever => ?_
    have hkept := hall.and (Lib.along_not_iff.mpr hnever)
    have hbegin : (wf₀.submit tasksIndexes).Resumes i :=
      ⟨fun ha => absurd ha (Nat.lt_irrefl 0), fun hw => absurd hw.2 (Nat.lt_irrefl 0)⟩
    refine (hkept.run_induct (fun s => s.Tries wf₀ n i ∧ s.Resumes i) ⟨h0, hbegin⟩ fun s e hI he => ?_).2
    refine ⟨hstep s e hI.1 he.1, ?_⟩
    exact step_resumes ophAutoRetry hI.2 hI.1.tried (hI.1.layout.tasksNum ▸ hi) hn (hI.1.retryNum hr) he.1.1 he.1.2 he.2

/-- Two tasks: the first one may be executed twice. -/
def retryRequest : LoadedWorkflow :=
  loadRequest [requestTask "A" (.other "oph_a") [] 2, requestTask "B" (.other "oph_b") [] 1] (by
    simp only [List.forall_mem_cons, List.not_mem_nil, false_implies, implies_true, and_true]
    exact ⟨requestTask_fresh .., requestTask_fresh ..⟩)

/-- Task 0 fails twice. -/
def retryRun : List Event :=
  [.handle 0 { exec := .plain }, .external { jobid := 1, status := .executeError, taskIndex := 0 } {},
    .handle 2 { exec := .plain }, .external { jobid := 1, status := .executeError, taskIndex := 0 } {}]

/-- The run is one whose attempts of task `i` are notified once, and what it leads to passes a check. -/
def checkRetries (i n : Nat) (es : List Event) (p : Sys → Bool) (wf₀ : Workflow) : Bool :=
  decide (i < wf₀.tasksNum ∧ (wf₀.tasks i).retryNum = n ∧ (wf₀.tasks i).status = .unknown ∧
    Lib.Along (Sys.step 0) (NotifiedOnce i) (wf₀.submit wf₀.initialTasks) es ∧
    Lib.Along (Sys.step 0) (Unmarked 0 i) (wf₀.submit wf₀.initialTasks) es) &&
  p ((wf₀.submit wf₀.initialTasks).run 0 es)

theorem retries_of_run_twice :
    ∃ wf₀ : Workflow, wf₀.Submittable ∧ ((wf₀.submit wf₀.initialTasks).run 0 retryRun).wf.attempts 0 = 2 ∧
      ((wf₀.submit wf₀.initialTasks).run 0 retryRun).wf.status = .error ∧
      Lib.Along (Sys.step 0) (Sys.Retries 0 2 0) (wf₀.submit wf₀.initialTasks) retryRun := by
  obtain ⟨wf₀, h₀, h⟩ := submittable_of_checkAccepted (r := retryRequest)
    (p := checkRetries 0 2 retryRun fun s => s.wf.attempts 0 = 2 ∧ s.wf.status = .error) (by decide +kernel)
  simp only [checkRetries, Bool.and_eq_true, decide_eq_true_eq] at h
  obtain ⟨⟨hi, hr, hs, hes, hun⟩, ha, hstatus⟩ := h
  exact ⟨wf₀, h₀, ha, hstatus, (retries_of_run 0 h₀ wf₀.initialTasks retryRun hi two_pos hr hs hes hun).2.1⟩

/-- The loop is entered again once its body has been completed. -/
def againRun : List Event :=
  loopRun none ++ [.handle 0 { exec := .plain }, .handle 0 { exec := .plain }, .handle 0 { exec := .plain }]

/-- Task 0 fails and, before it is executed again, the workflow fails with task 1. -/
def lostRun : List Event :=
  [.handle 0 { exec := .plain }, .external { jobid := 1, status := .executeError, taskIndex := 0 } {},
    .external { jobid := 2, status := .executeError, taskIndex := 1 } {}, .handle 2 { exec := .plain }]

/-- The body of a loop is executed once for each value, and a task is not executed again when the workflow is over. -/
theorem executions_of_loop_and_of_failed :
    (∃ wf₀ : Workflow, wf₀.Submittable ∧ (wf₀.tasks 1).retryNum = 1 ∧
      Lib.Along (Sys.step 0) (NotifiedOnce 1) (wf₀.submit wf₀.initialTasks) againRun ∧
      Lib.Along (Sys.step 0) (Unmarked 0 1) (wf₀.submit wf₀.initialTasks) againRun ∧
      ((wf₀.submit wf₀.initialTasks).run 0 againRun).wf.trace.count (.started 1) = 2) ∧
    ∃ wf₀ : Workflow, wf₀.Submittable ∧ (wf₀.tasks 0).retryNum = 2 ∧
      Lib.Along (Sys.step 0) (NotifiedOnce 0) (wf₀.submit wf₀.initialTasks) lostRun ∧
      Lib.Along (Sys.step 0) (Unmarked 0 0) (wf₀.submit wf₀.initialTasks) lostRun ∧
      ((wf₀.submit wf₀.initialTasks).run 0 lostRun).wf.trace.count (.started 0) = 1 ∧
      (((wf₀.submit wf₀.initialTasks).run 0 lostRun).wf.tasks 0).residualRetryNum = 1 ∧
      (((wf₀.submit wf₀.initialTasks).run 0 lostRun).wf.tasks 0).status = .unknown ∧
      ∀ l, .execute l ∉ ((wf₀.submit wf₀.initialTasks).run 0 lostRun).todo := by
  constructor
  · obtain ⟨wf₀, h₀, h⟩ := submittable_of_checkAccepted (r := loopRequest)
      (p := checkRetries 1 1 againRun fun s => s.wf.trace.count (.started 1) = 2) (by decide +kernel)
    simp only [checkRetries, Bool.and_eq_true, decide_eq_true_eq] at h
    obtain ⟨⟨-, hr, -, hes, hun⟩, hcount⟩ := h
    exact ⟨wf₀, h₀, hr, hes, hun, hcount⟩
  · obtain ⟨wf₀, h₀, h⟩ := submittable_of_checkAccepted (r := retryRequest)
      (p := checkRetries 0 2 lostRun fun s => s.wf.trace.count (.started 0) = 1 ∧
        (s.wf.tasks 0).residualRetryNum = 1 ∧ (s.wf.tasks 0).status = .unknown ∧
        s.todo.all fun t => !(t matches .execute _)) (by decide +kernel)
    simp only [checkRetries, Bool.and_eq_true, decide_eq_true_eq, List.all_eq_true] at h
    obtain ⟨⟨-, hr, -, hes, hun⟩, hcount, hres, hs, hall⟩ := h
    exact ⟨wf₀, h₀, hr, hes, hun, hcount, hres, hs, fun l hl => Bool.noConfusion (hall _ hl)⟩

end Steps

end OphidiaWorkflow
