import OphidiaWorkflow.Engine.Accounting

/-!
Each task, and each light task, is counted once at most between two submissions, along every run in which a notification
that is not an error finds what it is for still to be ended.
-/
namespace OphidiaWorkflow

/-! ## Submission of another task -/

section Other

variable {i k : Nat} (ophAutoRetry : Nat) (env : ExecEnv) (wf : Workflow)

theorem submittedLight_not_concerns (i k j : Nat) : ¬ (Entry.submittedLight k j).Concerns i := by
  simp [Entry.Concerns, Entry.isStart, Entry.isEnd, Entry.isLightEnd]

theorem modify_tame (h : k ≠ i) (f : Task → Task) : Tame i wf (wf.modify k f) := .modify fun hk => absurd hk h

theorem setTaskStatus_tame (h : k ≠ i) (s : JobStatus) : Tame i wf (wf.setTaskStatus k s) := modify_tame wf h _

theorem submissionFailed_evolves (i k : Nat) : Evolves i wf (submissionFailed wf k).1 :=
  Evolves.trans (.inl (.setTaskStatus (by decide))) (abortDependents_evolves i _ k)

theorem executeLight_tame (h : k ≠ i) (retry : Bool) (j : Nat) : Tame i wf (executeLight env k retry wf j).1 := by
  have hfail (wf : Workflow) : Tame i wf (lightFailed wf k j).1 := by
    simp only [lightFailed]
    exact modify_tame wf h _
  unfold executeLight
  simp only
  split
  · split
    · exact .refl i wf
    · exact hfail wf
  · split
    · exact hfail wf
    · split
      · exact (modify_tame wf h _).trans (hfail _)
      · split
        · exact (modify_tame wf h _).trans (hfail _)
        · exact ((modify_tame wf h _).trans (modify_tame _ h _)).trans (.record (submittedLight_not_concerns i k j))

theorem executeLights_tame (h : k ≠ i) (retry : Bool) : Tame i wf (executeLights env k retry wf).1 := by
  unfold executeLights
  refine Lib.foldOut_induct (fun wf' _ => Tame i wf wf') (.refl i wf) fun j _ wf' _ h' => ?_
  exact h'.trans (executeLight_tame env wf' h retry j)

theorem finishMassive_tame (h : k ≠ i) (s : JobStatus) : Tame i wf (finishMassive env wf k s).1 := by
  unfold finishMassive
  split
  · exact setTaskStatus_tame wf h s
  · simp only
    exact modify_tame wf h _

theorem submitTask_evolves (h : k ≠ i) (remake : Bool) : Evolves i wf (submitTask ophAutoRetry env wf k remake).1 := by
  unfold submitTask
  split
  · exact submissionFailed_evolves wf i k
  · simp only
    split
    · exact Evolves.trans (.inl (modify_tame wf h _)) (submissionFailed_evolves _ i k)
    · split
      · exact .inl (((modify_tame wf h _).trans (executeLights_tame env _ h _)).trans (setTaskStatus_tame _ h _))
      · exact .inl ((modify_tame wf h _).trans (setTaskStatus_tame _ h _))

theorem submitMassive_evolves (h : k ≠ i) : Evolves i wf (submitMassive ophAutoRetry env wf k).1 := by
  unfold submitMassive
  simp only
  split
  · exact Evolves.trans (.inl (modify_tame wf h _)) (submitTask_evolves ophAutoRetry env _ h _)
  · exact .inl ((modify_tame wf h _).trans (finishMassive_tame env _ h _))
  · exact .inl ((modify_tame wf h _).trans (finishMassive_tame env _ h _))

theorem startTask_evolves (h : k ≠ i) : Evolves i wf (startTask ophAutoRetry env wf k).1 := by
  have hstart : Tame i wf ((wf.record (.started k)).modify k (Task.prepare (env.markerid k none))) := by
    refine Tame.trans (.record ?_) (modify_tame _ h _)
    simp [Entry.Concerns, Entry.isStart, Entry.isEnd, Entry.isLightEnd, h]
  unfold startTask
  simp only
  split
  · exact Evolves.trans (.inl hstart) (submissionFailed_evolves _ i k)
  · split
    · exact Evolves.trans (.inl hstart) (submissionFailed_evolves _ i k)
    · split
      · exact Evolves.trans (.inl hstart) (submitMassive_evolves ophAutoRetry env _ h)
      · exact Evolves.trans (.inl hstart) (submitTask_evolves ophAutoRetry env _ h _)

end Other

/-! ## The notifications built for a task -/

/-- All the notifications built in `todo` are about task `k`. -/
def About (k : Nat) (todo : List Todo) : Prop := ∀ n, Todo.special n ∈ todo → n.taskIndex = k

section About

variable {i k : Nat} (ophAutoRetry : Nat) (env : ExecEnv) (wf : Workflow)

theorem owed_about {todo : List Todo} (h : About k todo) (hk : k ≠ i) (j : Option Nat) : owed i j todo = 0 := by
  refine List.countP_eq_zero.mpr fun t ht => ?_
  cases t with
  | special n =>
    have hn := h n ht
    simp [Todo.owes, hn, hk]
  | _ => simp [Todo.owes]

theorem About.nil (k : Nat) : About k [] := fun _ h => absurd h List.not_mem_nil

theorem About.special {n : Notification} (h : n.taskIndex = k) : About k [.special n] := by
  intro m hm
  obtain rfl := Todo.special.inj (List.mem_singleton.mp hm)
  exact h

theorem About.serve (k : Nat) (r : Request) : About k [.serve r] := by
  intro m hm
  exact absurd (List.mem_singleton.mp hm) (by simp)

theorem About.append {todo todo' : List Todo} (h : About k todo) (h' : About k todo') : About k (todo ++ todo') := by
  intro n hn
  rcases List.mem_append.mp hn with hn | hn
  · exact h n hn
  · exact h' n hn

theorem executeLight_about (k : Nat) (retry : Bool) (j : Nat) : About k (executeLight env k retry wf j).2 := by
  have hfail (wf : Workflow) : About k (lightFailed wf k j).2 := .special rfl
  unfold executeLight
  simp only
  split
  · split
    · exact .special rfl
    · exact hfail _
  · split
    · exact hfail _
    · split
      · exact hfail _
      · split
        · exact hfail _
        · exact .serve k _

theorem submissionFailed_about (k : Nat) : About k (submissionFailed wf k).2 := .special rfl

theorem finishMassive_about (k : Nat) (s : JobStatus) : About k (finishMassive env wf k s).2 := by
  unfold finishMassive
  split
  · exact .special rfl
  · exact .special rfl

theorem submitTask_about (k : Nat) (remake : Bool) : About k (submitTask ophAutoRetry env wf k remake).2 := by
  have hlights (wf : Workflow) (retry : Bool) : About k (executeLights env k retry wf).2 := by
    unfold executeLights
    refine Lib.foldOut_induct (fun _ todo => About k todo) (.nil k) fun j _ wf' todo h => ?_
    exact h.append (executeLight_about env wf' k retry j)
  unfold submitTask
  split
  · exact submissionFailed_about wf k
  · simp only
    split
    · exact submissionFailed_about _ k
    · split
      · exact hlights _ _
      · exact .serve k _

theorem startTask_about (k : Nat) : About k (startTask ophAutoRetry env wf k).2 := by
  unfold startTask
  simp only
  split
  · exact submissionFailed_about _ k
  · split
    · exact submissionFailed_about _ k
    · split
      · unfold submitMassive
        simp only
        split
        · exact submitTask_about ophAutoRetry env _ k _
        · exact finishMassive_about env _ k _
        · exact finishMassive_about env _ k _
      · exact submitTask_about ophAutoRetry env _ k _

end About

/-! ## Submission of the task itself -/

/-- Nothing has been counted since the last submission. -/
structure Uncounted (i : Nat) (wf : Workflow) : Prop where
  task : wf.ends i = 0
  light : ∀ j, wf.lightEnds i j = 0
  once : EndsOnce i wf.trace

section Itself

variable {i : Nat} {wf wf' : Workflow} {todo : List Todo} (ophAutoRetry : Nat) (env : ExecEnv)

theorem Uncounted.silent (h : Uncounted i wf) (hs : Silent i wf wf') : Uncounted i wf' := by
  obtain ⟨he, hl, ho⟩ := silent_counts hs
  exact ⟨he.trans h.task, fun j => (hl j).trans (h.light j), ho h.once⟩

/-- Only what has been built by the submission itself may be owed. -/
theorem Uncounted.counted (h : Uncounted i wf) (ho : owed i none todo ≤ 1)
    (hs : 0 < owed i none todo → (wf.tasks i).status.Terminal) (hl : ∀ j, owed i (some j) todo ≤ 1)
    (hls : ∀ j, 0 < owed i (some j) todo → ((wf.tasks i).lightTask j).status.Terminal) : Counted i todo wf := by
  refine ⟨?_, ?_, fun j => ?_, fun j => ?_, h.once⟩
  · rwa [h.task, Nat.zero_add]
  · rwa [h.task, Nat.zero_add]
  · rw [h.light, Nat.zero_add]
    exact hl j
  · rw [h.light, Nat.zero_add]
    exact hls j

theorem Uncounted.counted_nil (h : Uncounted i wf) (ho : ∀ j, owed i j todo = 0) : Counted i todo wf := by
  refine h.counted ((ho none).le.trans zero_le_one) (fun hp => ?_) (fun j => (ho _).le.trans zero_le_one) fun j hp => ?_
  · exact absurd hp (by rw [ho]; exact lt_irrefl 0)
  · exact absurd hp (by rw [ho]; exact lt_irrefl 0)

theorem uncounted_started (h : EndsOnce i wf.trace) : Uncounted i (wf.record (.started i)) := by
  have hb : (Entry.started i).isStart i = true := by simp [Entry.isStart]
  refine ⟨Lib.countSince_cons_boundary hb, fun j => Lib.countSince_cons_boundary hb, h.1.cons ?_,
    fun j => (h.2 j).cons ?_⟩
  · exact (Lib.countSince_cons_boundary hb).le.trans zero_le_one
  · exact (Lib.countSince_cons_boundary hb).le.trans zero_le_one

theorem owed_serve (i : Nat) (j : Option Nat) (r : Request) : owed i j [.serve r] = 0 := rfl

theorem submissionFailed_counted (h : Uncounted i wf) :
    Counted i (submissionFailed wf i).2 (submissionFailed wf i).1 := by
  have h₁ : Uncounted i (wf.setTaskStatus i .error) := h.silent (.of_trace rfl)
  have h₂ : Counted i [] (submissionFailed wf i).1 :=
    (h₁.counted_nil fun j => rfl).evolves (abortDependents_evolves i _ i)
  refine h₂.mono fun j => ?_
  -- the status of the notification is an error, unless the task has been aborted with its dependents
  have hs :
      ((submissionFailed wf i).1.tasks i).status = .error ∨ ((submissionFailed wf i).1.tasks i).status = .aborted := by
    rcases setStatus_status .aborted _ _ (wf.setTaskStatus i .error) i with hs | hs
    · exact .inl (hs.trans (by simp [Workflow.setTaskStatus]))
    · exact .inr hs
  have hn : (((submissionFailed wf i).1.tasks i).status.notified == some .completed) = false := by
    rcases hs with hs | hs
    · rw [hs]
      rfl
    · rw [hs]
      rfl
  have ho (jobid : Int) : Todo.owes i j
      (.special { jobid := jobid, status := ((submissionFailed wf i).1.tasks i).status, taskIndex := i }) = false := by
    rw [Todo.owes, hn, Bool.and_false]
  refine (List.countP_eq_zero.mpr fun t ht => ?_).le
  rw [List.mem_singleton.mp ht]
  exact Bool.eq_false_iff.mp (ho _)

theorem owed_special (i : Nat) (j : Option Nat) (n : Notification) : owed i j [.special n] ≤ 1 :=
  List.countP_le_length

theorem finishMassive_counted (h : Uncounted i wf) {s : JobStatus} (hs : s.Terminal) :
    Counted i (finishMassive env wf i s).2 (finishMassive env wf i s).1 := by
  have hnone (jobid : Int) (j : Nat) :
      owed i (some j) [.special { jobid := jobid, status := s, taskIndex := i }] = 0 := by
    simp [owed, Todo.owes]
  have hzero (jobid : Int) (j : Nat) :
      ¬ 0 < owed i (some j) [.special { jobid := jobid, status := s, taskIndex := i }] := by
    rw [hnone]
    exact lt_irrefl 0
  unfold finishMassive
  split
  · refine Uncounted.counted (h.silent (.of_trace rfl)) (owed_special ..) (fun _ => ?_)
      (fun j => (hnone _ j).le.trans zero_le_one) fun j hp => absurd hp (hzero _ j)
    simpa [Workflow.setTaskStatus] using hs
  · refine Uncounted.counted (h.silent (.of_trace rfl)) (owed_special ..) (fun _ => ?_)
      (fun j => (hnone _ j).le.trans zero_le_one) fun j hp => absurd hp (hzero _ j)
    simpa using hs

/-- The light tasks that have been handled so far: those that have completed in a previous attempt are notified
again. -/
structure Resubmitted (i m : Nat) (wf : Workflow) (todo : List Todo) : Prop where
  uncounted : Uncounted i wf
  task : owed i none todo = 0
  light : ∀ j, owed i (some j) todo ≤ 1
  lightOver : ∀ j, 0 < owed i (some j) todo → j < m ∧ ((wf.tasks i).lightTask j).status.Terminal

theorem executeLight_resubmitted (retry : Bool) {m : Nat} (h : Resubmitted i m wf todo) :
    Resubmitted i (m + 1) (executeLight env i retry wf m).1 (todo ++ (executeLight env i retry wf m).2) := by
  have hzero : owed i (some m) todo = 0 := by
    refine Nat.eq_zero_of_not_pos fun hp => ?_
    exact absurd (h.lightOver m hp).1 (lt_irrefl m)
  -- a light task that is not notified as completed
  have hnot {wf' : Workflow} {more : List Todo} (hs : Silent i wf wf') (ho : ∀ j, owed i j more = 0)
      (hl : ∀ j ≠ m, (wf'.tasks i).lightTask j = (wf.tasks i).lightTask j) : Resubmitted i (m + 1) wf' (todo ++ more) := by
    refine ⟨h.uncounted.silent hs, ?_, fun j => ?_, fun j hp => ?_⟩
    · rw [owed_append, h.task, ho]
    · rw [owed_append, ho]
      exact h.light j
    · rw [owed_append, ho, Nat.add_zero] at hp
      obtain ⟨hj, ht⟩ := h.lightOver j hp
      refine ⟨Nat.lt_succ_of_lt hj, ?_⟩
      rw [hl j hj.ne]
      exact ht
  have hmod (wf : Workflow) (f : LightTask → LightTask) : ∀ j ≠ m,
      (((wf.modify i fun t => t.modifyLight m f).tasks i).lightTask j) = (wf.tasks i).lightTask j := by
    intro j hj
    rw [Workflow.modify_tasks_self, lightTask_modifyLight _ _ _ _ fun h => absurd h hj, if_neg hj]
  have hne (jobid : Int) (s : JobStatus) : ∀ j ≠ m, owed i (some j)
      [.special { jobid := jobid, status := s, taskIndex := i, lightTaskIndex := some m }] = 0 := by
    intro j hj
    simp [owed, Todo.owes, Ne.symm hj]
  have hfail (jobid : Int) : ∀ j, owed i j
      [.special { jobid := jobid, status := .error, taskIndex := i, lightTaskIndex := some m }] = 0 := by
    intro j
    simp [owed, Todo.owes, JobStatus.notified]
  unfold executeLight lightFailed
  simp only
  split
  · split
    · -- the notification repeats the status of the light task
      refine ⟨h.uncounted, ?_, fun j => ?_, fun j hp => ?_⟩
      · rw [owed_append, h.task]
        simp [owed, Todo.owes]
      · rw [owed_append]
        by_cases hj : j = m
        · rw [hj, hzero, Nat.zero_add]
          exact owed_special ..
        · rw [hne _ _ j hj]
          exact h.light j
      · rw [owed_append] at hp
        by_cases hj : j = m
        · subst hj
          rw [hzero, Nat.zero_add] at hp
          obtain ⟨t, ht, ho⟩ := List.countP_pos_iff.mp hp
          rw [List.mem_singleton.mp ht] at ho
          simp only [Todo.owes, beq_self_eq_true, Bool.true_and, beq_iff_eq] at ho
          exact ⟨Nat.lt_succ_self j, terminal_of_notified (n := ⟨0, _, i, none, [], ""⟩) ho (.inl rfl)⟩
        · rw [hne _ _ j hj, Nat.add_zero] at hp
          obtain ⟨hlt, ht⟩ := h.lightOver j hp
          exact ⟨Nat.lt_succ_of_lt hlt, ht⟩
    · exact hnot (.of_trace rfl) (hfail _) (hmod wf _)
  · split
    · exact hnot (.of_trace rfl) (hfail _) (hmod wf _)
    · split
      · refine hnot (.of_trace rfl) (hfail _) fun j hj => ?_
        rw [hmod _ _ j hj, hmod _ _ j hj]
      · split
        · refine hnot (.of_trace rfl) (hfail _) fun j hj => ?_
          rw [hmod _ _ j hj, hmod _ _ j hj]
        · refine hnot ?_ (fun j => owed_serve i j _) fun j hj => ?_
          · exact Silent.trans (.of_trace rfl) (.record (submittedLight_not_concerns i i m))
          · rw [Workflow.record, hmod _ _ j hj, hmod _ _ j hj]

theorem executeLights_resubmitted (retry : Bool) (h : Uncounted i wf) :
    Resubmitted i (wf.tasks i).lightTasksNum (executeLights env i retry wf).1 (executeLights env i retry wf).2 := by
  unfold executeLights
  refine Lib.foldOut_range_induct (fun m wf' todo => Resubmitted i m wf' todo) ?_ fun m _ wf' todo h' => ?_
  · refine ⟨h, rfl, fun j => ?_, fun j hp => ?_⟩
    · exact zero_le_one
    · exact absurd hp (lt_irrefl 0)
  · exact executeLight_resubmitted env retry h'

theorem submitTask_counted (h : Uncounted i wf) (remake : Bool) :
    Counted i (submitTask ophAutoRetry env wf i remake).2 (submitTask ophAutoRetry env wf i remake).1 := by
  unfold submitTask
  split
  · exact submissionFailed_counted h
  case h_2 id _ =>
    have hid : Uncounted i (wf.modify i fun t => { t with idjob := (id : Nat) }) := h.silent (.of_trace rfl)
    simp only
    split
    · exact submissionFailed_counted hid
    · split
      · have hr := executeLights_resubmitted env (((wf.modify i fun t => { t with idjob := (id : Nat) }).tasks i).autoRetry
          ophAutoRetry || ((wf.modify i fun t => { t with idjob := (id : Nat) }).tasks i).manualRetry) hid
        refine Uncounted.counted (hr.uncounted.silent (.of_trace rfl)) (hr.task.le.trans zero_le_one) (fun hp => ?_) hr.light
          fun j hp => ?_
        · rw [hr.task] at hp
          exact absurd hp (lt_irrefl 0)
        · have ht := (hr.lightOver j hp).2
          rw [Workflow.setTaskStatus, Workflow.modify_tasks_self]
          exact ht
      · exact Uncounted.counted_nil (hid.silent (.of_trace rfl)) fun j => owed_serve i j _

/-- A submission starts the accounting of the task afresh. -/
theorem startTask_counted (h : EndsOnce i wf.trace) :
    Counted i (startTask ophAutoRetry env wf i).2 (startTask ophAutoRetry env wf i).1 := by
  have hstart : Uncounted i ((wf.record (.started i)).modify i (Task.prepare (env.markerid i none))) :=
    (uncounted_started h).silent (.of_trace rfl)
  unfold startTask
  simp only
  split
  · exact submissionFailed_counted hstart
  · split
    · exact submissionFailed_counted hstart
    · split
      · have hcheck (t : Task) : Uncounted i (((wf.record (.started i)).modify i
            (Task.prepare (env.markerid i none))).modify i fun _ => t) := hstart.silent (.of_trace rfl)
        unfold submitMassive
        simp only
        split
        · exact submitTask_counted ophAutoRetry env (hcheck _) _
        · exact finishMassive_counted env (hcheck _) JobStatus.terminal_completed
        · exact finishMassive_counted env (hcheck _) (by decide : JobStatus.error.Terminal)
      · exact submitTask_counted ophAutoRetry env hstart _

end Itself

/-! ## Execution -/

section Execution

variable {i : Nat} {wf : Workflow} {todo : List Todo} (ophAutoRetry : Nat) (env : ExecEnv)

/-- What the loop of `oph_workflow_execute` keeps: a task that is still waiting has not been submitted by the loop. -/
structure Executing (i : Nat) (todo : List Todo) (wf wf' : Workflow) (more : List Todo) : Prop where
  counted : Counted i (todo ++ more) wf'
  operator : (wf'.tasks i).operator = (wf.tasks i).operator
  waiting : (wf'.tasks i).status = .unknown → (wf.tasks i).status = .unknown ∧ ∀ j, owed i j more = 0
  residualDepsNum : (wf'.tasks i).residualDepsNum = (wf.tasks i).residualDepsNum

theorem executeTask_executing {wf' : Workflow} {more : List Todo} {k : Nat} (h : Executing i todo wf wf' more)
    (hr : (wf.tasks i).status = .unknown → (wf.tasks i).residualDepsNum = 0 → k = i → ∀ j, owed i j todo = 0) :
    Executing i todo wf (executeTask ophAutoRetry env wf' k).1 (more ++ (executeTask ophAutoRetry env wf' k).2) := by
  unfold executeTask
  split
  case isTrue hs =>
    obtain ⟨hl, hne⟩ := startTask_later ophAutoRetry env k wf'
    have hkept : (wf'.tasks i).Kept ((startTask ophAutoRetry env wf' k).1.tasks i) := hl.task i
    rcases eq_or_ne k i with rfl | hki
    · -- the task passes the start test: nothing was owed to it
      simp only [startTest, Bool.and_eq_true, decide_eq_true_eq] at hs
      obtain ⟨hw, hm⟩ := h.waiting hs.2
      have ht := hr hw (h.residualDepsNum ▸ hs.1.2) rfl
      have hc := startTask_counted ophAutoRetry env h.counted.once
      refine ⟨hc.mono fun j => ?_, hkept.operator.trans h.operator, fun hu => absurd hu hne,
        hkept.residualDepsNum.trans h.residualDepsNum⟩
      rw [owed_append, owed_append, ht, hm, Nat.zero_add, Nat.zero_add]
    · have ho := owed_about (startTask_about ophAutoRetry env wf' k) hki
      refine ⟨(h.counted.evolves (startTask_evolves ophAutoRetry env wf' hki)).mono fun j => ?_,
        hkept.operator.trans h.operator, fun hu => ?_, hkept.residualDepsNum.trans h.residualDepsNum⟩
      · rw [owed_append, owed_append, owed_append, ho, Nat.add_zero]
      · obtain ⟨hw, hm⟩ := h.waiting (hkept.status hu)
        refine ⟨hw, fun j => ?_⟩
        rw [owed_append, hm, ho]
  · rw [List.append_nil]
    exact h

theorem execute_counted (tasksIndexes : List Nat) (h : Counted i todo wf)
    (hr : (wf.tasks i).status = .unknown → (wf.tasks i).residualDepsNum = 0 → i ∈ tasksIndexes →
      ∀ j, owed i j todo = 0) :
    Counted i (todo ++ (execute ophAutoRetry env tasksIndexes wf).2) (execute ophAutoRetry env tasksIndexes wf).1 ∧
      ((execute ophAutoRetry env tasksIndexes wf).1.tasks i).operator = (wf.tasks i).operator := by
  have h0 : Executing i todo wf wf [] := ⟨by rwa [List.append_nil], rfl, fun hu => ⟨hu, fun j => rfl⟩, rfl⟩
  unfold execute
  split
  · have hE : Executing i todo wf (Lib.foldOut (executeTask ophAutoRetry env) tasksIndexes wf).1
        (Lib.foldOut (executeTask ophAutoRetry env) tasksIndexes wf).2 := by
      refine Lib.foldOut_induct (fun wf' more => Executing i todo wf wf' more) h0 fun k hk wf' more h' => ?_
      refine executeTask_executing ophAutoRetry env h' fun hw hd hki => hr hw hd ?_
      exact hki ▸ hk
    exact ⟨hE.counted, hE.operator⟩
  · exact ⟨h0.counted, rfl⟩

end Execution

/-! ## Flow control -/

section Flow

variable {i : Nat} {wf wf' wf'' : Workflow}

/-- A loop that starts a new iteration may reset task `i`, which is then to be submitted again. -/
def ResetOr (i : Nat) (wf wf' : Workflow) : Prop :=
  (Tame i wf wf' ∧ (wf'.tasks i).status = (wf.tasks i).status) ∨
    (Uncounted i wf' ∧ (wf'.tasks i).operator = (wf.tasks i).operator ∧ (wf.tasks i).status ≠ .unknown ∧
      (wf'.tasks i).status = .unknown)

theorem ResetOr.trans (h : ResetOr i wf wf') (h' : ResetOr i wf' wf'') : ResetOr i wf wf'' := by
  rcases h with ⟨ht, hs⟩ | ⟨hu, ho, hne, hs⟩
  · rcases h' with ⟨ht', hs'⟩ | ⟨hu', ho', hne', hs'⟩
    · exact .inl ⟨ht.trans ht', hs'.trans hs⟩
    · exact .inr ⟨hu', ho'.trans ht.task.operator, hs ▸ hne', hs'⟩
  · rcases h' with ⟨ht', hs'⟩ | ⟨-, -, hne', -⟩
    · exact .inr ⟨hu.silent ht'.trace, ht'.task.operator.trans ho, hne, hs'.trans hs⟩
    · exact absurd hs hne'

theorem ResetOr.modify {k : Nat} {f : Task → Task}
    (hf : k = i → (wf.tasks i).Tame (f (wf.tasks i)) ∧ (f (wf.tasks i)).status = (wf.tasks i).status) :
    ResetOr i wf (wf.modify k f) := by
  refine .inl ⟨.modify fun hk => (hf hk).1, ?_⟩
  rw [Workflow.modify_tasks]
  split_ifs with hk
  · subst hk
    exact (hf rfl).2
  · rfl

theorem ResetOr.of_tasks (h : wf'.tasks = wf.tasks) (ht : wf'.trace = wf.trace) : ResetOr i wf wf' :=
  .inl ⟨.of_tasks h ht, by rw [h]⟩

theorem ResetOr.once (h : ResetOr i wf wf') (ho : EndsOnce i wf.trace) : EndsOnce i wf'.trace := by
  rcases h with ⟨ht, -⟩ | ⟨hu, -⟩
  · exact (silent_counts ht.trace).2.2 ho
  · exact hu.once

theorem resetVisit_resetOr {frame : Frame} {s t : Workflow × Nat} {k : Nat} (ho : EndsOnce i s.1.trace)
    (h : resetVisit frame s k = some t) : ResetOr i s.1 t.1 := by
  unfold resetVisit at h
  split at h
  · cases h
  case isFalse hk =>
    cases h
    rcases eq_or_ne k i with rfl | hki
    · have hb : (Entry.reset k).isStart k = true := by simp [Entry.isStart]
      have hz {p : Entry → Bool} : Lib.countSince (Entry.isStart k) p (Entry.reset k :: s.1.trace) = 0 :=
        Lib.countSince_cons_boundary hb
      refine .inr ⟨⟨hz, fun j => hz, ?_, fun j => ?_⟩, ?_, hk, ?_⟩
      · exact ho.1.cons (hz.le.trans zero_le_one)
      · exact (ho.2 j).cons (hz.le.trans zero_le_one)
      · simp [Workflow.record, Task.reset]
      · simp [Workflow.record, Task.reset]
    · refine .inl ⟨Tame.trans (modify_tame _ hki _) (.record ?_), ?_⟩
      · simp [Entry.Concerns, Entry.isStart, Entry.isEnd, Entry.isLightEnd, hki]
      · simp [Workflow.record, Ne.symm hki]

theorem resetTask_resetOr (lastTask : Nat) (frame : Frame) (fuel : Nat) (dependents : List Nat) (s : Workflow × Nat)
    (ho : EndsOnce i s.1.trace) : ResetOr i s.1 (resetTask lastTask frame fuel dependents s).1 := by
  unfold resetTask
  refine Lib.traverse_induct (fun t : Workflow × Nat => ResetOr i s.1 t.1) (fun t k u ht hu => ?_) fuel dependents
    (.of_tasks rfl rfl)
  exact ht.trans (resetVisit_resetOr (ht.once ho) hu)

theorem disableDeps_resetOr (firstTask lastTask : Nat) (fuel : Nat) (dependents : List Nat) (wf : Workflow) :
    ResetOr i wf (disableDeps firstTask lastTask fuel dependents wf) := by
  refine Lib.traverse_induct (ResetOr i wf) (fun wf' k wf'' h hv => h.trans ?_) fuel dependents (.of_tasks rfl rfl)
  unfold disableVisit at hv
  split at hv
  · cases hv
  · cases hv
    exact .modify fun _ => ⟨.of_eq rfl rfl rfl, rfl⟩

theorem newIteration_resetOr (wf : Workflow) (p k : Nat) (frame : Frame) (ho : EndsOnce i wf.trace) :
    ResetOr i wf (newIteration wf p k frame) := by
  have hreset : ResetOr i wf (resetBody wf p k frame) :=
    (resetTask_resetOr k frame (wf.tasksNum + 1) (wf.tasks p).dependentsIndexes (wf, 0) ho).trans (.of_tasks rfl rfl)
  have hdisable := hreset.trans (disableDeps_resetOr p k _ _ _ : ResetOr i _ (disableBody (resetBody wf p k frame) p k))
  unfold newIteration
  exact hdisable.trans (.modify fun _ => ⟨.of_eq rfl rfl rfl, rfl⟩)

theorem leaveLoop_resetOr (wf : Workflow) (k : Nat) (frame : Frame) : ResetOr i wf (leaveLoop wf k frame) := by
  have hadv : ResetOr i wf (advance wf frame) := .of_tasks rfl rfl
  have hpar : ResetOr i (advance wf frame) ((advance wf frame).modify k fun t => { t with parallelMode := true }) :=
    .modify fun _ => ⟨.of_eq rfl rfl rfl, rfl⟩
  exact (hadv.trans hpar).trans (.of_tasks rfl rfl)

theorem endforImpl_resetOr (wf : Workflow) (k : Nat) (ho : EndsOnce i wf.trace) : ResetOr i wf (endforImpl wf k).1 := by
  unfold endforImpl
  split
  · exact .of_tasks rfl rfl
  case h_2 frame _ =>
    have hins : ResetOr i wf ((advance wf frame).insertVar frame.name
        (loopVar frame.caller frame.svalues frame.ivalues (frame.index + 1))) := .of_tasks rfl rfl
    have hnew := hins.trans (newIteration_resetOr _ frame.caller k frame (hins.once ho))
    split
    · exact .of_tasks rfl rfl
    · split
      · exact hnew
      · exact leaveLoop_resetOr wf k frame

theorem selectDependent_tame {rec : Nat → Workflow → Workflow × Bool} {status : JobStatus} (hs : status.Terminal)
    (hrec : ∀ k wf, Tame i wf (rec k wf).1) (parent : Nat) (skipTheNext : Bool) (taskIndex nk : Nat) (wf : Workflow)
    (k : Nat) : Tame i wf (selectDependent rec status parent skipTheNext taskIndex nk wf k).1 := by
  have hdep (wf : Workflow) (m v : Nat) : Tame i wf (wf.modify m (Task.setDependent nk v)) :=
    .modify fun _ => .of_eq rfl rfl rfl
  have hdrop (t : Task) (a : Nat) : t.Tame (t.dropDep a) := by
    unfold Task.dropDep
    split
    · exact .of_eq rfl rfl rfl
    · exact .refl t
  have hredirect (t : Task) (a b : Nat) : t.Tame (t.redirect a b) := .of_eq rfl rfl rfl
  have hmod (wf : Workflow) (m : Nat) {f : Task → Task} (hf : ∀ t : Task, t.Tame (f t)) : Tame i wf (wf.modify m f) :=
    .modify fun _ => hf _
  unfold selectDependent
  simp only
  split
  · split
    · simp only
      exact hmod _ _ fun _ => .of_eq rfl rfl rfl
    · split
      · simp only
        exact (hdep _ _ _).trans (hmod _ _ fun _ => (hdrop _ _).trans (hredirect _ _ _))
      · simp only
        exact (hdep _ _ _).trans (hmod _ _ fun _ => hredirect _ _ _)
  · split
    · simp only
      exact ((hdep _ _ _).trans (hdep _ _ _)).trans (hmod _ _ fun _ => (hdrop _ _).trans (hredirect _ _ _))
    · split
      · exact .refl i wf
      · have hcount (m : Nat) : Tame i wf (wf.countUnselected m) := by
          unfold Workflow.countUnselected
          split
          · exact .of_tasks rfl rfl
          · exact .refl i wf
        exact ((hcount _).trans (.setTaskStatus hs)).trans (hrec _ _)

theorem setStatusOfSelectionBlock_tame {status : JobStatus} (hs : status.Terminal) (parent : Nat) (skipTheNext : Bool)
    (nk fuel taskIndex : Nat) (wf : Workflow) :
    Tame i wf (setStatusOfSelectionBlock status parent skipTheNext nk fuel taskIndex wf).1 := by
  induction fuel generalizing taskIndex wf with
  | zero => exact .refl i wf
  | succ fuel ih =>
    unfold setStatusOfSelectionBlock
    refine Lib.foldWhile_induct (Tame i wf) (.refl i wf) fun k _ wf' h => h.trans ?_
    exact selectDependent_tame hs ih parent skipTheNext taskIndex nk wf' k

theorem skipBranch_tame (wf : Workflow) (k : Nat) (skipTheNext : Bool) : Tame i wf (skipBranch wf k skipTheNext) :=
  setStatusOfSelectionBlock_tame (by decide) _ _ _ _ _ _

theorem ifImpl_tame (wf : Workflow) (k : Nat) (answer : Option Bool) : Tame i wf (ifImpl wf k answer).1 := by
  have hskip (wf' : Workflow) (b : Bool) : Tame i wf' (wf'.modify k fun t => { t with isSkipped := b }) :=
    .modify fun _ => .of_eq rfl rfl rfl
  unfold ifImpl
  split
  · exact skipBranch_tame wf k true
  · split
    · exact .refl i wf
    · exact ((hskip _ _).trans (skipBranch_tame _ _ _)).trans (hskip _ _)
    · refine ⟨?_, .of_trace rfl⟩
      simp only
      split
      · exact .of_eq rfl rfl rfl
      · exact .refl _

theorem elseImpl_tame (wf : Workflow) (k : Nat) : Tame i wf (elseImpl wf k) := by
  unfold elseImpl
  split
  · exact skipBranch_tame wf k false
  · exact .refl i wf

theorem forImpl_tame (wf : Workflow) (k : Nat) (args : Option ForArgs) : Tame i wf (forImpl wf k args).1 := by
  have hsize (name : String) (n : Nat) : Tame i wf (insertSize wf name n) := by
    unfold insertSize
    split
    · exact .refl i wf
    · exact .of_tasks rfl rfl
  unfold forImpl
  split
  · exact .refl i wf
  · split
    · exact .refl i wf
    · split
      · exact .refl i wf
      · split
        · exact .refl i wf
        · simp only
          split
          · exact hsize _ _
          · exact (hsize _ _).trans (.of_tasks rfl rfl)

theorem setVars_tame (wf : Workflow) (vars : List (String × Var)) : Tame i wf (setVars wf vars) := by
  unfold setVars
  induction vars generalizing wf with
  | nil => exact .refl i wf
  | cons p l ih =>
    have hins : Tame i wf (wf.insertVar p.1 p.2) := .of_tasks rfl rfl
    exact hins.trans (ih _)

theorem waitImpl_tame {k : Nat} (h : k ≠ i) (wf : Workflow) (vars : List (String × Var)) :
    Tame i wf (waitImpl wf k vars) := by
  have hvars : Tame i wf (vars.foldl (fun wf p => if (wf.vars p.1).isSome then wf else wf.insertVar p.1 p.2) wf) := by
    induction vars generalizing wf with
    | nil => exact .refl i wf
    | cons p l ih =>
      refine Tame.trans ?_ (ih _)
      simp only
      split
      · exact .refl i wf
      · exact .of_tasks rfl rfl
  exact (hvars.trans (setTaskStatus_tame _ h _)).trans (.raiseStatus _)

theorem inputAction_tame (wf : Workflow) (target : Option Nat) (action : JobStatus)
    (hi : (wf.tasks i).operator.isFlowControl = false) : Tame i wf (inputAction wf target action) := by
  unfold inputAction
  split
  · exact .refl i wf
  case h_2 k =>
    split
    case isTrue hk =>
      refine setTaskStatus_tame wf (fun hki => ?_) _
      rw [← hki, hk.1] at hi
      exact Bool.noConfusion hi
    · exact .refl i wf

theorem serveOperator_cases (env : ServeEnv) (r : Request) (hi : (wf.tasks i).operator.isFlowControl = false)
    (ho : EndsOnce i wf.trace) :
    Tame i wf (serveOperator env wf r).1 ∨ ResetOr i wf (serveOperator env wf r).1 := by
  unfold serveOperator
  simp only
  split
  · exact .inl (.refl i wf)
  · split
    · exact .inl (.refl i wf)
    · split
      · exact .inl (.refl i wf)
      · exact .inl (setVars_tame wf _)
    · split
      · exact .inl (.refl i wf)
      · have hset := setVars_tame (i := i) wf env.vars
        split
        · exact .inl hset
        · exact .inl (hset.trans (inputAction_tame _ _ _ (hset.task.operator ▸ hi)))
    case h_4 hop =>
      split
      · exact .inl (.refl i wf)
      · refine .inl (waitImpl_tame (fun hki => ?_) wf _)
        rw [← hki, hop] at hi
        exact Bool.noConfusion hi
    · split
      · exact .inl (.refl i wf)
      · exact .inl (forImpl_tame wf _ _)
    · have hend := endforImpl_resetOr wf r.taskId ho
      split
      case h_1 heq =>
        rw [heq] at hend
        exact .inr hend
      case h_2 heq =>
        rw [heq] at hend
        exact .inr hend
      case h_3 heq =>
        rw [heq] at hend
        exact .inr hend
    · split
      · exact .inl (.refl i wf)
      · exact .inl (ifImpl_tame wf _ _)
    · split
      · exact .inl (.refl i wf)
      · exact .inl (ifImpl_tame wf _ _)
    · split
      · exact .inl (.refl i wf)
      · exact .inl (elseImpl_tame wf _)
    · exact .inl (.refl i wf)

theorem serve_fst (env : ServeEnv) (r : Request) (wf : Workflow) :
    (serve env r wf).1 = wf ∨ (serve env r wf).1 = (serveOperator env wf r).1 := by
  unfold serve
  split
  · exact .inl rfl
  · refine .inr ?_
    split
    case h_1 heq => rw [heq]
    case h_2 heq =>
      rw [heq]
      split <;> rfl
    case h_3 heq =>
      rw [heq]
      split <;> rfl

theorem serve_owed (env : ServeEnv) (r : Request) (wf : Workflow) (j : Option Nat) :
    owed i j (serve env r wf).2 = 0 := by
  unfold serve
  split
  · rfl
  · split
    · rfl
    · split
      · rfl
      · rfl
    · split
      · rfl
      · rfl

end Flow

/-! ## Runs -/

/-- The event delivers a notification that `oph_workflow_execute` has built. -/
def Sys.isSpecial (s : Sys) : Event → Bool
  | .external _ _ => false
  | .handle k _ =>
    match s.todo[k]? with
    | some (.special _) => true
    | _ => false

/-- The event submits task `i`, or resets it. -/
def Sys.restarts (s : Sys) (e : Event) (i : Nat) : Bool :=
  match e with
  | .external _ _ => false
  | .handle k env =>
    match s.todo[k]? with
    | some (.execute l) => i ∈ l ∧ (s.wf.tasks i).residualDepsNum = 0 ∧ (s.wf.tasks i).status = .unknown
    | some (.serve r) =>
      (s.wf.tasks i).status ≠ .unknown ∧ ((serve env.serve r s.wf).1.tasks i).status = .unknown
    | _ => false

/-- The task that a special notification will count as ended. -/
def Todo.owedTask : Todo → Option Nat
  | special n => if n.status.notified = some .completed then some n.taskIndex else none
  | _ => none

/--
A notification that is processed finds its task, or its light task, still to be ended; only what `oph_workflow_execute`
has notified as completed may be over. While such a notification is pending its task is neither submitted nor reset.
-/
def Timely (s : Sys) (e : Event) : Prop :=
  (∀ n ∈ s.delivered e, (s.wf.tasks n.taskIndex).operator.isFlowControl = false → ∀ status ∈ n.processed s.wf,
    (∀ j ∈ n.lightTaskIndex, j < ((s.wf.tasks n.taskIndex).lightTasks.getD []).length ∧
      (s.wf.tasks n.taskIndex).status < .completed) ∧
    ((s.isSpecial e = true ∧ status = .completed) ∨ targetStatus s.wf n < .completed)) ∧
  ∀ t ∈ s.todo, ∀ i ∈ t.owedTask, s.restarts e i = false

instance (s : Sys) (e : Event) : Decidable (Timely s e) := inferInstanceAs (Decidable (_ ∧ _))

/-- A delivered notification does not bring task `i`, or a light task of it, back from a terminal status. -/
def KeepsTerminal (ophAutoRetry i : Nat) (s : Sys) (e : Event) : Prop :=
  (s.delivered e).isSome →
    ((s.wf.tasks i).status.Terminal → ((s.step ophAutoRetry e).wf.tasks i).status.Terminal) ∧
      ∀ j, ((s.wf.tasks i).lightTask j).status.Terminal →
        (((s.step ophAutoRetry e).wf.tasks i).lightTask j).status.Terminal

section Steps

variable {i : Nat} {wf : Workflow} {todo : List Todo} {n : Notification} (ophAutoRetry : Nat) (env : NotifyEnv)

theorem owed_eraseIdx {k : Nat} {t : Todo} (h : todo[k]? = some t) (i : Nat) (j : Option Nat) :
    owed i j todo = owed i j (todo.eraseIdx k) + if t.owes i j then 1 else 0 := by
  obtain ⟨hk, rfl⟩ := List.getElem?_eq_some_iff.mp h
  have hp := (List.getElem_cons_eraseIdx_perm hk).countP_eq (Todo.owes i j)
  rw [owed, ← hp, List.countP_cons]
  rfl

theorem owed_notify (wf : Workflow) (n : Notification) (i : Nat) (j : Option Nat) :
    owed i j (notify ophAutoRetry env n wf).2 = 0 := by
  refine List.countP_eq_zero.mpr fun t ht => ?_
  rcases notify_cases ophAutoRetry env wf n with ⟨status, -, -, heq⟩ | ⟨-, hnil, -⟩
  · rw [heq] at ht
    obtain ⟨l, rfl⟩ := settle_todo ophAutoRetry env _ t ht
    simp [Todo.owes]
  · rw [hnil] at ht
    exact absurd ht List.not_mem_nil

/-- A notification for a task that is not counted yet, or for a light task that is not. -/
theorem notify_counted (h : Counted i todo wf) (hi : n.taskIndex = i)
    (hp : ∀ status ∈ n.processed wf,
      match n.lightTaskIndex with
      | none => wf.ends i + owed i none todo = 0 ∧ ((wf.tasks i).status.Terminal → status = .completed)
      | some j => j < ((wf.tasks i).lightTasks.getD []).length ∧ ¬ (wf.tasks i).status.Terminal ∧
          wf.lightEnds i j + owed i (some j) todo = 0 ∧
          (((wf.tasks i).lightTask j).status.Terminal → status = .completed)) :
    Counted i todo (notify ophAutoRetry env n wf).1 ∧ (wf.tasks i).Tame ((notify ophAutoRetry env n wf).1.tasks i) := by
  subst hi
  rcases notify_cases ophAutoRetry env wf n with ⟨status, hproc, hn, heq⟩ | ⟨-, -, ht⟩
  · have hp' := hp status hproc
    rw [heq]
    unfold updateStatus
    cases hl : n.lightTaskIndex with
    | none =>
      rw [hl] at hp'
      obtain ⟨hz, hc⟩ := hp'
      obtain ⟨hcases, hcompleted⟩ := @settle_notifyTask_cases ophAutoRetry env wf n _ hn
      refine ⟨?_, ?_⟩
      · rcases hcases with he | hq
        · exact h.ends hz he
        · exact h.quiet hz hq
      · by_cases hterm : (wf.tasks n.taskIndex).status.Terminal
        · rcases hcompleted (hc hterm) with he | ht
          · exact he.task
          · exact ht.task
        · rcases hcases with he | hq
          · exact he.task
          · exact ⟨hq.operator, fun hs => absurd hs hterm, hq.light⟩
    | some j =>
      rw [hl] at hp'
      obtain ⟨hj, hnot, hz, hc⟩ := hp'
      have hzero : wf.ends n.taskIndex + owed n.taskIndex none todo = 0 :=
        Nat.eq_zero_of_not_pos fun hpos => hnot (h.isOver hpos)
      obtain ⟨wf₂, h₂, hcases⟩ := settle_notifyLight_cases ophAutoRetry env j hn hj
        fun hterm => terminal_of_notified hn (.inl (hc hterm))
      have hmid : Counted n.taskIndex todo wf₂ ∧ wf₂.ends n.taskIndex = wf.ends n.taskIndex ∧
          (wf.tasks n.taskIndex).Tame (wf₂.tasks n.taskIndex) := by
        rcases h₂ with h₂ | h₂
        · exact ⟨h.tame h₂, (silent_counts h₂.trace).1, h₂.task⟩
        · obtain ⟨hcounted, hends⟩ := h.lightEnds hz h₂
          exact ⟨hcounted, hends, h₂.task⟩
      obtain ⟨hcounted, hends, htask⟩ := hmid
      have hzero₂ : wf₂.ends n.taskIndex + owed n.taskIndex none todo = 0 := hends ▸ hzero
      rcases hcases with he | hq
      · exact ⟨hcounted.ends hzero₂ he, htask.trans he.task⟩
      · refine ⟨hcounted.quiet hzero₂ hq, hq.operator.trans htask.operator, fun hs => absurd hs hnot, fun m hm => ?_⟩
        exact hq.light m (htask.light m hm)
  · exact ⟨h.tame (ht _), (ht _).task⟩

theorem notified_of_processed {status : JobStatus} (h : n.processed wf = some status) :
    n.status.notified = some status := by
  unfold Notification.processed at h
  split at h
  · cases h
  case h_2 heq =>
    split at h
    · cases h
    · rwa [heq]

/-- A delivered notification; `rest` is the work left besides what it leads to. -/
theorem deliver_counted {s : Sys} {e : Event} (h : Counted i s.todo s.wf)
    (hi : (s.wf.tasks i).operator.isFlowControl = false) (hd : s.delivered e = some n) (he : Timely s e)
    {rest : List Todo} (hrest : ∀ j, owed i j rest ≤ owed i j s.todo)
    (hspecial : s.isSpecial e = true → n.taskIndex = i → n.status.notified = some .completed →
      owed i n.lightTaskIndex rest + 1 ≤ owed i n.lightTaskIndex s.todo) :
    Counted i (rest ++ (notify ophAutoRetry env n s.wf).2) (notify ophAutoRetry env n s.wf).1 ∧
      (s.wf.tasks i).Tame ((notify ophAutoRetry env n s.wf).1.tasks i) := by
  have hmore {wf' : Workflow} (hc : Counted i rest wf') :
      Counted i (rest ++ (notify ophAutoRetry env n s.wf).2) wf' := by
    refine hc.mono fun j => ?_
    rw [owed_append, owed_notify, Nat.add_zero]
  by_cases hni : n.taskIndex = i
  · have hp : ∀ status ∈ n.processed s.wf,
        match n.lightTaskIndex with
        | none => s.wf.ends i + owed i none rest = 0 ∧ ((s.wf.tasks i).status.Terminal → status = .completed)
        | some j => j < ((s.wf.tasks i).lightTasks.getD []).length ∧ ¬ (s.wf.tasks i).status.Terminal ∧
            s.wf.lightEnds i j + owed i (some j) rest = 0 ∧
            (((s.wf.tasks i).lightTask j).status.Terminal → status = .completed) := by
      intro status hproc
      obtain ⟨hlight, hcase⟩ := he.1 n hd (hni ▸ hi) status hproc
      have hn := notified_of_processed hproc
      cases hl : n.lightTaskIndex with
      | none =>
        rw [hl] at hspecial
        simp only
        rcases hcase with ⟨hsp, hc⟩ | hlt
        · have hone := hspecial hsp hni (hc ▸ hn)
          have htask := h.task
          exact ⟨by omega, fun _ => hc⟩
        · have hnot : ¬ (s.wf.tasks i).status.Terminal := by
            rw [targetStatus, hl] at hlt
            exact JobStatus.not_terminal_iff.mpr (hni ▸ hlt)
          have hzero := Nat.eq_zero_of_not_pos fun hpos => hnot (h.isOver hpos)
          have hr := hrest none
          exact ⟨by omega, fun hterm => absurd hterm hnot⟩
      | some j =>
        rw [hl] at hspecial
        obtain ⟨hj, hlt⟩ := hlight j hl
        rw [hni] at hj hlt
        refine ⟨hj, JobStatus.not_terminal_iff.mpr hlt, ?_⟩
        rcases hcase with ⟨hsp, hc⟩ | hlt'
        · have hone := hspecial hsp hni (hc ▸ hn)
          have hjtask := h.light j
          exact ⟨by omega, fun _ => hc⟩
        · have hnot : ¬ ((s.wf.tasks i).lightTask j).status.Terminal := by
            rw [targetStatus, hl, hni] at hlt'
            exact JobStatus.not_terminal_iff.mpr hlt'
          have hzero := Nat.eq_zero_of_not_pos fun hpos => hnot (h.lightOver j hpos)
          have hr := hrest (some j)
          exact ⟨by omega, fun hterm => absurd hterm hnot⟩
    obtain ⟨hc, ht⟩ := notify_counted ophAutoRetry env (h.mono hrest) hni hp
    exact ⟨hmore hc, ht⟩
  · have hev : Evolves i s.wf (notify ophAutoRetry env n s.wf).1 := notify_evolves ophAutoRetry env hni
    exact ⟨hmore ((h.mono hrest).evolves hev), hev.task⟩

/-- What every step of a timely run keeps, for a task that is not a flow control operator. -/
def Sys.Counts (i : Nat) (s : Sys) : Prop :=
  (s.wf.tasks i).operator.isFlowControl = false ∧ Counted i s.todo s.wf

theorem step_deliver {s : Sys} {e : Event} (h : s.Counts i) (hd : s.delivered e = some n) (he : Timely s e) :
    (s.step ophAutoRetry e).Counts i ∧ (s.wf.tasks i).Tame ((s.step ophAutoRetry e).wf.tasks i) := by
  have hdone {env : NotifyEnv} {rest : List Todo}
      (hc : Counted i (rest ++ (notify ophAutoRetry env n s.wf).2) (notify ophAutoRetry env n s.wf).1 ∧
        (s.wf.tasks i).Tame ((notify ophAutoRetry env n s.wf).1.tasks i)) :
      Sys.Counts i ⟨(notify ophAutoRetry env n s.wf).1, rest ++ (notify ophAutoRetry env n s.wf).2⟩ ∧
        (s.wf.tasks i).Tame ((notify ophAutoRetry env n s.wf).1.tasks i) :=
    ⟨⟨hc.2.operator ▸ h.1, hc.1⟩, hc.2⟩
  cases e with
  | external m env =>
    cases hd
    exact hdone (deliver_counted ophAutoRetry env h.2 h.1 rfl he (fun j => le_rfl) fun hs => absurd hs (by simp [Sys.isSpecial]))
  | handle k env =>
    cases hk : s.todo[k]? with
    | none => simp [Sys.delivered, hk] at hd
    | some t =>
      have howed (j : Option Nat) := owed_eraseIdx hk i j
      have hle (j : Option Nat) : owed i j (s.todo.eraseIdx k) ≤ owed i j s.todo := by
        rw [howed j]
        exact Nat.le_add_right _ _
      rw [Sys.step_handle_some ophAutoRetry hk]
      cases t with
      | execute l => simp [Sys.delivered, hk] at hd
      | serve r => simp [Sys.delivered, hk] at hd
      | special m =>
        have hm : m = n := by simpa [Sys.delivered, hk] using hd
        subst hm
        refine hdone (deliver_counted ophAutoRetry env.notify h.2 h.1 hd he hle fun _ hi hn => ?_)
        rw [howed, if_pos (by simp [Todo.owes, hi, hn])]
      | notify m =>
        have hm : m = n := by simpa [Sys.delivered, hk] using hd
        subst hm
        exact hdone (deliver_counted ophAutoRetry env.notify h.2 h.1 hd he hle fun hs =>
          absurd hs (by simp [Sys.isSpecial, hk]))

/-- While a task is owed something, it is not restarted. -/
theorem owed_of_restarts {s : Sys} {e : Event} (he : Timely s e) (hr : s.restarts e i = true) (j : Option Nat) :
    owed i j s.todo = 0 := by
  refine List.countP_eq_zero.mpr fun t ht ho => ?_
  cases t with
  | special m =>
    simp only [Todo.owes, Bool.and_eq_true, beq_iff_eq] at ho
    obtain ⟨⟨hi, -⟩, hn⟩ := ho
    have hfalse := he.2 _ ht i (by simp [Todo.owedTask, hn, hi])
    exact Bool.noConfusion (hr.symm.trans hfalse)
  | _ => simp [Todo.owes] at ho

theorem step_counts {s : Sys} {e : Event} (h : s.Counts i) (he : Timely s e) : (s.step ophAutoRetry e).Counts i := by
  cases hd : s.delivered e with
  | some n => exact (step_deliver ophAutoRetry h hd he).1
  | none =>
    cases e with
    | external m env => simp [Sys.delivered] at hd
    | handle k env =>
      cases hk : s.todo[k]? with
      | none => rwa [Sys.step_handle_none ophAutoRetry hk]
      | some t =>
        have hle (j : Option Nat) : owed i j (s.todo.eraseIdx k) ≤ owed i j s.todo := by
          rw [owed_eraseIdx hk i j]
          exact Nat.le_add_right _ _
        have hrest := h.2.mono hle
        rw [Sys.step_handle_some ophAutoRetry hk]
        cases t with
        | special m => simp [Sys.delivered, hk] at hd
        | notify m => simp [Sys.delivered, hk] at hd
        | execute l =>
          obtain ⟨hc, hop⟩ := execute_counted ophAutoRetry env.exec l hrest fun hs hres hmem j => by
            have hr : s.restarts (.handle k env) i = true := by simp [Sys.restarts, hk, hmem, hres, hs]
            exact Nat.le_zero.mp ((hle j).trans (owed_of_restarts he hr j).le)
          exact ⟨hop ▸ h.1, hc⟩
        | serve r =>
          have hmore {wf' : Workflow} (hc : Counted i (s.todo.eraseIdx k) wf') :
              Counted i (s.todo.eraseIdx k ++ (serve env.serve r s.wf).2) wf' := by
            refine hc.mono fun j => ?_
            rw [owed_append, serve_owed, Nat.add_zero]
          have hcases : Tame i s.wf (serve env.serve r s.wf).1 ∨ ResetOr i s.wf (serve env.serve r s.wf).1 := by
            rcases serve_fst env.serve r s.wf with hs | hs
            · rw [hs]
              exact .inl (.refl i s.wf)
            · rw [hs]
              exact serveOperator_cases env.serve r h.1 h.2.once
          rcases hcases with ht | ⟨ht, -⟩ | ⟨hu, hop, hne, hs⟩
          · exact ⟨ht.task.operator ▸ h.1, hmore (hrest.tame ht)⟩
          · exact ⟨ht.task.operator ▸ h.1, hmore (hrest.tame ht)⟩
          · have hr : s.restarts (.handle k env) i = true := by simp [Sys.restarts, hk, hne, hs]
            refine ⟨hop ▸ h.1, hmore (hu.counted_nil fun j => ?_)⟩
            exact Nat.le_zero.mp ((hle j).trans (owed_of_restarts he hr j).le)

/--
Along every timely run of every workflow, whatever notifications come and in whatever order: a task that is not a flow
control operator is counted as ended once at most between two submissions, so is each of its light tasks, and no
notification brings them back from a terminal status.
-/
theorem counted_once_of_run (ophAutoRetry : Nat) (wf : Workflow) (tasksIndexes : List Nat) (es : List Event)
    (hes : Lib.Along (Sys.step ophAutoRetry) Timely (wf.submit tasksIndexes) es) (i : Nat)
    (hi : (wf.tasks i).operator.isFlowControl = false) :
    EndsOnce i ((wf.submit tasksIndexes).run ophAutoRetry es).wf.trace ∧
      Lib.Along (Sys.step ophAutoRetry) (KeepsTerminal ophAutoRetry i) (wf.submit tasksIndexes) es := by
  have h0 : (wf.submit tasksIndexes).Counts i := by
    refine ⟨hi, Uncounted.counted_nil ⟨rfl, fun j => rfl, .nil, fun j => .nil⟩ fun j => rfl⟩
  have hstep (s : Sys) (e : Event) (hs : s.Counts i) (he : Timely s e) := step_counts ophAutoRetry hs he
  refine ⟨(hes.run_induct (Sys.Counts i) h0 hstep).2.once, hes.of_induct (Sys.Counts i) h0 hstep fun s e hs he hd => ?_⟩
  obtain ⟨n, hn⟩ := Option.isSome_iff_exists.mp hd
  have ht := (step_deliver ophAutoRetry hs hn he).2
  exact ⟨ht.status, ht.light⟩

/-- Two tasks that do not depend on each other. -/
def twoTasks : LoadedWorkflow :=
  loadRequest [requestTask "A" (.other "oph_a") [] 1, requestTask "B" (.other "oph_b") [] 1] (by
    simp only [List.forall_mem_cons, List.not_mem_nil, false_implies, implies_true, and_true]
    exact ⟨requestTask_fresh .., requestTask_fresh ..⟩)

/-- Task 0 has nothing to submit and task 1 is running when it completes. -/
def timelyRun : List Event :=
  [.handle 0 { exec := { ExecEnv.plain with massive := fun i => if i = 0 then .noResponse else .single none } },
    .handle 0 { exec := .plain }, .external { jobid := 2, status := .running, taskIndex := 1 } {},
    .external { jobid := 2, status := .completed, taskIndex := 1 } {}]

theorem counted_once_of_run_timelyRun :
    Entry.ended 0 ∈ ((twoTasks.toWorkflow.submit [0, 1]).run 0 timelyRun).wf.trace ∧
      EndsOnce 0 ((twoTasks.toWorkflow.submit [0, 1]).run 0 timelyRun).wf.trace :=
  ⟨by decide, (counted_once_of_run 0 twoTasks.toWorkflow [0, 1] timelyRun (by decide) 0 rfl).1⟩

/-- Task 0 is notified as completed, then as running, then as completed again. -/
def lateRun : List Event :=
  [.handle 0 { exec := .plain }, .external { jobid := 1, status := .completed, taskIndex := 0 } {},
    .external { jobid := 1, status := .running, taskIndex := 0 } {},
    .external { jobid := 1, status := .completed, taskIndex := 0 } {}]

/-- The second notification brings the task back, the third one counts it again: the workflow is over, but for task
1. -/
theorem counted_twice_of_lateRun :
    ¬ EndsOnce 0 ((twoTasks.toWorkflow.submit [0, 1]).run 0 lateRun).wf.trace ∧
      ¬ Lib.Along (Sys.step 0) (KeepsTerminal 0 0) (twoTasks.toWorkflow.submit [0, 1]) lateRun ∧
      ((twoTasks.toWorkflow.submit [0, 1]).run 0 lateRun).wf.residualTasksNum = 0 ∧
      (((twoTasks.toWorkflow.submit [0, 1]).run 0 lateRun).wf.tasks 1).status = .pending := by
  refine ⟨fun h => absurd h.1 (by decide), fun h => ?_, by decide, by decide⟩
  obtain ⟨-, -, hrunning, -⟩ := h
  exact absurd ((hrunning rfl).1 (by decide)) (by decide)

end Steps

end OphidiaWorkflow
