import OphidiaWorkflow.Engine.Completion

/-!
Progress: no task that may start is forgotten.

A task is looked at only when a list of tasks that contains it is executed. Where the jobs succeed, each of them says so
once and the OphidiaDB answers, every task whose dependences are satisfied stands in a list that is still to be
executed; so the workflow does not stop before its last task.
-/
namespace OphidiaWorkflow

section Runs

variable {w : AcceptedWorkflow} {wf wf' : Workflow} {ophAutoRetry : Nat} {env : ExecEnv} {i : Nat}

/-- A task that starts is not waiting any more, and the other tasks are left alone. -/
theorem startTask_open (h : Open w wf) (he : env.Grants) (hs : startTest wf i = true) :
    Open w (startTask ophAutoRetry env wf i).1 ∧
      ∀ k, startTest (startTask ophAutoRetry env wf i).1 k = true → startTest wf k = true ∧ k ≠ i := by
  obtain ⟨hlater, hne⟩ := startTask_later ophAutoRetry env i wf
  have hsubmits := @startTask_local ophAutoRetry env he wf i
  have hl := hsubmits.minor
  have hunknown : (wf.tasks i).status = .unknown := by
    simp only [startTest, Bool.and_eq_true, decide_eq_true_eq] at hs
    exact hs.2
  have hi : i < wf.tasksNum := by
    simp only [startTest, Bool.and_eq_true, Bool.or_eq_true, decide_eq_true_eq, h.base.live.2.2] at hs
    simpa using hs.1.1
  have hfresh := (h.sound i).fresh hunknown
  have hsub := @startTask_submitted ophAutoRetry env i wf he hfresh.1 hfresh.2
  have hnot : .started i ∉ wf.trace := h.dep.waiting i hunknown
  have hdep := h.dep.started hs hlater hne
  generalize (startTask ophAutoRetry env wf i).1 = wf' at *
  have hB : Ongoing w (wf.record (.started i)) := by
    refine ⟨h.base.tasksNum, h.base.live, h.base.status, h.base.dependents, h.base.single, h.base.arguments,
      fun k hk => ?_, fun k hk => ?_, fun k hk => ?_, fun k j hk => ?_, fun a ha => ?_, ?_⟩
    · exact List.mem_cons_of_mem _ (h.base.started k hk)
    · rcases List.mem_cons.mp hk with hk | hk
      · cases hk
        exact hi
      · exact h.base.inside k hk
    · exact List.mem_cons_of_mem _ (h.base.begun k (by simpa [Workflow.record] using hk))
    · exact List.mem_cons_of_mem _ (h.base.begunLight k j (by simpa [Workflow.record] using hk))
    · exact h.base.released a (by simpa [Workflow.record] using ha)
    · rw [show (wf.record (.started i)).residualTasksNum = wf.residualTasksNum from rfl, h.base.residual]
      simp [Workflow.record]
  have hr : wf'.residualTasksNum = wf.residualTasksNum := congrArg (fun e => e.2.1) hl.engine
  have hcompleted (k : Nat) : .completed k ∈ wf'.trace ↔ .completed k ∈ wf.trace := by
    rw [hl.mem_iff id]
    simp [Workflow.record]
  have hlight (k j : Nat) : .endedLight k j ∈ wf'.trace ↔ .endedLight k j ∈ wf.trace := by
    rw [hsubmits.mem_iff id]
    simp [Workflow.record]
  refine ⟨⟨hdep, hB.onward hl List.mem_cons_self, fun k => ?_, by rw [hr]; exact h.more⟩, fun k hk => ?_⟩
  · by_cases hki : k = i
    · subst hki
      refine ⟨fun _ => hsub.idjob, fun hu => absurd hu hsub.status, fun _ _ => ?_, hsub.light, fun hn => ?_,
        fun hn => ?_⟩
      · rw [hsub.outputs]
        exact (h.sound k).outputs hfresh.2 fun hc => hnot (h.base.begun k hc)
      · rw [hsub.residual hn, eq_comm, Int.natCast_inj, List.countP_eq_length.mpr, List.length_range]
        intro j _
        rw [decide_eq_true_iff, hlight]
        exact fun hj => hnot (h.base.begunLight k j hj)
      · rw [hcompleted, hsub.residual hn]
        exact iff_of_false (fun hc => hnot (h.base.begun k hc)) (by omega)
    · rw [hl.others k hki]
      exact (h.sound k).congr rfl (hcompleted k) (hlight k)
  · have hki : k ≠ i := by
      rintro rfl
      simp only [startTest, Bool.and_eq_true, decide_eq_true_eq] at hk
      exact hne hk.2
    have heng := hl.engine
    simp only [Workflow.engine, Prod.mk.injEq] at heng
    simp only [startTest, Bool.and_eq_true, decide_eq_true_eq, heng.1, heng.2.2.2.2, hl.others k hki] at hk ⊢
    exact ⟨hk, hki⟩

/-- After a list has been executed none of its tasks is waiting. -/
theorem execute_open (h : Open w wf) (he : env.Grants) (l : List Nat) :
    Open w (execute ophAutoRetry env l wf).1 ∧
      ∀ k, startTest (execute ophAutoRetry env l wf).1 k = true → startTest wf k = true ∧ k ∉ l := by
  unfold execute
  rw [if_pos (.inl h.base.status)]
  induction l generalizing wf with
  | nil => exact ⟨h, fun k hk => ⟨hk, List.not_mem_nil⟩⟩
  | cons i l ih =>
    have hi : Open w (executeTask ophAutoRetry env wf i).1 ∧
        ∀ k, startTest (executeTask ophAutoRetry env wf i).1 k = true → startTest wf k = true ∧ k ≠ i := by
      unfold executeTask
      split
      · next hs => exact startTask_open h he hs
      · next hs => exact ⟨h, fun k hk => ⟨hk, fun hki => hs (hki ▸ hk)⟩⟩
    rw [Lib.foldOut]
    obtain ⟨ho, hk⟩ := ih hi.1
    refine ⟨ho, fun k hks => ?_⟩
    obtain ⟨h₁, hl⟩ := hk k hks
    obtain ⟨h₂, hki⟩ := hi.2 k h₁
    exact ⟨h₂, List.not_mem_cons_of_ne_of_not_mem hki hl⟩

theorem execute_concluded (h : Concluded w wf) (he : env.Grants) (l : List Nat) :
    Concluded w (execute ophAutoRetry env l wf).1 := by
  unfold execute
  split
  · refine Lib.foldOut_induct (fun wf' _ => Concluded w wf') h fun i _ wf' _ h' => ?_
    unfold executeTask
    split
    · have hrec : Concluded w (wf'.record (.started i)) :=
        ⟨h'.finished, h'.status, h'.tasksNum, h'.operator, fun k hk => List.mem_cons_of_mem _ (h'.completed k hk)⟩
      exact hrec.onward (startTask_local he wf' i).minor
    · exact h'
  · exact h

/-- The environment grants what is asked for, and what it delivers fits, as long as it matters. -/
def Favourable (s : Sys) (e : Event) : Prop :=
  (match e with
    | .handle _ env => env.exec.Grants ∧ env.notify.dbFails = false
    | .external _ env => env.dbFails = false) ∧
  ∀ n ∈ s.delivered e, s.wf.finalTask = true ∨ s.wf.dropped = true ∨ n.Fits s.wf

/-- The workflow is over, or it goes on and no task that may start is forgotten. -/
def Awake (w : AcceptedWorkflow) (s : Sys) : Prop :=
  Concluded w s.wf ∨ (Open w s.wf ∧ ∀ k, startTest s.wf k = true → ∃ l, .execute l ∈ s.todo ∧ k ∈ l)

/-- Pending lists stay, and those that a piece of work leaves are added. -/
theorem Continues.awake {s : Sys} {r : Workflow × List Todo} {todo : List Todo} (h : Continues w s.wf r)
    (hs : ∀ k, startTest s.wf k = true → ∃ l, .execute l ∈ s.todo ∧ k ∈ l)
    (hold : ∀ l, .execute l ∈ s.todo → .execute l ∈ todo) : Awake w { wf := r.1, todo := todo ++ r.2 } := by
  rcases h with h | ⟨ho, hk⟩
  · exact .inl h
  · refine .inr ⟨ho, fun k hks => ?_⟩
    rcases hk k hks with h | ⟨l, hl, hkl⟩
    · obtain ⟨l, hl, hkl⟩ := hs k h
      exact ⟨l, List.mem_append_left _ (hold l hl), hkl⟩
    · exact ⟨l, List.mem_append_right _ hl, hkl⟩

theorem step_awake (hw : w.Plain) {s : Sys} {e : Event} (h : Awake w s) (he : Favourable s e) :
    Awake w (s.step ophAutoRetry e) := by
  obtain ⟨hgrants, hfits⟩ := he
  have hdeliver (n : Notification) (env : NotifyEnv) (todo : List Todo) (hn : n ∈ s.delivered e)
      (hdb : env.dbFails = false) (hold : ∀ l, .execute l ∈ s.todo → .execute l ∈ todo) :
      Awake w { wf := (notify ophAutoRetry env n s.wf).1, todo := todo ++ (notify ophAutoRetry env n s.wf).2 } := by
    rcases h with h | ⟨ho, hk⟩
    · exact .inl h.notify
    · obtain ⟨-, hdropped, hfinal⟩ := ho.base.live
      have hfit : n.Fits s.wf := by
        rcases hfits n hn with hf | hf | hf
        · rw [hfinal] at hf
          cases hf
        · rw [hdropped] at hf
          cases hf
        · exact hf
      exact (notify_continues ho hfit hdb).awake hk hold
  cases e with
  | external n env => exact hdeliver n env s.todo rfl hgrants fun _ hl => hl
  | handle k env =>
    cases hk : s.todo[k]? with
    | none => rwa [Sys.step_handle_none ophAutoRetry hk]
    | some t =>
      rw [Sys.step_handle_some ophAutoRetry hk]
      have hold (ht : ∀ l, t ≠ .execute l) (l : List Nat) (hl : .execute l ∈ s.todo) :
          .execute l ∈ s.todo.eraseIdx k := by
        obtain ⟨m, hm⟩ := List.mem_iff_getElem?.mp hl
        refine List.mem_eraseIdx_iff_getElem?.mpr ⟨m, fun hmk => ?_, hm⟩
        rw [hmk, hk] at hm
        exact ht l (Option.some.inj hm)
      cases t with
      | execute l =>
        rcases h with h | ⟨ho, hs⟩
        · exact .inl (execute_concluded h hgrants.1 l)
        · obtain ⟨ho', hs'⟩ := @execute_open w s.wf ophAutoRetry env.exec ho hgrants.1 l
          refine .inr ⟨ho', fun i hi => ?_⟩
          obtain ⟨hi, hil⟩ := hs' i hi
          obtain ⟨l', hl', hil'⟩ := hs i hi
          obtain ⟨m, hm⟩ := List.mem_iff_getElem?.mp hl'
          refine ⟨l', List.mem_append_left _ (List.mem_eraseIdx_iff_getElem?.mpr ⟨m, fun hmk => ?_, hm⟩), hil'⟩
          rw [hmk, hk] at hm
          cases hm
          exact hil hil'
      | serve r =>
        have hop : (s.wf.tasks r.taskId).operator.isFlowControl = false := by
          rcases h with h | ⟨ho, -⟩
          · rw [h.operator]
            exact hw _
          · rw [ho.dep.operator]
            exact hw _
        have hwf : (Todo.handle ophAutoRetry env s.wf (.serve r)).1 = s.wf := serve_wf env.serve r hop
        rw [hwf]
        refine h.imp id fun ⟨ho, hs⟩ => ⟨ho, fun i hi => ?_⟩
        obtain ⟨l, hl, hil⟩ := hs i hi
        exact ⟨l, List.mem_append_left _ (hold (fun _ => by simp) l hl), hil⟩
      | special n => exact hdeliver n env.notify _ (by simp [Sys.delivered, hk]) hgrants.2 (hold fun _ => by simp)
      | notify n => exact hdeliver n env.notify _ (by simp [Sys.delivered, hk]) hgrants.2 (hold fun _ => by simp)

theorem AcceptedWorkflow.acyclic (w : AcceptedWorkflow) : Lib.Acyclic (DepEdge w.tasks w.loaded.tasksNum) := by
  obtain ⟨hindexed, -⟩ := indexing_indexed w.loaded.fresh w.indexed
  obtain ⟨code, hcode, hiff⟩ := topologicalPass_eq hindexed le_rfl
  have hpass : topologicalPass w.fuel w.tasks w.loaded.tasksNum = some .success := by
    have hv := w.validated
    unfold validate at hv
    split at hv
    · cases hv
    · split at hv
      · cases hv
      · exact hv
  refine hiff.mp (Lib.eq_of_fuel (fun fuel => topologicalPass fuel w.tasks w.loaded.tasksNum) (fun fuel r hr => ?_)
    hcode hpass)
  obtain ⟨st, hst, hr⟩ := Option.map_eq_some_iff.mp hr
  exact Option.map_eq_some_iff.mpr ⟨st, passLoop_succ hst, hr⟩

/-- A loaded workflow waits for all its tasks, and those without dependences are in the list it is submitted with. -/
theorem init_awake (hsingle : ∀ i, ∀ d ∈ (w.tasks i).deps, d.type ≠ .single) : Awake w w.init := by
  obtain ⟨-, hskel⟩ := indexing_indexed w.loaded.fresh w.indexed
  have hview (i : Nat) {α : Type} (f : Task → α) (hf : ∀ t : Task, f t.skeleton = f t) :
      f (w.tasks i) = f (w.loaded.tasks i) := by
    rw [← hf, hskel i, hf]
  have htrace : w.init.wf.trace = [] := w.loaded.trace_eq
  have hmem (e : Entry) : e ∉ w.init.wf.trace := by simp [htrace]
  have hstatus (i : Nat) : (w.tasks i).status = .unknown :=
    (hview i (fun t => t.status) fun _ => rfl).trans (w.loaded.fresh i).status
  have hlights (i : Nat) : (w.tasks i).lightTasks = none :=
    (hview i (fun t => t.lightTasks) fun _ => rfl).trans (w.loaded.fresh i).lightTasks
  have hnum (i : Nat) : (w.tasks i).lightTasksNum = 0 :=
    (hview i (fun t => t.lightTasksNum) fun _ => rfl).trans (w.loaded.fresh i).lightTasksNum
  have harguments (i : Nat) (hi : i < w.loaded.tasksNum) : (w.tasks i).arguments ≠ [] :=
    (hview i (fun t => t.arguments) fun _ => rfl) ▸ w.loaded.arguments_ne_nil i hi
  have hpos : 0 < w.loaded.tasksNum := by
    have h := w.indexed
    unfold indexing at h
    split_ifs at h
    omega
  have hresidual : w.init.wf.residualTasksNum = w.loaded.tasksNum := w.loaded.residualTasksNum_eq
  refine .inr ⟨⟨init_depInv w, ⟨rfl, ⟨w.loaded.isClosed_eq, w.loaded.dropped_eq, w.loaded.finalTask_eq⟩, ?_,
    fun _ => rfl,
    hsingle, harguments, fun i hi => absurd (hstatus i) hi, fun i hi => absurd hi (hmem _), fun i hi => absurd hi (hmem _),
    fun i j hi => absurd hi (hmem _), fun a ha => absurd ha (hmem _), ?_⟩, fun i => ?_, ?_⟩, fun k hk => ?_⟩
  · rw [show w.init.wf.status = .unknown from w.loaded.status_eq]
    decide
  · rw [hresidual, List.countP_eq_length.mpr fun i _ => decide_eq_true (hmem _), List.length_range]
    rfl
  · refine ⟨fun h => absurd (hstatus i) h, fun _ => ⟨hlights i, hnum i⟩, fun _ _ => ?_, fun j => ?_,
      fun h => absurd (hnum i) h, fun h => absurd (hnum i) h⟩
    · exact (hview i (fun t => t.outputs) fun _ => rfl).trans (w.loaded.fresh i).outputs
    · show ((w.tasks i).lightTask j).status ≤ .completed
      simp only [Task.lightTask, hlights i, Option.getD_none, List.getD_nil]
      decide
  · rw [hresidual]
    omega
  · have hfinal : w.init.wf.finalTask = false := w.loaded.finalTask_eq
    simp only [startTest, hfinal, Bool.and_eq_true, Bool.or_eq_true, decide_eq_true_eq, Bool.and_false,
      Bool.false_eq_true, or_false] at hk
    have hres : (w.tasks k).residualDepsNum = (w.tasks k).deps.length := by
      have hr : (w.tasks k).residualDepsNum = (w.loaded.tasks k).residualDepsNum :=
        hview k (fun t => t.residualDepsNum) fun _ => rfl
      rw [hr, (w.loaded.fresh k).residualDepsNum, Task.deps_length_of_skeleton (hskel k)]
    have hdeps : (w.tasks k).deps.length < 1 := by
      have hz : (w.tasks k).residualDepsNum = 0 := hk.1.2
      omega
    exact ⟨_, List.mem_singleton_self _, List.mem_filter.mpr ⟨List.mem_range.mpr hk.1.1, decide_eq_true hdeps⟩⟩

theorem run_awake (hw : w.Plain) (hsingle : ∀ i, ∀ d ∈ (w.tasks i).deps, d.type ≠ .single) {es : List Event}
    (hes : Lib.Along (Sys.step ophAutoRetry) Favourable w.init es) : Awake w (w.init.run ophAutoRetry es) :=
  hes.run_induct (Awake w) (init_awake hsingle) fun _ _ h he => step_awake hw h he

/-- Both tasks of `doubleEdge` are executed and complete. -/
def completeRun : List Event :=
  [.handle 0 { exec := .plain }, .handle 0 { exec := .plain },
    .external { jobid := 1, status := .completed, taskIndex := 0 } {}, .handle 0 { exec := .plain },
    .handle 0 { exec := .plain }, .external { jobid := 2, status := .completed, taskIndex := 1 } {}]

theorem doubleEdge_plain : doubleEdge.Plain := by
  intro i
  match i with
  | 0 => rfl
  | 1 => rfl
  | _ + 2 => rfl

theorem doubleEdge_single : ∀ i, ∀ d ∈ (doubleEdge.tasks i).deps, d.type ≠ .single := by
  intro i
  match i with
  | 0 => decide
  | 1 => decide
  | _ + 2 => exact fun d hd => absurd hd List.not_mem_nil

theorem completeRun_favourable : Lib.Along (Sys.step 0) Favourable doubleEdge.init completeRun := by
  refine ⟨⟨⟨ExecEnv.plain_grants, rfl⟩, by decide⟩, ⟨⟨ExecEnv.plain_grants, rfl⟩, by decide⟩, ⟨rfl, by decide⟩,
    ⟨⟨ExecEnv.plain_grants, rfl⟩, by decide⟩, ⟨⟨ExecEnv.plain_grants, rfl⟩, by decide⟩, ⟨rfl, by decide⟩, trivial⟩

/--
No wake-up is lost: along every run in which the jobs succeed and the environment grants what is asked for, in whatever
order threads and notifications come, the workflow is over with all its tasks completed, or `residual_tasks_num` is the
number of the others and every task that passes the start test stands in a list that is still to be executed.
-/
theorem no_lost_wakeup (ophAutoRetry : Nat) (w : AcceptedWorkflow) (hw : w.Plain)
    (hsingle : ∀ i, ∀ d ∈ (w.tasks i).deps, d.type ≠ .single) (es : List Event)
    (hes : Lib.Along (Sys.step ophAutoRetry) Favourable w.init es) :
    Concluded w (w.init.run ophAutoRetry es).wf ∨
      ((w.init.run ophAutoRetry es).wf.residualTasksNum = ((List.range w.loaded.tasksNum).countP fun i =>
          Entry.completed i ∉ (w.init.run ophAutoRetry es).wf.trace) ∧
        ∀ i, startTest (w.init.run ophAutoRetry es).wf i = true →
          ∃ l, .execute l ∈ (w.init.run ophAutoRetry es).todo ∧ i ∈ l) := by
  refine (run_awake hw hsingle hes).imp id fun ⟨ho, hs⟩ => ⟨?_, hs⟩
  rw [ho.base.residual, ho.base.tasksNum]

/-- When task 0 has completed task 1 may start, and it is to be executed. -/
theorem no_lost_wakeup_doubleEdge : ∃ l, .execute l ∈ (doubleEdge.init.run 0 (completeRun.take 3)).todo ∧ 1 ∈ l := by
  have hes := (Lib.Along.append_iff.mp ((List.take_append_drop 3 completeRun).symm ▸ completeRun_favourable)).1
  rcases no_lost_wakeup 0 doubleEdge doubleEdge_plain doubleEdge_single (completeRun.take 3) hes with h | ⟨-, h⟩
  · exact absurd (h.completed 1 (by decide)) (by decide)
  · exact h 1 (by decide)

/-- Nothing is left to be executed, and all the jobs of the tasks that have started have ended. -/
def Sys.Idle (s : Sys) : Prop :=
  (∀ l, .execute l ∉ s.todo) ∧ ∀ i, .started i ∈ s.wf.trace →
    if (s.wf.tasks i).lightTasksNum = 0 then .completed i ∈ s.wf.trace
    else ∀ j < (s.wf.tasks i).lightTasksNum, .endedLight i j ∈ s.wf.trace

/-- A workflow that goes on is not idle: of the tasks that have not completed take one that depends on no other. -/
theorem not_idle {s : Sys} (ho : Open w s.wf)
    (hs : ∀ k, startTest s.wf k = true → ∃ l, .execute l ∈ s.todo ∧ k ∈ l) : ¬ s.Idle := by
  rintro ⟨hexec, hjobs⟩
  have hne : {i | i < w.loaded.tasksNum ∧ .completed i ∉ s.wf.trace}.Nonempty := by
    by_contra hempty
    rw [Set.not_nonempty_iff_eq_empty, Set.eq_empty_iff_forall_notMem] at hempty
    refine ho.more ?_
    rw [ho.base.residual, Int.natCast_eq_zero, List.countP_eq_zero]
    intro i hi
    have := hempty i
    simp only [Set.mem_ofPred_eq, not_and, not_not] at this
    simpa using this (ho.base.tasksNum ▸ List.mem_range.mp hi)
  obtain ⟨v, ⟨hv, hnot⟩, hsource⟩ := w.acyclic.exists_source
    ((Set.finite_lt_nat w.loaded.tasksNum).subset fun i hi => hi.1) hne
  have hstarted : .started v ∉ s.wf.trace := by
    intro hst
    have hj := hjobs v hst
    split at hj
    · exact hnot hj
    · next h0 =>
      refine hnot (((ho.sound v).done_iff h0).mpr ?_)
      rw [(ho.sound v).residual h0, Int.natCast_eq_zero, List.countP_eq_zero]
      intro j hj'
      simpa using hj j (List.mem_range.mp hj')
  have hunknown : (s.wf.tasks v).status = .unknown := by
    by_contra h
    exact hstarted (ho.base.started v h)
  have hwaits : (s.wf.tasks v).residualDepsNum ≠ 0 := by
    intro h0
    obtain ⟨l, hl, -⟩ := hs v (by simp [startTest, ho.base.tasksNum, hv, h0, hunknown])
    exact hexec l hl
  rw [ho.dep.residual, Int.natCast_ne_zero] at hwaits
  obtain ⟨d, hd, hpos⟩ := List.countP_pos_iff.mp (Nat.pos_of_ne_zero hwaits)
  obtain ⟨a, ha⟩ := Int.eq_ofNat_of_zero_le (of_decide_eq_true hpos)
  obtain ⟨-, hedge, han⟩ := ho.dep.mem_dependents hd ha
  have hac : .completed a ∉ s.wf.trace := fun hc => ho.base.released a hc v d hd ha
  exact hsource a ⟨han, hac⟩ hedge

/--
No deadlock: when no list is left to be executed and the jobs of all the tasks that have started have ended, the
workflow is over and all its tasks have completed.
-/
theorem concluded_of_idle (ophAutoRetry : Nat) (w : AcceptedWorkflow) (hw : w.Plain)
    (hsingle : ∀ i, ∀ d ∈ (w.tasks i).deps, d.type ≠ .single) (es : List Event)
    (hes : Lib.Along (Sys.step ophAutoRetry) Favourable w.init es) (hidle : (w.init.run ophAutoRetry es).Idle) :
    Concluded w (w.init.run ophAutoRetry es).wf :=
  (run_awake hw hsingle hes).resolve_right fun ⟨ho, hs⟩ => not_idle ho hs hidle

theorem concluded_of_idle_doubleEdge : Concluded doubleEdge (doubleEdge.init.run 0 completeRun).wf := by
  refine concluded_of_idle 0 doubleEdge doubleEdge_plain doubleEdge_single completeRun completeRun_favourable ⟨?_, ?_⟩
  · have htodo : (doubleEdge.init.run 0 completeRun).todo = [] := by decide
    simp [htodo]
  · have hstarted : ((doubleEdge.init.run 0 completeRun).wf.trace.all fun e =>
        match e with
        | .started i => i < 2
        | _ => true) = true := by decide
    intro i hi
    have hlt : i < 2 := by simpa using List.all_eq_true.mp hstarted _ hi
    match i, hlt with
    | 0, _ =>
      rw [if_pos (by decide)]
      decide
    | 1, _ =>
      rw [if_pos (by decide)]
      decide

end Runs

end OphidiaWorkflow
