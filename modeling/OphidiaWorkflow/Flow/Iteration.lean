import OphidiaWorkflow.Engine.Layout

/-!
A new iteration of a loop: what `oph_workflow_reset_task` brings back of the tasks of the loop, and what
`oph_workflow_disable_deps` then lets each of them wait for.
-/
namespace OphidiaWorkflow

/-- The end of loop `i` is about to start a new iteration of the loop that has pushed `frame`. -/
structure Iterates (wf : Workflow) (i : Nat) (frame : Frame) : Prop where
  found : findFrame wf (wf.tasks i).parent = some frame
  bound : (wf.vars frame.name).isSome
  more : frame.index + 1 < frame.valuesNum

theorem Iterates.endforImpl_eq {wf : Workflow} {i : Nat} {frame : Frame} (h : Iterates wf i frame) :
    endforImpl wf i = (newIteration (rebind wf frame) frame.caller i frame, .noResponse) := by
  have hbound : (wf.vars frame.name).isNone = false := by
    rw [Option.isNone_eq_false_iff]
    exact h.bound
  simp only [endforImpl, h.found, hbound, Bool.false_eq_true, ↓reduceIte, h.more]

theorem iterates_of_noResponse {wf : Workflow} {i : Nat} (h : (endforImpl wf i).2 = .noResponse) :
    ∃ frame, Iterates wf i frame := by
  unfold endforImpl at h
  split at h
  · cases h
  case h_2 frame hf =>
    split_ifs at h with hv hmore
    refine ⟨frame, hf, ?_, hmore⟩
    rwa [Bool.not_eq_true, Option.isNone_eq_false_iff] at hv

/-! ## The tasks of the loop -/

/-- The dependents that the frame has saved; the recursion stops at the end of the loop. -/
def savedNext (i : Nat) (frame : Frame) (a : Nat) : List Nat :=
  if a = i then [] else (frame.tasks a).dependentsIndexes

/-- A task of the loop, its end included, that has been started or unselected: it is reached from the head of the loop
through tasks of this kind. -/
def LoopTask (wf : Workflow) (i : Nat) (frame : Frame) : Nat → Prop :=
  Lib.Closing.Reached (fun (wf : Workflow) b => (wf.tasks b).status = .unknown) (savedNext i frame)
    (wf.tasks frame.caller).dependentsIndexes wf

/-- What a task has to be when a new iteration starts. -/
structure Restored (saved : StackTask) (t : Task) : Prop where
  status : t.status = .unknown
  arguments : t.arguments = saved.arguments
  deps : t.deps.map (fun d => d.taskIndex) = saved.depsTaskIndex
  dependents : t.dependentsIndexes = saved.dependentsIndexes
  residualDepsNum : t.residualDepsNum = saved.residualDepsNum
  outputs : t.outputs = []
  response : t.response = none
  residualLightTasksNum : t.residualLightTasksNum = 0
  unsubmitted : t.Unsubmitted

/-- `oph_check_for_massive_operation` does not tell the two tasks apart. -/
def TreatedAlike (t₀ t : Task) : Prop :=
  ∀ ophAutoRetry answer,
    (checkForMassiveOperation ophAutoRetry answer t).2 = (checkForMassiveOperation ophAutoRetry answer t₀).2

section Reset

variable {wf₀ wf : Workflow} {i : Nat} {frame : Frame}

/-- Number of tasks to be reset yet. -/
def active (n : Nat) (wf : Workflow) : Nat :=
  ((Finset.range n).filter fun b => (wf.tasks b).status ≠ .unknown).card

theorem active_lt {wf wf' : Workflow} {n a : Nat} (ha : a < n) (hs : (wf.tasks a).status ≠ .unknown)
    (hs' : (wf'.tasks a).status = .unknown) (h : ∀ b, (wf.tasks b).status = .unknown → (wf'.tasks b).status = .unknown) :
    active n wf' < active n wf := by
  apply Finset.card_lt_card
  rw [Finset.ssubset_iff_of_subset]
  · exact ⟨a, by simp [ha, hs], by simp [hs']⟩
  · intro b hb
    rw [Finset.mem_filter] at hb ⊢
    exact ⟨hb.1, fun hu => hb.2 (h b hu)⟩

theorem resetVisit_status {s t : Workflow × Nat} {a : Nat} (hv : resetVisit frame s a = some t) (b : Nat) :
    (t.1.tasks b).status = if b = a then .unknown else (s.1.tasks b).status := by
  unfold resetVisit at hv
  split_ifs at hv
  cases hv
  simp only [Workflow.record, Workflow.modify_tasks]
  split <;> rfl

/-- The reset is a traversal that closes the tasks it visits by setting their status to `UNKNOWN`. -/
theorem resetTask_closing (hf : ∀ k, (frame.tasks k).Fits (wf₀.Allows k) (wf₀.tasks k)) :
    Lib.Closing (resetVisit frame) (fun s a => nextTasks i s.1 a) (fun s b => (s.1.tasks b).status = .unknown)
      (savedNext i frame) (fun s => Layout wf₀ s.1) (fun a => a < wf₀.tasksNum) fun s => active wf₀.tasksNum s.1 where
  refuse := fun s a hc => by simp only [resetVisit, hc, ↓reduceIte]
  accept := fun s a hs ha hc => by
    have hv : resetVisit frame s a =
        some ((s.1.modify a (Task.reset (frame.tasks a))).record (.reset a), s.2 + 1) := by
      simp only [resetVisit, hc, ↓reduceIte]
    have hst := resetVisit_status hv
    have hclosed := (hst a).trans (if_pos rfl)
    refine ⟨_, hv, hclosed, active_lt ha hc hclosed fun b hb => ?_, ?_⟩
    · rw [hst b, hb, ite_self]
    · have hlen : (frame.tasks a).dependentsIndexes.length = (s.1.tasks a).dependentsIndexes.length :=
        (hf a).dependents.trans (hs.task a).dependents.symm
      simp only [nextTasks, savedNext, Workflow.record, Workflow.modify_tasks_self, Task.reset_dependents hlen]
  keeps := fun s a t hs hv => resetVisit_layout hs (hf a) hv
  mono := fun s a t hv b hb => by rw [resetVisit_status hv b, hb, ite_self]
  only := fun s a t hv b hb => by
    rw [resetVisit_status hv b] at hb
    split at hb
    · exact .inr ‹_›
    · exact .inl hb
  valid_next := fun a _ b hb => by
    unfold savedNext at hb
    split at hb
    · exact absurd hb List.not_mem_nil
    · exact ((hf a).ranged b hb).1

theorem resetTask_cases (fuel : Nat) (l : List Nat) (b : Nat) :
    (resetTask i frame fuel l (wf, 0)).1.tasks b = wf.tasks b ∨ (wf.tasks b).status ≠ .unknown ∧
      (resetTask i frame fuel l (wf, 0)).1.tasks b = (wf.tasks b).reset (frame.tasks b) := by
  unfold resetTask
  refine Lib.traverse_induct (fun s : Workflow × Nat => s.1.tasks b = wf.tasks b ∨ (wf.tasks b).status ≠ .unknown ∧
    s.1.tasks b = (wf.tasks b).reset (frame.tasks b)) (fun s a t hs hv => ?_) fuel l (.inl rfl)
  unfold resetVisit at hv
  split_ifs at hv with hu
  cases hv
  simp only [Workflow.record, Workflow.modify_tasks]
  split_ifs with hb
  · subst hb
    rcases hs with hs | ⟨-, hs⟩
    · rw [hs] at hu ⊢
      exact .inr ⟨hu, rfl⟩
    · exact absurd (by rw [hs]; rfl) hu
  · exact hs

theorem loopTask_iff {b : Nat} : LoopTask wf i frame b ↔
    Lib.Closing.Reached (fun (s : Workflow × Nat) b => (s.1.tasks b).status = .unknown) (savedNext i frame)
      (wf.tasks frame.caller).dependentsIndexes (wf, 0) b := by
  unfold LoopTask
  constructor
  · intro h
    apply h.imp
    exact fun b hn => hn
  · intro h
    apply h.imp
    exact fun b hn => hn

theorem resetBody_tasks (h : Layout wf₀ wf) (hf : ∀ k, (frame.tasks k).Fits (wf₀.Allows k) (wf₀.tasks k)) (b : Nat) :
    (LoopTask wf i frame b →
        (resetBody wf frame.caller i frame).tasks b = (wf.tasks b).reset (frame.tasks b)) ∧
      (¬ LoopTask wf i frame b → (resetBody wf frame.caller i frame).tasks b = wf.tasks b) := by
  have hclosing := resetTask_closing (i := i) hf
  have hvalid : ∀ b ∈ (wf.tasks frame.caller).dependentsIndexes, b < wf₀.tasksNum :=
    fun b hb => ((h.task frame.caller).ranged b hb).1
  have hmeasure : active wf₀.tasksNum wf < wf.tasksNum + 1 := by
    rw [h.tasksNum, Nat.lt_succ_iff]
    calc active wf₀.tasksNum wf ≤ (Finset.range wf₀.tasksNum).card := Finset.card_filter_le _ _
      _ = wf₀.tasksNum := Finset.card_range _
  have hdone := hclosing.done (wf.tasksNum + 1) _ (wf, 0) h hvalid hmeasure
  have hcases := @resetTask_cases wf i frame (wf.tasksNum + 1) (wf.tasks frame.caller).dependentsIndexes b
  refine ⟨fun hb => ?_, fun hb => ?_⟩
  · have hnot : (wf.tasks b).status ≠ .unknown := hb.not_closed
    have hclosed := hdone.closed_of_reached (loopTask_iff.mp hb)
    rcases hcases with hsame | ⟨-, hreset⟩
    · exact absurd (hsame ▸ hclosed) hnot
    · exact hreset
  · rcases hcases with hsame | ⟨hnot, hreset⟩
    · exact hsame
    · have hclosed : ((resetTask i frame (wf.tasksNum + 1) (wf.tasks frame.caller).dependentsIndexes (wf, 0)).1.tasks
          b).status = .unknown := by
        rw [hreset]
        rfl
      exact absurd (loopTask_iff.mpr (hclosing.reached_of_closed _ _ (wf, 0) h hvalid hnot hclosed)) hb

/-- A task without light tasks is brought back to what the loop has saved of it. -/
theorem restored_reset_iff {t t₀ : Task} {saved : StackTask} {allowed : Nat → Prop} (h : t₀.Laid allowed t)
    (hs : saved.Fits allowed t₀) :
    Restored saved (t.reset saved) ↔ t.lightTasks = none := by
  constructor
  · intro hr
    exact hr.unsubmitted.lightTasks
  · intro hl
    exact ⟨rfl, rfl, Task.reset_deps (hs.deps.trans h.deps.symm),
      Task.reset_dependents (hs.dependents.trans h.dependents.symm), rfl, rfl, rfl, rfl, ⟨hl, rfl, rfl, rfl⟩⟩

theorem treatedAlike_of_unsubmitted {t t' : Task} (h : t.Unsubmitted) (h' : t'.Unsubmitted)
    (hr : t'.retryNum = t.retryNum) : TreatedAlike t t' := by
  intro ophAutoRetry answer
  have hauto : t'.autoRetry ophAutoRetry = t.autoRetry ophAutoRetry := by
    simp [Task.autoRetry, h.residualAutoRetryNum, h'.residualAutoRetryNum]
  have hmanual : t'.manualRetry = t.manualRetry := by
    simp [Task.manualRetry, h.residualRetryNum, h'.residualRetryNum, hr]
  unfold checkForMassiveOperation
  rw [hauto, hmanual, h.lightTasksNum, h'.lightTasksNum, h.lightTasks, h'.lightTasks]
  split
  · rfl
  · simp only [ne_eq, not_true_eq_false, ↓reduceIte, Option.isSome_none, Bool.false_eq_true]
    cases answer with
    | single r => cases r <;> rfl
    | _ => rfl

end Reset

section Restore

variable {wf₀ wf : Workflow} {i : Nat} {frame : Frame}

theorem loopTask_rebind {b : Nat} : LoopTask (rebind wf frame) i frame b ↔ LoopTask wf i frame b := by
  unfold LoopTask
  constructor
  · intro h
    apply h.imp
    exact fun b hn => hn
  · intro h
    apply h.imp
    exact fun b hn => hn

theorem Iterates.fits (h : Layout wf₀ wf) (hi : Iterates wf i frame) :
    (wf₀.tasks frame.caller).operator = .for ∧ ∀ k, (frame.tasks k).Fits (wf₀.Allows k) (wf₀.tasks k) :=
  h.frames frame (findFrame_mem hi.found).1

/--
Whenever a new iteration starts, in any run, a task of the loop is brought back to what the loop has saved of it, and is
then treated as it was the first time, exactly if it has been started and its light tasks have never been allocated; a
task that has not been started is left as it is.
-/
theorem restored_iff_of_run (h₀ : wf₀.Submittable) (hrun : RunsTo wf₀ wf) (hi : Iterates wf i frame) (b : Nat) :
    (Restored (frame.tasks b) ((resetBody (rebind wf frame) frame.caller i frame).tasks b) ∧
        TreatedAlike (wf₀.tasks b) ((resetBody (rebind wf frame) frame.caller i frame).tasks b)) ↔
      LoopTask wf i frame b ∧ (wf.tasks b).lightTasks = none ∨
        ¬ LoopTask wf i frame b ∧ Restored (frame.tasks b) (wf.tasks b) := by
  have hL := hrun.layout h₀
  obtain ⟨-, hfits⟩ := hi.fits hL
  have hL' := rebind_layout frame hL
  have hafter := (resetBody_layout (p := frame.caller) (i := i) hL' hfits).task b
  obtain ⟨hin, hout⟩ := resetBody_tasks (i := i) hL' hfits b
  rw [loopTask_rebind] at hin hout
  rw [and_iff_left_of_imp fun hr => treatedAlike_of_unsubmitted (h₀.unsubmitted b) hr.unsubmitted hafter.retryNum]
  by_cases hloop : LoopTask wf i frame b
  · have hiff := restored_reset_iff (hL.task b) (hfits b)
    have hreset : (resetBody (rebind wf frame) frame.caller i frame).tasks b = (wf.tasks b).reset (frame.tasks b) :=
      hin hloop
    rw [hreset, hiff]
    simp only [hloop, true_and, not_true_eq_false, false_and, or_false]
  · have hsame : (resetBody (rebind wf frame) frame.caller i frame).tasks b = wf.tasks b := hout hloop
    rw [hsame]
    simp only [hloop, false_and, not_false_eq_true, true_and, false_or]

end Restore

/-- A loop around one task. -/
def loopRequest : LoadedWorkflow :=
  loadRequest [requestTask "F" .for [] 1, requestTask "A" (.other "oph_a") ["F"] 1, requestTask "D" .endfor ["A"] 1] (by
    simp only [List.forall_mem_cons, List.not_mem_nil, false_implies, implies_true, and_true]
    exact ⟨requestTask_fresh .., requestTask_fresh .., requestTask_fresh ..⟩)

/-- The arguments of a serial loop over two values. -/
def twoValues : ForArgs := { name := some "i", svalues := some ["x", "y"], ivalues := none, parallel := false }

/-- The first iteration: task 1 is a massive operation with one light task if `light` is given. -/
def loopRun (light : Option Nat) : List Event :=
  [.handle 0 { exec := .plain }, .handle 0 { exec := .plain, serve := { forArgs := some twoValues } },
    .handle 0 { exec := .plain },
    .handle 0 { exec := { ExecEnv.plain with massive := fun _ => if light.isSome then .light 1 else .single none } },
    .handle 0 { exec := .plain },
    .external { jobid := 2, status := .completed, taskIndex := 1, lightTaskIndex := light } {},
    .handle 0 { exec := .plain }]

/-- The request is accepted, and the workflow it becomes passes a check. -/
def checkAccepted (r : LoadedWorkflow) (p : Workflow → Bool) : Bool :=
  (indexing r.tasks r.tasksNum).toOption.any fun tasks =>
    validate r.tasksNum { r.toWorkflow with tasks := tasks } = some .success &&
      (validateFco 0 { r.toWorkflow with tasks := tasks }).toOption.any p

theorem accepted_of_checkAccepted {r : LoadedWorkflow} {p : Workflow → Bool} (h : checkAccepted r p = true) :
    ∃ tasks wf₀, indexing r.tasks r.tasksNum = .ok tasks ∧
      validate r.tasksNum { r.toWorkflow with tasks := tasks } = some .success ∧
      validateFco 0 { r.toWorkflow with tasks := tasks } = .ok wf₀ ∧ p wf₀ = true := by
  obtain ⟨tasks, ht, h⟩ := Lib.exists_ok_of_any h
  rw [Bool.and_eq_true, decide_eq_true_eq] at h
  obtain ⟨wf₀, hwf, hp⟩ := Lib.exists_ok_of_any h.2
  exact ⟨tasks, wf₀, ht, h.1, hwf, hp⟩

theorem submittable_of_checkAccepted {r : LoadedWorkflow} {p : Workflow → Bool} (h : checkAccepted r p = true) :
    ∃ wf₀ : Workflow, wf₀.Submittable ∧ p wf₀ = true := by
  obtain ⟨tasks, wf₀, ht, hv, hwf, hp⟩ := accepted_of_checkAccepted h
  exact ⟨wf₀, submittable_of_validateFco ht hv hwf, hp⟩

/-- The request has passed all the checks and, after the run `es`, task `i` is about to start a new iteration. -/
structure AtIteration (r : LoadedWorkflow) (es : List Event) (i : Nat) (wf₀ wf : Workflow) (frame : Frame) : Prop where
  accepted : ∃ tasks, indexing r.tasks r.tasksNum = .ok tasks ∧
    validate r.tasksNum { r.toWorkflow with tasks := tasks } = some .success ∧
    validateFco 0 { r.toWorkflow with tasks := tasks } = .ok wf₀
  run : ((wf₀.submit wf₀.initialTasks).run 0 es).wf = wf
  iterates : Iterates wf i frame

def checkIteration (r : LoadedWorkflow) (es : List Event) (i : Nat) (p : Workflow → Frame → Bool) : Bool :=
  (indexing r.tasks r.tasksNum).toOption.any fun tasks =>
    validate r.tasksNum { r.toWorkflow with tasks := tasks } = some .success &&
      (validateFco 0 { r.toWorkflow with tasks := tasks }).toOption.any fun wf₀ =>
        let wf := ((wf₀.submit wf₀.initialTasks).run 0 es).wf
        (findFrame wf (wf.tasks i).parent).any fun frame =>
          ((wf.vars frame.name).isSome && frame.index + 1 < frame.valuesNum) && p wf frame

theorem atIteration_of_check {r : LoadedWorkflow} {es : List Event} {i : Nat} {p : Workflow → Frame → Bool}
    (h : checkIteration r es i p = true) : ∃ wf₀ wf frame, AtIteration r es i wf₀ wf frame ∧ p wf frame = true := by
  obtain ⟨tasks, ht, h⟩ := Lib.exists_ok_of_any h
  rw [Bool.and_eq_true, decide_eq_true_eq] at h
  obtain ⟨wf₀, hwf, h'⟩ := Lib.exists_ok_of_any h.2
  obtain ⟨frame, hf, h''⟩ := (Option.any_eq_true _ _).mp h'
  rw [Bool.and_eq_true, Bool.and_eq_true, decide_eq_true_eq] at h''
  exact ⟨wf₀, _, frame, ⟨⟨tasks, ht, h.1, hwf⟩, rfl, hf, h''.1.1, h''.1.2⟩, h''.2⟩

namespace AtIteration

variable {r : LoadedWorkflow} {es : List Event} {i : Nat} {wf₀ wf : Workflow} {frame : Frame}

theorem submittable (h : AtIteration r es i wf₀ wf frame) : wf₀.Submittable := by
  obtain ⟨tasks, ht, hv, hwf⟩ := h.accepted
  exact submittable_of_validateFco ht hv hwf

theorem runsTo (h : AtIteration r es i wf₀ wf frame) : RunsTo wf₀ wf :=
  ⟨0, wf₀.initialTasks, es, h.run⟩

end AtIteration

/-- Without light tasks, task 1 is ready for the second iteration. -/
theorem restored_iff_of_run_loop :
    ∃ wf₀ wf frame, AtIteration loopRequest (loopRun none) 2 wf₀ wf frame ∧
      Restored (frame.tasks 1) ((resetBody (rebind wf frame) frame.caller 2 frame).tasks 1) := by
  obtain ⟨wf₀, wf, frame, h, hp⟩ := @atIteration_of_check loopRequest (loopRun none) 2
    (fun wf frame => (wf.tasks frame.caller).dependentsIndexes = [1] ∧ (wf.tasks 1).status ≠ .unknown ∧
      (wf.tasks 1).lightTasks = none) (by decide)
  obtain ⟨hd, hs, hl⟩ := of_decide_eq_true hp
  have hloop : LoopTask wf 2 frame 1 := .start (by simp [hd]) hs
  exact ⟨wf₀, wf, frame, h, ((restored_iff_of_run h.submittable h.runsTo h.iterates 1).mpr (.inl ⟨hloop, hl⟩)).1⟩

/-- A task without retries whose light tasks are counted no more, but still there, cannot be submitted. -/
theorem not_treatedAlike_of_lightTasks {t₀ t : Task} (h₀ : t₀.Unsubmitted) (hr₀ : t₀.retryNum = 1) (hr : t.retryNum = 1)
    (hn : t.lightTasksNum = 0) (hl : t.lightTasks.isSome) : ¬ TreatedAlike t₀ t := by
  intro h
  have hmanual₀ : t₀.manualRetry = false := by simp [Task.manualRetry, hr₀]
  have hmanual : t.manualRetry = false := by simp [Task.manualRetry, hr]
  have hdiffer :
      (checkForMassiveOperation 0 (.single none) t).2 ≠ (checkForMassiveOperation 0 (.single none) t₀).2 := by
    simp [checkForMassiveOperation, Task.autoRetry, hmanual₀, hmanual, h₀.lightTasksNum, h₀.lightTasks, hn, hl]
  exact hdiffer (h 0 (.single none))

/-- The light tasks are freed but their pointer is kept: in the second iteration the task cannot be submitted. -/
theorem not_restored_of_light :
    ∃ wf₀ wf frame, AtIteration loopRequest (loopRun (some 0)) 2 wf₀ wf frame ∧ LoopTask wf 2 frame 1 ∧
      ¬ Restored (frame.tasks 1) ((resetBody (rebind wf frame) frame.caller 2 frame).tasks 1) ∧
      ¬ TreatedAlike (wf₀.tasks 1) ((resetBody (rebind wf frame) frame.caller 2 frame).tasks 1) := by
  obtain ⟨wf₀, wf, frame, h, hp⟩ := @atIteration_of_check loopRequest (loopRun (some 0)) 2
    (fun wf frame => (wf.tasks frame.caller).dependentsIndexes = [1] ∧ (wf.tasks 1).status ≠ .unknown ∧
      (wf.tasks 1).retryNum = 1 ∧ (wf.tasks 1).lightTasks.isSome) (by decide)
  obtain ⟨hd, hs, hr, hl⟩ := of_decide_eq_true hp
  have hloop : LoopTask wf 2 frame 1 := .start (by simp [hd]) hs
  have hL := h.runsTo.layout h.submittable
  obtain ⟨-, hfits⟩ := h.iterates.fits hL
  have hreset : (resetBody (rebind wf frame) frame.caller 2 frame).tasks 1 = (wf.tasks 1).reset (frame.tasks 1) :=
    (resetBody_tasks (rebind_layout frame hL) hfits 1).1 (loopTask_rebind.mpr hloop)
  refine ⟨wf₀, wf, frame, h, hloop, ?_, ?_⟩
  · rw [hreset, restored_reset_iff (hL.task 1) (hfits 1)]
    exact fun hn => absurd hl (by simp [hn])
  · rw [hreset]
    have hr₀ : (wf₀.tasks 1).retryNum = 1 := (hL.task 1).retryNum.symm.trans hr
    exact not_treatedAlike_of_lightTasks (h.submittable.unsubmitted 1) hr₀ hr rfl hl

end OphidiaWorkflow
