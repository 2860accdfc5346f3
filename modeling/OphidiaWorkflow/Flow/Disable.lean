import Mathlib.Tactic.Ring
import OphidiaWorkflow.Flow.Iteration

/-!
What the tasks of a loop wait for in a new iteration. `oph_workflow_disable_deps` goes through a task once for each path
that leads to it, and each time it discounts the same dependences.
-/
namespace OphidiaWorkflow

/-- The dependences that still have to be satisfied in the iteration that starts: those on the head of the loop and
those on tasks that are not over. -/
def openDeps (wf : Workflow) (firstTask b : Nat) : Nat :=
  (wf.tasks b).deps.countP fun d =>
    0 ≤ d.taskIndex && (d.taskIndex = (firstTask : Int) || (wf.tasks d.taskIndex.toNat).status < .completed)

/-- The dependences that are discounted at each visit. -/
def satisfiedDeps (wf : Workflow) (firstTask b : Nat) : Nat := (wf.tasks b).deps.countP (satisfiedDep wf firstTask)

section Paths

open Classical in
/-- The dependents of a task once the tasks of the loop are reset. -/
noncomputable def bodyNext (wf : Workflow) (i : Nat) (frame : Frame) (a : Nat) : List Nat :=
  if LoopTask wf i frame a then (frame.tasks a).dependentsIndexes else (wf.tasks a).dependentsIndexes

open Classical in
/-- The tasks to be executed in the new iteration, each one as many times as there are paths that lead to it from the
head of the loop without going past its end. -/
noncomputable def bodyWalk (wf : Workflow) (i : Nat) (frame : Frame) : List Nat :=
  Lib.walk (fun a => decide ((wf.tasks a).status = .unknown ∨ LoopTask wf i frame a))
    (fun a => if a = i then [] else bodyNext wf i frame a) (wf.tasksNum + 1) (bodyNext wf i frame frame.caller)

/-- Number of paths of the loop that lead to task `b`. -/
noncomputable def paths (wf : Workflow) (i : Nat) (frame : Frame) (b : Nat) : Nat := (bodyWalk wf i frame).count b

end Paths

/-- `c` dependences less to wait for. -/
def Task.discount (c : Int) (t : Task) : Task := { t with residualDepsNum := t.residualDepsNum - c }

section Disable

variable {wf wf' : Workflow} {p i b : Nat}

theorem foldl_discount (q : Dep → Bool) (l : List Dep) (r : Int) :
    l.foldl (fun r d => if q d then r - 1 else r) r = r - l.countP q := by
  induction l generalizing r with
  | nil => simp
  | cons d l ih =>
    rw [List.foldl_cons, ih, List.countP_cons]
    split
    · push_cast
      omega
    · simp

theorem disableTask_tasks (a : Nat) :
    (disableTask wf p a).tasks b = (wf.tasks b).discount (if b = a then (satisfiedDeps wf p b : Int) else 0) := by
  unfold disableTask
  rw [Workflow.modify_tasks]
  split_ifs with hb
  · subst hb
    rw [foldl_discount]
    rfl
  · unfold Task.discount
    rw [sub_zero]

theorem satisfiedDeps_congr (hd : (wf'.tasks b).deps = (wf.tasks b).deps)
    (hs : ∀ k, (wf'.tasks k).status = (wf.tasks k).status) : satisfiedDeps wf' p b = satisfiedDeps wf p b := by
  unfold satisfiedDeps
  rw [hd]
  refine List.countP_congr fun d _ => ?_
  rw [satisfiedDep, satisfiedDep, hs]

theorem foldl_disableTask (l : List Nat) : (l.foldl (fun wf a => disableTask wf p a) wf).tasks b =
    (wf.tasks b).discount (l.count b * satisfiedDeps wf p b) := by
  induction l generalizing wf with
  | nil => simp [Task.discount]
  | cons a l ih =>
    have hsat : satisfiedDeps (disableTask wf p a) p b = satisfiedDeps wf p b :=
      satisfiedDeps_congr (by rw [disableTask_tasks]; rfl) fun k => by rw [disableTask_tasks]; rfl
    have hcount : ((a :: l).count b : Int) * satisfiedDeps wf p b =
        (if b = a then (satisfiedDeps wf p b : Int) else 0) + l.count b * satisfiedDeps wf p b := by
      rw [List.count_cons]
      by_cases hba : b = a
      · subst hba
        simp only [beq_self_eq_true, ↓reduceIte, Nat.cast_add, Nat.cast_one]
        ring
      · have hab : (a == b) = false := by simpa using Ne.symm hba
        simp [hba, hab]
    rw [List.foldl_cons, ih, hsat, disableTask_tasks, hcount]
    unfold Task.discount
    simp only [Int.sub_sub]

/-- The tasks that `oph_workflow_disable_deps` visits. -/
def disableWalk (wf : Workflow) (p i : Nat) : List Nat :=
  Lib.walk (fun a => decide ((wf.tasks a).status = .unknown)) (nextTasks i wf) (wf.tasksNum + 1)
    (wf.tasks p).dependentsIndexes

/-- The recursion as a sequence of visits: neither the statuses nor the dependents change along it. -/
theorem disableBody_eq_foldl :
    disableBody wf p i = (disableWalk wf p i).foldl (fun wf a => disableTask wf p a) wf := by
  refine (Lib.traverse_eq_foldl_walk (fun s : Workflow => ∀ k, (s.tasks k).status = (wf.tasks k).status ∧
    (s.tasks k).dependentsIndexes = (wf.tasks k).dependentsIndexes) (fun s a hs => ?_) (fun s a hs => ?_)
    (fun s a hs k => ?_) _ _ fun _ => ⟨rfl, rfl⟩).1
  · unfold disableVisit
    rw [(hs a).1]
    split_ifs <;> simp_all
  · unfold nextTasks
    rw [(hs a).2]
  · rw [disableTask_tasks]
    exact hs k

theorem openDeps_add_satisfiedDeps : openDeps wf p b + satisfiedDeps wf p b = (wf.tasks b).pendingDeps := by
  unfold openDeps satisfiedDeps Task.pendingDeps
  induction (wf.tasks b).deps with
  | nil => rfl
  | cons d l ih =>
    rw [List.countP_cons, List.countP_cons, List.countP_cons, ← ih]
    simp only [satisfiedDep]
    by_cases h0 : 0 ≤ d.taskIndex
    · by_cases hp : d.taskIndex = p
      · simp [hp]
        omega
      · by_cases hs : (wf.tasks d.taskIndex.toNat).status < .completed
        · have hle : ¬ JobStatus.completed ≤ (wf.tasks d.taskIndex.toNat).status := JobStatus.not_terminal_iff.mpr hs
          simp [h0, hp, hs, hle]
          omega
        · have hle : JobStatus.completed ≤ (wf.tasks d.taskIndex.toNat).status := JobStatus.terminal_iff_not_lt.mpr hs
          simp [h0, hp, hs, hle]
          omega
    · simp [h0]

theorem newIteration_tasks {frame : Frame} (h : resetBody wf p i frame = wf') (k : Nat) :
    (newIteration wf p i frame).tasks k =
      if k = p then ((wf'.tasks k).discount ((disableWalk wf' p i).count k * satisfiedDeps wf' p k)).clearOutputs
      else (wf'.tasks k).discount ((disableWalk wf' p i).count k * satisfiedDeps wf' p k) := by
  unfold newIteration
  rw [h, disableBody_eq_foldl, Workflow.modify_tasks]
  split_ifs with hk
  · rw [hk, foldl_disableTask]
  · rw [foldl_disableTask]

theorem newIteration_counters {frame : Frame} (h : resetBody wf p i frame = wf') :
    ((newIteration wf p i frame).tasks b).residualDepsNum =
        (wf'.tasks b).residualDepsNum - (disableWalk wf' p i).count b * satisfiedDeps wf' p b ∧
      openDeps (newIteration wf p i frame) p b = openDeps wf' p b := by
  constructor
  · rw [newIteration_tasks h]
    split_ifs <;> rfl
  · have hdeps : ((newIteration wf p i frame).tasks b).deps = (wf'.tasks b).deps := by
      rw [newIteration_tasks h]
      split_ifs <;> rfl
    have hstatus (k : Nat) : ((newIteration wf p i frame).tasks k).status = (wf'.tasks k).status := by
      rw [newIteration_tasks h]
      split_ifs <;> rfl
    unfold openDeps
    rw [hdeps]
    exact List.countP_congr fun d _ => by rw [hstatus]

end Disable

section Counters

variable {wf₀ wf : Workflow} {i : Nat} {frame : Frame}

theorem resetBody_rebind (h : Layout wf₀ wf) (hi : Iterates wf i frame) (b : Nat) :
    (LoopTask wf i frame b →
        (resetBody (rebind wf frame) frame.caller i frame).tasks b = (wf.tasks b).reset (frame.tasks b)) ∧
      (¬ LoopTask wf i frame b → (resetBody (rebind wf frame) frame.caller i frame).tasks b = wf.tasks b) := by
  have hreset := resetBody_tasks (i := i) (rebind_layout frame h) (hi.fits h).2 b
  rw [loopTask_rebind] at hreset
  exact hreset

theorem bodyNext_eq (h : Layout wf₀ wf) (hi : Iterates wf i frame) (a : Nat) :
    ((resetBody (rebind wf frame) frame.caller i frame).tasks a).dependentsIndexes = bodyNext wf i frame a := by
  obtain ⟨hin, hout⟩ := resetBody_rebind h hi a
  unfold bodyNext
  split_ifs with ha
  · rw [hin ha]
    exact Task.reset_dependents (((hi.fits h).2 a).dependents.trans (h.task a).dependents.symm)
  · rw [hout ha]

theorem status_resetBody (h : Layout wf₀ wf) (hi : Iterates wf i frame) (a : Nat) :
    (LoopTask wf i frame a → ((resetBody (rebind wf frame) frame.caller i frame).tasks a).status = .unknown) ∧
      (¬ LoopTask wf i frame a →
        ((resetBody (rebind wf frame) frame.caller i frame).tasks a).status = (wf.tasks a).status) := by
  obtain ⟨hin, hout⟩ := resetBody_rebind h hi a
  refine ⟨fun ha => ?_, fun ha => ?_⟩
  · rw [hin ha]
    rfl
  · rw [hout ha]

theorem disableWalk_eq (h : Layout wf₀ wf) (hi : Iterates wf i frame) :
    disableWalk (resetBody (rebind wf frame) frame.caller i frame) frame.caller i = bodyWalk wf i frame := by
  have hnum : (resetBody (rebind wf frame) frame.caller i frame).tasksNum = wf.tasksNum :=
    (resetBody_layout (rebind_layout frame h) (hi.fits h).2).tasksNum.trans h.tasksNum.symm
  unfold disableWalk bodyWalk
  rw [hnum, bodyNext_eq h hi]
  congr 1
  · funext a
    obtain ⟨hin, hout⟩ := status_resetBody h hi a
    by_cases ha : LoopTask wf i frame a
    · simp [hin ha, ha]
    · simp [hout ha, ha]
  · funext a
    unfold nextTasks
    rw [bodyNext_eq h hi]

theorem LoopTask.descendant (h : Layout wf₀ wf) (hi : Iterates wf i frame) {b : Nat} (hb : LoopTask wf i frame b) :
    Descendant wf₀.tasks frame.caller b := by
  obtain ⟨hfor, hfits⟩ := hi.fits h
  induction hb with
  | start hb _ =>
    rcases ((h.task frame.caller).ranged _ hb).2 with hd | ⟨hs, -⟩
    · exact .single hd
    · rw [hfor] at hs
      cases hs
  | follow _ hb _ ih =>
    unfold savedNext at hb
    split at hb
    · exact absurd hb List.not_mem_nil
    · rcases ((hfits _).ranged _ hb).2 with hd | ⟨-, hr⟩
      · exact .tail ih hd
      · exact Relation.TransGen.trans_left ih hr

/-- A task of the loop is visited: the recursion that has reset it has left a path to it. -/
theorem one_le_paths (h₀ : wf₀.Submittable) (h : Layout wf₀ wf) (hi : Iterates wf i frame) {b : Nat}
    (hb : LoopTask wf i frame b) : 1 ≤ paths wf i frame b := by
  classical
  have hfits := (hi.fits h).2
  have hhead : ¬ LoopTask wf i frame frame.caller := fun hp => h₀.acyclic frame.caller (hp.descendant h hi)
  have hclosing := resetTask_closing (i := i) hfits
  have hvalid : ∀ b ∈ (wf.tasks frame.caller).dependentsIndexes, b < wf₀.tasksNum :=
    fun b hb => ((h.task frame.caller).ranged b hb).1
  have hreset := (resetBody_tasks (i := i) h hfits b).1 hb
  have hclosed : ((resetTask i frame (wf.tasksNum + 1) (wf.tasks frame.caller).dependentsIndexes (wf, 0)).1.tasks
      b).status = .unknown := by
    show ((resetBody wf frame.caller i frame).tasks b).status = .unknown
    rw [hreset]
    rfl
  have hwalk : b ∈ Lib.walk (fun c => decide (LoopTask wf i frame c)) (savedNext i frame) (wf.tasksNum + 1)
      (wf.tasks frame.caller).dependentsIndexes := by
    refine hclosing.mem_walk _ _ (wf, 0) h hvalid (fun c hn hc => decide_eq_true ?_) hb.not_closed hclosed
    exact loopTask_iff.mpr (hclosing.reached_of_closed _ _ (wf, 0) h hvalid hn hc)
  rw [paths, Nat.succ_le_iff, List.count_pos_iff, bodyWalk, bodyNext, if_neg hhead]
  refine Lib.mem_walk_mono (fun a ha => ?_) (fun a ha => ?_) hwalk
  · exact decide_eq_true (.inr (of_decide_eq_true ha))
  · simp only [bodyNext, if_pos (of_decide_eq_true ha), savedNext]

/-- The dependences that are discounted at each visit are those on tasks that are over and are not reset. -/
theorem satisfiedDeps_eq_zero_iff (h : Layout wf₀ wf) (hi : Iterates wf i frame) {b : Nat}
    (hb : LoopTask wf i frame b) :
    satisfiedDeps (resetBody (rebind wf frame) frame.caller i frame) frame.caller b = 0 ↔
      ∀ k : Nat, (k : Int) ∈ (frame.tasks b).depsTaskIndex → k ≠ frame.caller → (wf.tasks k).status.Terminal →
        LoopTask wf i frame k := by
  have hdeps : ((resetBody (rebind wf frame) frame.caller i frame).tasks b).deps.map (fun d => d.taskIndex) =
      (frame.tasks b).depsTaskIndex := by
    rw [(resetBody_rebind h hi b).1 hb]
    exact Task.reset_deps (((hi.fits h).2 b).deps.trans (h.task b).deps.symm)
  rw [satisfiedDeps, List.countP_eq_zero]
  constructor
  · intro hall k hk hne hterm
    by_contra hloop
    rw [← hdeps, List.mem_map] at hk
    obtain ⟨d, hd, hdk⟩ := hk
    apply hall d hd
    have hstatus := (status_resetBody h hi k).2 hloop
    simp [satisfiedDep, hdk, hne, hstatus, show JobStatus.completed ≤ (wf.tasks k).status from hterm]
  · intro hall d hd hsat
    simp only [satisfiedDep, ne_eq, decide_not, Bool.and_eq_true, decide_eq_true_eq, Bool.not_eq_true',
      decide_eq_false_iff_not] at hsat
    obtain ⟨⟨hnonneg, hne⟩, hterm⟩ := hsat
    obtain ⟨k, hk⟩ := Int.eq_ofNat_of_zero_le hnonneg
    rw [hk, Int.toNat_natCast] at hterm
    have hmem : (k : Int) ∈ (frame.tasks b).depsTaskIndex := by
      rw [← hdeps, ← hk]
      exact List.mem_map_of_mem hd
    by_cases hloop : LoopTask wf i frame k
    · rw [(status_resetBody h hi k).1 hloop] at hterm
      exact JobStatus.not_terminal_unknown hterm
    · rw [(status_resetBody h hi k).2 hloop] at hterm
      exact hloop (hall k hmem (fun he => hne (hk.trans (congrArg _ he))) hterm)

/--
Whenever a new iteration starts, in any run, a task of the loop waits for exactly the dependences that are still open if
and only if the counter that the loop has saved agrees with the saved dependences and, moreover, either one path only
leads to the task or none of the tasks outside the loop it depends on is over.
-/
theorem residualDepsNum_iff_of_run (h₀ : wf₀.Submittable) (hrun : RunsTo wf₀ wf) (hi : Iterates wf i frame) {b : Nat}
    (hb : LoopTask wf i frame b) :
    ((newIteration (rebind wf frame) frame.caller i frame).tasks b).residualDepsNum =
        openDeps (newIteration (rebind wf frame) frame.caller i frame) frame.caller b ↔
      (frame.tasks b).residualDepsNum = (frame.tasks b).pendingDeps ∧
        (paths wf i frame b = 1 ∨
          ∀ k : Nat, (k : Int) ∈ (frame.tasks b).depsTaskIndex → k ≠ frame.caller → (wf.tasks k).status.Terminal →
            LoopTask wf i frame k) := by
  have hL := hrun.layout h₀
  have hfits := (hi.fits hL).2 b
  have hreset := (resetBody_rebind hL hi b).1 hb
  obtain ⟨hcounter, hopen⟩ := @newIteration_counters (rebind wf frame) _ frame.caller i b frame rfl
  have hsplit := @openDeps_add_satisfiedDeps (resetBody (rebind wf frame) frame.caller i frame) frame.caller b
  have hpending : ((resetBody (rebind wf frame) frame.caller i frame).tasks b).pendingDeps =
      (frame.tasks b).pendingDeps := by
    rw [hreset]
    exact Task.reset_pendingDeps (hfits.deps.trans (hL.task b).deps.symm)
  have hresidual : ((resetBody (rebind wf frame) frame.caller i frame).tasks b).residualDepsNum =
      (frame.tasks b).residualDepsNum := by
    rw [hreset]
    rfl
  have hpaths := one_le_paths h₀ hL hi hb
  have hle := hfits.counter
  rw [← satisfiedDeps_eq_zero_iff hL hi hb, hcounter, hopen, disableWalk_eq hL hi, hresidual, ← paths]
  rw [hpending] at hsplit
  generalize paths wf i frame b = v at hpaths ⊢
  generalize satisfiedDeps (resetBody (rebind wf frame) frame.caller i frame) frame.caller b = c at hsplit ⊢
  generalize openDeps (resetBody (rebind wf frame) frame.caller i frame) frame.caller b = o at hsplit ⊢
  -- the counter is at most the number of saved dependences, hence nothing can make up for a second discount
  obtain ⟨w, rfl⟩ := Nat.exists_eq_add_of_le hpaths
  have hmul : ((1 + w : Nat) : Int) * c = c + (w * c : Nat) := by
    push_cast
    ring
  have hzero : w * c = 0 ↔ 1 + w = 1 ∨ c = 0 := by
    rw [Nat.mul_eq_zero]
    omega
  rw [hmul, ← hzero]
  generalize w * c = x
  omega

end Counters

/-- A loop around two tasks that join in a third one, which also depends on a task outside the loop. -/
def joinRequest : LoadedWorkflow :=
  loadRequest [requestTask "F" .for [] 1, requestTask "A" (.other "oph_a") ["F"] 1,
      requestTask "B" (.other "oph_b") ["F"] 1, requestTask "C" (.other "oph_c") ["A", "B", "X"] 1,
      requestTask "X" (.other "oph_x") [] 1, requestTask "D" .endfor ["C"] 1] (by
    simp only [List.forall_mem_cons, List.not_mem_nil, false_implies, implies_true, and_true]
    exact ⟨requestTask_fresh .., requestTask_fresh .., requestTask_fresh .., requestTask_fresh .., requestTask_fresh ..,
      requestTask_fresh ..⟩)

/-- Task `i` completes, and then the pending work `k` is done. -/
def completes (i k : Nat) : List Event :=
  [.external { jobid := 2, status := .completed, taskIndex := i } {}, .handle k { exec := .plain }]

/-- The first iteration: the task outside the loop completes before the loop is entered, if `early`, or during it. -/
def joinRun (early : Bool) : List Event :=
  [.handle 0 { exec := .plain }, .handle 1 { exec := .plain }] ++ (if early then completes 4 1 else []) ++
    .handle 0 { exec := .plain, serve := { forArgs := some twoValues } } ::
    List.replicate 4 (.handle 0 { exec := .plain }) ++ completes 1 0 ++ completes 2 0 ++
    (if early then [] else completes 4 0) ++ [.handle 0 { exec := .plain }] ++ completes 3 0

/-- If the other task is over when the loop is entered, the join waits for both tasks of the loop again. -/
theorem residualDepsNum_iff_of_run_join :
    ∃ wf₀ wf frame, AtIteration joinRequest (joinRun true) 5 wf₀ wf frame ∧
      ((newIteration (rebind wf frame) frame.caller 5 frame).tasks 3).residualDepsNum =
        openDeps (newIteration (rebind wf frame) frame.caller 5 frame) frame.caller 3 := by
  obtain ⟨wf₀, wf, frame, h, hp⟩ := @atIteration_of_check joinRequest (joinRun true) 5
    (fun wf frame => ((wf.tasks frame.caller).dependentsIndexes = [1, 2] ∧
      (frame.tasks 1).dependentsIndexes = [3]) ∧ ((wf.tasks 1).status ≠ .unknown ∧ (wf.tasks 2).status ≠ .unknown ∧
      (wf.tasks 3).status ≠ .unknown) ∧ (frame.tasks 3).depsTaskIndex = [1, 2, -1] ∧
      (frame.tasks 3).residualDepsNum = (frame.tasks 3).pendingDeps) (by decide)
  obtain ⟨⟨hd, hd1⟩, ⟨hs1, hs2, hs3⟩, hdeps, hcounter⟩ := of_decide_eq_true hp
  have hl1 : LoopTask wf 5 frame 1 := .start (by simp [hd]) hs1
  have hl2 : LoopTask wf 5 frame 2 := .start (by simp [hd]) hs2
  have hl3 : LoopTask wf 5 frame 3 := .follow hl1 (by simp [savedNext, hd1]) hs3
  refine ⟨wf₀, wf, frame, h, (residualDepsNum_iff_of_run h.submittable h.runsTo h.iterates hl3).mpr ⟨hcounter, .inr ?_⟩⟩
  intro k hk _ _
  rw [hdeps] at hk
  simp only [List.mem_cons, List.not_mem_nil, or_false] at hk
  rcases hk with hk | hk | hk
  · obtain rfl : k = 1 := by omega
    exact hl1
  · obtain rfl : k = 2 := by omega
    exact hl2
  · omega

/-- If it completes during the first iteration, it is discounted twice: the join waits for one task of the loop only. -/
theorem residualDepsNum_ne_of_late :
    ∃ wf₀ wf frame, AtIteration joinRequest (joinRun false) 5 wf₀ wf frame ∧ LoopTask wf 5 frame 3 ∧
      ((newIteration (rebind wf frame) frame.caller 5 frame).tasks 3).residualDepsNum = 1 ∧
      openDeps (newIteration (rebind wf frame) frame.caller 5 frame) frame.caller 3 = 2 := by
  obtain ⟨wf₀, wf, frame, h, hp⟩ := @atIteration_of_check joinRequest (joinRun false) 5
    (fun wf frame => (wf.tasks frame.caller).dependentsIndexes = [1, 2] ∧ (frame.tasks 1).dependentsIndexes = [3] ∧
      (wf.tasks 1).status ≠ .unknown ∧ (wf.tasks 3).status ≠ .unknown ∧
      ((newIteration (rebind wf frame) frame.caller 5 frame).tasks 3).residualDepsNum = 1 ∧
      openDeps (newIteration (rebind wf frame) frame.caller 5 frame) frame.caller 3 = 2) (by decide +kernel)
  obtain ⟨hd, hd1, hs1, hs3, hcounter, hopen⟩ := of_decide_eq_true hp
  have hl1 : LoopTask wf 5 frame 1 := .start (by simp [hd]) hs1
  exact ⟨wf₀, wf, frame, h, .follow hl1 (by simp [savedNext, hd1]) hs3, hcounter, hopen⟩

end OphidiaWorkflow
