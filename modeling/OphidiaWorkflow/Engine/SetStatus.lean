import Mathlib.Data.Set.Card
import OphidiaWorkflow.Lib.Digraph
import OphidiaWorkflow.Lib.Loops
import OphidiaWorkflow.Lib.Traversal
import OphidiaWorkflow.Model.Structs

/-! `oph_workflow_set_status`: a status is given to the tasks that depend on a task, directly or not. -/
namespace OphidiaWorkflow

/--
`oph_workflow_set_status`, which answers whether it succeeded. The recursion goes down `dependents_indexes`, at most
`fuel` levels deep.
-/
def setStatus (target : JobStatus) : Nat → List Nat → Workflow → Workflow × Bool
  | 0 => fun dependents wf => (wf, dependents.isEmpty)
  | fuel + 1 => Lib.foldWhile fun wf i =>
    let status := (wf.tasks i).status
    if status ≠ .unknown ∧ status < target then (wf, false)
    else if status < .completed ∧ wf.residualTasksNum = 0 then (wf, false)
    else
      let wf := if status < .completed then wf.countEnded i else wf
      let wf := wf.setTaskStatus i target
      setStatus target fuel (wf.tasks i).dependentsIndexes wf

/-- No task lies more than `tasks_num` levels below another in an accepted workflow. -/
def abortDependents (wf : Workflow) (i : Nat) : Workflow × Bool :=
  setStatus .aborted (wf.tasksNum + 1) (wf.tasks i).dependentsIndexes wf

theorem setTaskStatus_status (wf : Workflow) (i k : Nat) (s : JobStatus) :
    ((wf.setTaskStatus i s).tasks k).status = (wf.tasks k).status ∨ ((wf.setTaskStatus i s).tasks k).status = s := by
  rw [Workflow.setTaskStatus, Workflow.modify_tasks]
  split_ifs
  · exact .inr rfl
  · exact .inl rfl

theorem setStatus_status (target : JobStatus) (fuel : Nat) (dependents : List Nat) (wf : Workflow) (k : Nat) :
    ((setStatus target fuel dependents wf).1.tasks k).status = (wf.tasks k).status ∨
      ((setStatus target fuel dependents wf).1.tasks k).status = target := by
  induction fuel generalizing dependents wf with
  | zero => exact .inl rfl
  | succ fuel ih =>
    unfold setStatus
    refine Lib.foldWhile_induct (fun wf' : Workflow =>
      (wf'.tasks k).status = (wf.tasks k).status ∨ (wf'.tasks k).status = target) (.inl rfl) fun i _ wf' h => ?_
    have hset (wf'' : Workflow) (hwf : (wf''.tasks k).status = (wf'.tasks k).status) (l : List Nat) :
        ((setStatus target fuel l (wf''.setTaskStatus i target)).1.tasks k).status = (wf.tasks k).status ∨
          ((setStatus target fuel l (wf''.setTaskStatus i target)).1.tasks k).status = target := by
      rcases ih l (wf''.setTaskStatus i target) with h₁ | h₁
      · rcases setTaskStatus_status wf'' i k target with h₂ | h₂
        · rcases h with h | h
          · exact .inl (by rw [h₁, h₂, hwf, h])
          · exact .inr (by rw [h₁, h₂, hwf, h])
        · exact .inr (h₁.trans h₂)
      · exact .inr h₁
    simp only
    split
    · exact h
    · split
      · exact h
      · split
        · exact hset (wf'.countEnded i) rfl _
        · exact hset wf' rfl _

/-! ## Graphs without cycles -/

section Spreading

variable {target : JobStatus} {st : Nat → JobStatus} {wf : Workflow} {L l : List Nat} {fuel : Nat}

/-- Task `b` is among those that depend on task `a`. -/
def Workflow.Depends (wf : Workflow) (a b : Nat) : Prop := b ∈ (wf.tasks a).dependentsIndexes

/-- One of the given tasks, or a descendant of one. -/
def Workflow.Below (wf : Workflow) (l : List Nat) (k : Nat) : Prop := ∃ a ∈ l, Relation.ReflTransGen wf.Depends a k

/-- The tasks in the order in which the recursion comes to them, one entry for each path. -/
def Workflow.visits (wf : Workflow) (fuel : Nat) (l : List Nat) : List Nat :=
  Lib.walk (fun _ => true) (fun a => (wf.tasks a).dependentsIndexes) fuel l

/-- A graph without cycles, whose tasks below the given ones have not got a status lower than the one to be set. -/
structure Clear (target : JobStatus) (l : List Nat) (wf : Workflow) : Prop where
  acyclic : Lib.Acyclic wf.Depends
  indexes : ∀ a b, wf.Depends a b → b < wf.tasksNum
  statuses : ∀ k, wf.Below l k → (wf.tasks k).status = .unknown ∨ target ≤ (wf.tasks k).status

/-- The given tasks and all their descendants have the status, and each of them that was not over is counted once. -/
structure Spread (target : JobStatus) (l : List Nat) (wf : Workflow) (r : Workflow × Bool) : Prop where
  success : r.2 = true
  below : ∀ k, wf.Below l k → r.1.tasks k = { wf.tasks k with status := target }
  others : ∀ k, ¬ wf.Below l k → r.1.tasks k = wf.tasks k
  residualTasksNum : r.1.residualTasksNum =
    wf.residualTasksNum - ({k | wf.Below l k ∧ (wf.tasks k).status < .completed}.ncard : Int)

/-- What is done to each task of the walk. -/
def visitTask (target : JobStatus) (wf : Workflow) (i : Nat) : Workflow × Bool :=
  let status := (wf.tasks i).status
  if status ≠ .unknown ∧ status < target then (wf, false)
  else if status < .completed ∧ wf.residualTasksNum = 0 then (wf, false)
  else ((if status < .completed then wf.countEnded i else wf).setTaskStatus i target, true)

theorem visitTask_dependents (target : JobStatus) (wf : Workflow) (i k : Nat) :
    ((visitTask target wf i).1.tasks k).dependentsIndexes = (wf.tasks k).dependentsIndexes := by
  unfold visitTask
  dsimp only
  split
  · rfl
  · split
    · rfl
    · rw [Workflow.setTaskStatus, Workflow.modify_tasks]
      split
      · next h =>
        subst h
        split <;> rfl
      · split <;> rfl

/-- A task and those below it. -/
def visitBelow (target : JobStatus) (fuel : Nat) (wf : Workflow) (i : Nat) : Workflow × Bool :=
  if (visitTask target wf i).2 then setStatus target fuel (wf.tasks i).dependentsIndexes (visitTask target wf i).1
  else visitTask target wf i

theorem setStatus_succ (target : JobStatus) (fuel : Nat) :
    setStatus target (fuel + 1) = Lib.foldWhile (visitBelow target fuel) := by
  refine congrArg Lib.foldWhile (funext₂ fun wf i => ?_)
  have hdeps := visitTask_dependents target wf i i
  unfold visitBelow
  unfold visitTask at *
  dsimp only at *
  split
  · rfl
  · next h₁ =>
    rw [if_neg h₁] at hdeps
    split
    · rfl
    · next h₂ =>
      rw [if_neg h₂] at hdeps
      exact congrArg (setStatus target fuel · _) hdeps

/-- Below each task are those of lower rank, so that the fuel does not run out. -/
theorem setStatus_eq_foldWhile {nx : Nat → List Nat} {rank : Nat → Nat} (hrank : ∀ a, ∀ b ∈ nx a, rank b < rank a)
    (hwf : ∀ k, (wf.tasks k).dependentsIndexes = nx k) (hl : ∀ a ∈ l, rank a < fuel) :
    setStatus target fuel l wf = Lib.foldWhile (visitTask target) (Lib.walk (fun _ => true) nx fuel l) wf := by
  induction fuel generalizing l wf with
  | zero =>
    cases l with
    | nil => rfl
    | cons a l => exact absurd (hl a List.mem_cons_self) (Nat.not_lt_zero _)
  | succ fuel ih =>
    rw [setStatus_succ]
    induction l generalizing wf with
    | nil => rfl
    | cons a l ihl =>
      rw [List.forall_mem_cons] at hl
      have hwalk : Lib.walk (fun _ => true) nx (fuel + 1) (a :: l) =
          a :: (Lib.walk (fun _ => true) nx fuel (nx a) ++ Lib.walk (fun _ => true) nx (fuel + 1) l) := rfl
      have hkept (k : Nat) := (visitTask_dependents target wf a k).trans (hwf k)
      rw [hwalk, Lib.foldWhile_cons, Lib.foldWhile_cons, visitBelow, hwf]
      generalize visitTask target wf a = r at hkept ⊢
      obtain ⟨t, _ | _⟩ := r
      · rfl
      · rw [if_pos rfl, if_pos rfl]
        have hbelow := ih hkept fun b hb => Nat.lt_of_lt_of_le (hrank a b hb) (Nat.le_of_lt_succ hl.1)
        have hmid (k : Nat) := Lib.foldWhile_induct (fun u : Workflow => (u.tasks k).dependentsIndexes = nx k) (hkept k)
          fun b (_ : b ∈ Lib.walk (fun _ => true) nx fuel (nx a)) u hu =>
            (visitTask_dependents target u b k).trans hu
        rw [hbelow, Lib.foldWhile_append]
        split
        · exact ihl hmid hl.2
        · rfl

/-- How often the counter is decremented along a walk. -/
def decrements (target : JobStatus) : (Nat → JobStatus) → List Nat → Nat
  | _, [] => 0
  | st, i :: l => (if st i < .completed then 1 else 0) + decrements target (Function.update st i target) l

/-- The tasks of a walk that are not over, each once. -/
def notOver (st : Nat → JobStatus) (l : List Nat) : Finset Nat := l.toFinset.filter fun k => st k < .completed

theorem card_filter_insert (p : Nat → Prop) [DecidablePred p] (i : Nat) (s : Finset Nat) :
    ((insert i s).filter p).card = ((s.erase i).filter p).card + if p i then 1 else 0 := by
  rw [← Finset.insert_erase (Finset.mem_insert_self i s), Finset.erase_insert_eq_erase, Finset.filter_insert]
  split
  · exact Finset.card_insert_of_notMem fun h => Finset.notMem_erase i s (Finset.mem_filter.mp h).1
  · rfl

theorem card_notOver_cons (st : Nat → JobStatus) (i : Nat) (l : List Nat) :
    (notOver (Function.update st i target) l).card + (if st i < .completed then 1 else 0) =
      (notOver st (i :: l)).card + if i ∈ l ∧ target < .completed then 1 else 0 := by
  have hothers : (l.toFinset.erase i).filter (fun k => Function.update st i target k < .completed) =
      (l.toFinset.erase i).filter fun k => st k < .completed := by
    refine Finset.filter_congr fun k hk => ?_
    rw [Function.update_of_ne (Finset.ne_of_mem_erase hk)]
  have hlater : (notOver (Function.update st i target) l).card =
      ((l.toFinset.erase i).filter fun k => st k < .completed).card + if i ∈ l ∧ target < .completed then 1 else 0 := by
    unfold notOver
    by_cases hi : i ∈ l
    · rw [← Finset.insert_eq_of_mem (List.mem_toFinset.mpr hi), card_filter_insert,
        Finset.insert_eq_of_mem (List.mem_toFinset.mpr hi),
        hothers, Function.update_self]
      simp only [hi, true_and]
    · rw [← hothers, Finset.erase_eq_of_notMem (mt List.mem_toFinset.mp hi), if_neg fun h => hi h.1, Nat.add_zero]
  have hfirst : (notOver st (i :: l)).card =
      ((l.toFinset.erase i).filter fun k => st k < .completed).card + if st i < .completed then 1 else 0 := by
    unfold notOver
    rw [List.toFinset_cons, card_filter_insert]
  omega

/-- Each task is counted once if it is over then, or if the walk comes to it only once. -/
theorem decrements_eq_iff (target : JobStatus) (st : Nat → JobStatus) (l : List Nat) :
    (notOver st l).card ≤ decrements target st l ∧
      (decrements target st l = (notOver st l).card ↔ target.Terminal ∨ l.Nodup) := by
  induction l generalizing st with
  | nil => exact ⟨Nat.le_refl _, iff_of_true rfl (.inr List.nodup_nil)⟩
  | cons i l ih =>
    obtain ⟨hle, hiff⟩ := ih (Function.update st i target)
    have hcard := @card_notOver_cons target st i l
    rw [JobStatus.terminal_iff_not_lt] at hiff ⊢
    rw [decrements, List.nodup_cons]
    by_cases htwice : i ∈ l ∧ target < .completed
    · -- a further visit counts the task again
      rw [if_pos htwice] at hcard
      refine ⟨by omega, iff_of_false (by omega) ?_⟩
      rintro (h | h)
      · exact h htwice.2
      · exact h.1 htwice.1
    · rw [if_neg htwice] at hcard
      refine ⟨by omega, ?_⟩
      rw [show _ + _ = _ ↔ decrements target (Function.update st i target) l =
        (notOver (Function.update st i target) l).card by omega, hiff]
      by_cases ht : target < .completed
      · simp only [ht, not_true_eq_false, false_or, iff_and_self]
        exact fun _ hi => htwice ⟨hi, ht⟩
      · simp only [ht, not_false_eq_true, true_or]

theorem visitTask_eq (i : Nat) (hst : (wf.tasks i).status = .unknown ∨ target ≤ (wf.tasks i).status) :
    visitTask target wf i = if (wf.tasks i).status < .completed ∧ wf.residualTasksNum = 0 then (wf, false)
      else ((if (wf.tasks i).status < .completed then wf.countEnded i else wf).setTaskStatus i target, true) := by
  unfold visitTask
  refine if_neg ?_
  rintro ⟨hne, hlt⟩
  exact Nat.not_le_of_lt hlt (hst.resolve_left hne)

theorem foldWhile_visitTask (hst : ∀ k ∈ L, (wf.tasks k).status = .unknown ∨ target ≤ (wf.tasks k).status) :
    ((Lib.foldWhile (visitTask target) L wf).2 = true ↔
      wf.residualTasksNum < 0 ∨ (decrements target (fun k => (wf.tasks k).status) L : Int) ≤ wf.residualTasksNum) ∧
    ((Lib.foldWhile (visitTask target) L wf).2 = true →
      (Lib.foldWhile (visitTask target) L wf).1.residualTasksNum =
        wf.residualTasksNum - decrements target (fun k => (wf.tasks k).status) L ∧
      ∀ k, (Lib.foldWhile (visitTask target) L wf).1.tasks k =
        if k ∈ L then { wf.tasks k with status := target } else wf.tasks k) := by
  induction L generalizing wf with
  | nil =>
    refine ⟨iff_of_true rfl ?_, fun _ => ⟨(sub_zero _).symm, fun k => rfl⟩⟩
    simp only [decrements]
    omega
  | cons i L ih =>
    rw [List.forall_mem_cons] at hst
    rw [Lib.foldWhile_cons, visitTask_eq i hst.1, decrements]
    by_cases h : (wf.tasks i).status < .completed ∧ wf.residualTasksNum = 0
    · rw [if_pos h, if_neg Bool.false_ne_true, if_pos h.1]
      refine ⟨iff_of_false Bool.false_ne_true ?_, fun h => absurd h Bool.false_ne_true⟩
      omega
    · rw [if_neg h, if_pos rfl]
      generalize hu : (if (wf.tasks i).status < .completed then wf.countEnded i else wf).setTaskStatus i target = u
      have htasks (k : Nat) : u.tasks k = if k = i then { wf.tasks k with status := target } else wf.tasks k := by
        rw [← hu, Workflow.setTaskStatus, Workflow.modify_tasks]
        by_cases hk : k = i
        · subst hk
          rw [if_pos rfl, if_pos rfl]
          split <;> rfl
        · rw [if_neg hk, if_neg hk]
          split <;> rfl
      have hresidual : u.residualTasksNum =
          wf.residualTasksNum - (if (wf.tasks i).status < .completed then 1 else 0 : Nat) := by
        rw [← hu, Workflow.setTaskStatus, Workflow.modify_residualTasksNum]
        split
        · rfl
        · exact (sub_zero _).symm
      have hstatus : (fun k => (u.tasks k).status) = Function.update (fun k => (wf.tasks k).status) i target := by
        funext k
        rw [htasks, Function.update_apply]
        split <;> rfl
      have hrest : ∀ k ∈ L, (u.tasks k).status = .unknown ∨ target ≤ (u.tasks k).status := by
        intro k hk
        rw [htasks]
        split
        · exact .inr (Nat.le_refl _)
        · exact hst.2 k hk
      obtain ⟨hiff, hthen⟩ := ih hrest
      rw [hstatus, hresidual] at hiff hthen
      constructor
      · refine hiff.trans ?_
        by_cases hs : (wf.tasks i).status < .completed
        · have hne : wf.residualTasksNum ≠ 0 := fun h0 => h ⟨hs, h0⟩
          rw [if_pos hs]
          omega
        · rw [if_neg hs]
          omega
      · intro hok
        obtain ⟨hnum, hall⟩ := hthen hok
        refine ⟨?_, fun k => ?_⟩
        · rw [hnum]
          omega
        · rw [hall, htasks]
          by_cases hk : k = i
          · simp [hk]
          · simp [hk]

/--
On a graph without cycles the recursion ends. It does what it is for if the counter does not reach zero before, and no
task is counted at each of several paths to it.
-/
theorem spread_iff (h : Clear target l wf) (hfuel : wf.tasksNum < fuel) :
    Spread target l wf (setStatus target fuel l wf) ↔
      (wf.residualTasksNum < 0 ∨
        ({k | wf.Below l k ∧ (wf.tasks k).status < .completed}.ncard : Int) ≤ wf.residualTasksNum) ∧
      (target.Terminal ∨ (wf.visits fuel l).Nodup) := by
  obtain ⟨rank, hle, hrank⟩ := h.acyclic.exists_rank h.indexes
  have hl : ∀ a ∈ l, rank a < fuel := fun a _ => Nat.lt_of_le_of_lt (hle a) hfuel
  have hmem (k : Nat) : k ∈ wf.visits fuel l ↔ wf.Below l k := Lib.mem_walk_iff hrank hl
  have hcount : {k | wf.Below l k ∧ (wf.tasks k).status < .completed}.ncard =
      (notOver (fun k => (wf.tasks k).status) (wf.visits fuel l)).card := by
    rw [← Set.ncard_coe_finset]
    congr 1
    ext k
    simp [notOver, hmem]
  have hrun : setStatus target fuel l wf = Lib.foldWhile (visitTask target) (wf.visits fuel l) wf :=
    setStatus_eq_foldWhile hrank (fun _ => rfl) hl
  obtain ⟨hok, hthen⟩ := @foldWhile_visitTask target wf (wf.visits fuel l) fun k hk => h.statuses k ((hmem k).mp hk)
  obtain ⟨hge, hiff⟩ := decrements_eq_iff target (fun k => (wf.tasks k).status) (wf.visits fuel l)
  rw [hrun, hcount, ← hiff]
  constructor
  · intro h
    obtain ⟨hnum, -⟩ := hthen h.success
    have hres := h.residualTasksNum
    rw [hcount, hnum] at hres
    have hroom := hok.mp h.success
    omega
  · rintro ⟨hroom, heq⟩
    have hsuccess := hok.mpr (by rwa [heq])
    obtain ⟨hnum, hall⟩ := hthen hsuccess
    refine ⟨hsuccess, fun k hk => ?_, fun k hk => ?_, ?_⟩
    · rw [hall, if_pos ((hmem k).mpr hk)]
    · rw [hall, if_neg fun h => hk ((hmem k).mp h)]
    · rw [hnum, hcount, heq]

/-- Two paths lead from task 0 to task 3. -/
def diamond (residualTasksNum : Int) : Workflow where
  tasks := taskArray [{ dependentsIndexes := [1, 2] }, { dependentsIndexes := [3] }, { dependentsIndexes := [3] }, {}]
  tasksNum := 4
  residualTasksNum := residualTasksNum

theorem lt_of_depends_diamond {n : Int} {a b : Nat} (h : (diamond n).Depends a b) : a < b ∧ b < 4 := by
  have hd :
      b ∈ ((taskArray [{ dependentsIndexes := [1, 2] }, { dependentsIndexes := [3] }, { dependentsIndexes := [3] }, {}])
    a).dependentsIndexes := h
  rcases a with _ | _ | _ | _ | a <;> simp [taskArray] at hd <;> omega

theorem clear_diamond (target : JobStatus) (n : Int) : Clear target [0] (diamond n) := by
  constructor
  · intro v hv
    have hlt (a b : Nat) (h : Relation.TransGen (diamond n).Depends a b) : a < b := by
      induction h with
      | single h => exact (lt_of_depends_diamond h).1
      | tail _ h ih => exact ih.trans (lt_of_depends_diamond h).1
    exact Nat.lt_irrefl v (hlt v v hv)
  · exact fun a b h => (lt_of_depends_diamond h).2
  · intro k hk
    left
    rcases k with _ | _ | _ | _ | k <;> rfl

theorem spread_diamond : Spread .aborted [0] (diamond 4) (setStatus .aborted 5 [0] (diamond 4)) := by
  refine (spread_iff (clear_diamond .aborted 4) (by decide)).mpr ⟨.inr ?_, .inl (by decide)⟩
  have hsub :
      {k | (diamond 4).Below [0] k ∧ ((diamond 4).tasks k).status < .completed} ⊆ (Finset.range 4 : Set Nat) := by
    rintro k ⟨⟨a, ha, h⟩, -⟩
    rw [Finset.mem_coe, Finset.mem_range]
    rcases h.cases_tail with rfl | ⟨b, -, hb⟩
    · cases List.mem_singleton.mp ha
      decide
    · exact (lt_of_depends_diamond hb).2
  have hle := Set.ncard_le_ncard hsub (Finset.finite_toSet _)
  rw [Set.ncard_coe_finset, Finset.card_range] at hle
  exact Int.ofNat_le.mpr hle

/-- The counter is zero already; and a status below `COMPLETED` lets task 3 be counted twice. -/
theorem not_spread_diamond :
    (¬ ∀ l wf, Clear .aborted l wf → ∀ fuel, wf.tasksNum < fuel → Spread .aborted l wf (setStatus .aborted fuel l wf)) ∧
      ¬ ∀ target l wf, Clear target l wf → wf.tasksNum ≤ wf.residualTasksNum → ∀ fuel, wf.tasksNum < fuel →
        Spread target l wf (setStatus target fuel l wf) := by
  constructor
  · intro h
    have hs := (h [0] (diamond 0) (clear_diamond _ _) 5 (by decide)).success
    exact absurd hs (by decide)
  · intro h
    have hs := (h .wait [0] (diamond 4) (clear_diamond _ _) (by decide) 5 (by decide)).success
    exact absurd hs (by decide)

end Spreading

end OphidiaWorkflow
