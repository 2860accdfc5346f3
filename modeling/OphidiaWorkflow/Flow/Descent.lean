import OphidiaWorkflow.Lib.Digraph
import OphidiaWorkflow.Flow.Selection
import OphidiaWorkflow.Setup.Blocks

/-!
`oph_workflow_is_child_of` as a recursion that has to end by itself.

A selection that skips a branch leaves references of a task to itself among its dependents; the recursion passes over
them.
-/
namespace OphidiaWorkflow

open Lib Relation

/-- The loop over the dependents of `p`, with what the inner calls return; none if one of them does not return. -/
def childLoop (call : Nat → Option Bool) (p : Nat) : List Nat → Option Bool
  | [] => some false
  | j :: js =>
    if j = p then childLoop call p js
    else (call j).bind fun found => if found then some true else childLoop call p js

/-- `oph_workflow_is_child_of` with at most `depth` nested calls, none if there are more. -/
def childCall (wf : Workflow) (c : Int) : Nat → Nat → Option Bool
  | 0, _ => none
  | depth + 1, p =>
    if wf.tasksNum ≤ p ∨ c < 0 ∨ (wf.tasksNum : Int) ≤ c then some false
    else if (p : Int) = c then some true
    else childLoop (childCall wf c depth) p (wf.tasks p).dependentsIndexes

/-- The dependents of a task are tasks, and but for references of a task to itself there is no cycle. -/
structure AcyclicGraph (wf : Workflow) : Prop where
  inRange : ∀ a < wf.tasksNum, ∀ b ∈ (wf.tasks a).dependentsIndexes, b < wf.tasksNum
  acyclic : Acyclic fun a b => a < wf.tasksNum ∧ Dependent wf.tasks a b ∧ b ≠ a

section Recursion

variable {wf : Workflow} {c p depth : Nat} {call : Nat → Option Bool}

/-- A call that returns answers what the recursion with a bound answers. -/
theorem isChildOf_of_childCall {c : Int} {found : Bool} (h : childCall wf c depth p = some found) :
    isChildOf wf c depth p = found := by
  induction depth generalizing p found with
  | zero => cases h
  | succ depth ih =>
    have hloop (js : List Nat) (found : Bool) (h : childLoop (childCall wf c depth) p js = some found) :
        (js.any fun j => j ≠ p && isChildOf wf c depth j) = found := by
      induction js with
      | nil => exact Option.some.inj h
      | cons j js ihjs =>
        rw [List.any_cons]
        rw [childLoop] at h
        split at h
        case isTrue hj => simpa [hj] using ihjs h
        case isFalse hj =>
          obtain ⟨inner, hcall, h⟩ := Option.bind_eq_some_iff.mp h
          rw [ih hcall]
          cases inner with
          | true => simpa [hj] using h
          | false => simpa using ihjs h
    rw [childCall] at h
    rw [isChildOf]
    split at h
    case isTrue hrange =>
      rw [if_pos hrange]
      exact Option.some.inj h
    case isFalse hrange =>
      rw [if_neg hrange]
      split at h
      case isTrue hp => simpa [hp] using h
      case isFalse hp => simpa [hp] using hloop _ _ h

open Classical in
theorem childLoop_eq {R : Nat → Prop} (js : List Nat) (h : ∀ j ∈ js, j ≠ p → call j = some (decide (R j))) :
    childLoop call p js = some (decide (∃ j ∈ js, j ≠ p ∧ R j)) := by
  induction js with
  | nil => simp [childLoop]
  | cons j js ih =>
    have hrest := ih fun k hk => h k (List.mem_cons_of_mem _ hk)
    rw [childLoop]
    by_cases hj : j = p
    · rw [if_pos hj, hrest]
      simp [hj]
    · rw [if_neg hj, h j List.mem_cons_self hj, Option.bind_some]
      by_cases hR : R j
      · simp [hR, hj]
      · rw [hrest]
        simp [hR]

/-- A path that leaves a task leaves it for another one. -/
theorem reflTransGen_iff_head_ne {E : Nat → Nat → Prop} :
    ReflTransGen E p c ↔ p = c ∨ ∃ j, E p j ∧ j ≠ p ∧ ReflTransGen E j c := by
  constructor
  · intro h
    induction h using ReflTransGen.head_induction_on with
    | refl => exact .inl rfl
    | @head a b hab hbc ih =>
      by_cases hba : b = a
      · rw [← hba]
        exact ih
      · exact .inr ⟨b, hab, hba, hbc⟩
  · rintro (rfl | ⟨j, hpj, -, hjc⟩)
    · exact .refl
    · exact .head hpj hjc

open Classical in
/-- The calls go down in the rank of the tasks. -/
theorem childCall_eq (hg : AcyclicGraph wf) {rank : Nat → Nat}
    (hrank : ∀ a b, a < wf.tasksNum ∧ Dependent wf.tasks a b ∧ b ≠ a → rank b < rank a) (hc : c < wf.tasksNum)
    (hp : p < wf.tasksNum) (hdepth : rank p < depth) :
    childCall wf c depth p = some (decide (ReflTransGen (Dependent wf.tasks) p c)) := by
  induction depth generalizing p with
  | zero => exact absurd hdepth (Nat.not_lt_zero _)
  | succ depth ih =>
    rw [childCall, if_neg (by omega)]
    by_cases hpc : p = c
    · rw [if_pos (by exact_mod_cast hpc), hpc, decide_eq_true ReflTransGen.refl]
    · rw [if_neg (by exact_mod_cast hpc)]
      have hcalls : ∀ j ∈ (wf.tasks p).dependentsIndexes, j ≠ p →
          childCall wf c depth j = some (decide (ReflTransGen (Dependent wf.tasks) j c)) := by
        -- the task itself is not called, and any other dependent has a lower rank
        intro j hj hne
        have hlt := hrank p j ⟨hp, hj, hne⟩
        exact ih (hg.inRange p hp j hj) (by omega)
      rw [childLoop_eq _ hcalls, reflTransGen_iff_head_ne (p := p), or_iff_right hpc]
      exact congrArg some (decide_eq_decide.mpr Iff.rfl)

/-- A selection may put a reference of a task to itself in the place of any dependent. -/
theorem AcyclicGraph.setDependent (hg : AcyclicGraph wf) (hp : p < wf.tasksNum) (k : Nat) :
    AcyclicGraph (wf.modify p (Task.setDependent k p)) := by
  have hsub {a b : Nat} (h : b ∈ ((wf.modify p (Task.setDependent k p)).tasks a).dependentsIndexes) :
      b ∈ (wf.tasks a).dependentsIndexes ∨ a = p ∧ b = p := by
    by_cases ha : a = p
    · rw [ha, Workflow.modify_tasks_self] at h
      rcases List.mem_or_eq_of_mem_set h with h | h
      · exact .inl (ha ▸ h)
      · exact .inr ⟨ha, h⟩
    · rw [Workflow.modify_tasks_ne _ _ ha] at h
      exact .inl h
  refine ⟨fun a ha b hb => ?_, fun v hv => hg.acyclic v (TransGen.mono (fun a b hab => ?_) v v hv)⟩
  · rcases hsub hb with hb | ⟨-, rfl⟩
    · exact hg.inRange a ha b hb
    · exact hp
  · obtain ⟨ha, hb, hne⟩ := hab
    rcases hsub hb with hb | ⟨rfl, rfl⟩
    · exact ⟨ha, hb, hne⟩
    · exact absurd rfl hne

end Recursion

/-- With a depth of one call for each task the recursion returns, and it answers whether `c` is reached from `p`. -/
theorem isChildOf_returns_reaches {wf : Workflow} (hg : AcyclicGraph wf) {p c : Nat} (hp : p < wf.tasksNum)
    (hc : c < wf.tasksNum) :
    ∃ found, (∀ depth, wf.tasksNum < depth → childCall wf c depth p = some found ∧ isChildOf wf c depth p = found) ∧
      (found = true ↔ ReflTransGen (Dependent wf.tasks) p c) := by
  classical
  obtain ⟨rank, hle, hrank⟩ := hg.acyclic.exists_rank (n := wf.tasksNum) fun a b hab => hg.inRange a hab.1 b hab.2.1
  refine ⟨decide (ReflTransGen (Dependent wf.tasks) p c), fun depth hdepth => ?_, decide_eq_true_iff⟩
  have hcall := childCall_eq hg hrank hc hp (Nat.lt_of_le_of_lt (hle p) hdepth)
  exact ⟨hcall, isChildOf_of_childCall hcall⟩

/-- Three tasks in a row; the first one has a reference to itself in the place of a dependent. -/
def selfReferring : Workflow where
  tasks i := { dependentsIndexes := if i = 0 then [0, 1] else if i = 1 then [2] else [] }
  tasksNum := 3
  residualTasksNum := 3

theorem selfReferring_acyclic : AcyclicGraph selfReferring := by
  have hlt (a b : Nat) (h : Dependent selfReferring.tasks a b) (hne : b ≠ a) : a < b ∧ b < 3 := by
    change b ∈ (if a = 0 then [0, 1] else if a = 1 then [2] else []) at h
    split at h
    · simp at h
      omega
    · split at h
      · simp at h
        omega
      · cases h
  refine ⟨fun a ha b hb => ?_, acyclic_of_acc fun a b _ => ?_⟩
  · by_cases hne : b = a
    · exact hne ▸ ha
    · exact (hlt a b hb hne).2
  · exact Subrelation.accessible (fun {u v} huv => (hlt u v huv.2.1 huv.2.2).1) (Nat.lt_wfRel.wf.apply b)

theorem isChildOf_returns_reaches_selfReferring : ∃ found,
    (∀ depth, 3 < depth → childCall selfReferring 2 depth 0 = some found ∧ isChildOf selfReferring 2 depth 0 = found) ∧
      (found = true ↔ ReflTransGen (Dependent selfReferring.tasks) 0 2) :=
  isChildOf_returns_reaches (p := 0) (c := 2) selfReferring_acyclic (by decide) (by decide)

end OphidiaWorkflow
