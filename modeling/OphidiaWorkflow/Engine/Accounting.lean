import OphidiaWorkflow.Engine.Dependences
import OphidiaWorkflow.Lib.Traces

/-!
Accounting along a run: how often a task, or a light task, is counted as ended between two submissions.

`oph_workflow_notify` writes a status that is not an error without looking at the old one, so everything here is about
runs in which such a notification finds its task, or light task, still to be ended.
-/
namespace OphidiaWorkflow

namespace Entry

/-- Task `i` is submitted, or reset by a loop. -/
def isStart (i : Nat) : Entry → Bool
  | started k | reset k => k == i
  | _ => false

/-- `residual_tasks_num` is decremented on behalf of task `i`. -/
def isEnd (i : Nat) : Entry → Bool
  | ended k => k == i
  | _ => false

/-- `residual_light_tasks_num` of task `i` is decremented on behalf of its light task `j`. -/
def isLightEnd (i j : Nat) : Entry → Bool
  | endedLight k m => k == i && m == j
  | _ => false

def Concerns (i : Nat) (e : Entry) : Prop := e.isStart i ∨ e.isEnd i ∨ ∃ j, e.isLightEnd i j

theorem not_concerns {i : Nat} {e : Entry} (h : ¬ e.Concerns i) :
    e.isStart i = false ∧ e.isEnd i = false ∧ ∀ j, e.isLightEnd i j = false := by
  simpa [Concerns, not_or] using h

end Entry

/-- How many times task `i` has been counted as ended since its last submission. -/
def Workflow.ends (wf : Workflow) (i : Nat) : Nat := Lib.countSince (Entry.isStart i) (Entry.isEnd i) wf.trace

/-- How many times light task `j` of task `i` has been counted since the last submission of the task. -/
def Workflow.lightEnds (wf : Workflow) (i j : Nat) : Nat :=
  Lib.countSince (Entry.isStart i) (Entry.isLightEnd i j) wf.trace

/-- Between two submissions task `i` and each of its light tasks are counted once at most. -/
def EndsOnce (i : Nat) (trace : List Entry) : Prop :=
  Lib.OnceBetween (Entry.isStart i) (Entry.isEnd i) trace ∧
    ∀ j, Lib.OnceBetween (Entry.isStart i) (Entry.isLightEnd i j) trace

/-! ## What a step does to one task -/

/-- A task and its light tasks do not come back from a terminal status. -/
structure Task.Tame (t t' : Task) : Prop where
  operator : t'.operator = t.operator
  status : t.status.Terminal → t'.status.Terminal
  light : ∀ j, (t.lightTask j).status.Terminal → (t'.lightTask j).status.Terminal

namespace Task.Tame

variable {t t' t'' : Task}

theorem refl (t : Task) : t.Tame t := ⟨rfl, id, fun _ => id⟩

theorem trans (h : t.Tame t') (h' : t'.Tame t'') : t.Tame t'' :=
  ⟨h'.operator.trans h.operator, fun hs => h'.status (h.status hs), fun j hj => h'.light j (h.light j hj)⟩

theorem of_status (ho : t'.operator = t.operator) (hl : t'.lightTasks = t.lightTasks)
    (hs : t.status.Terminal → t'.status.Terminal) : t.Tame t' := by
  refine ⟨ho, hs, fun j hj => ?_⟩
  rw [lightTask, hl]
  exact hj

theorem of_eq (ho : t'.operator = t.operator) (hl : t'.lightTasks = t.lightTasks) (hs : t'.status = t.status) :
    t.Tame t' := of_status ho hl fun h => hs ▸ h

end Task.Tame

/-- Nothing about task `i` is recorded. -/
def Silent (i : Nat) (wf wf' : Workflow) : Prop := ∃ l, wf'.trace = l ++ wf.trace ∧ ∀ e ∈ l, ¬ e.Concerns i

structure Tame (i : Nat) (wf wf' : Workflow) : Prop where
  task : (wf.tasks i).Tame (wf'.tasks i)
  trace : Silent i wf wf'

/-- Task `i` is counted as ended, once, and its status is terminal. -/
structure Ends (i : Nat) (wf wf' : Workflow) : Prop where
  task : (wf.tasks i).Tame (wf'.tasks i)
  isOver : (wf'.tasks i).status.Terminal
  trace : ∃ l l', wf'.trace = l ++ Entry.ended i :: (l' ++ wf.trace) ∧ (∀ e ∈ l, ¬ e.Concerns i) ∧
    ∀ e ∈ l', ¬ e.Concerns i

/-- A task whose status is terminal is not counted again. -/
def Evolves (i : Nat) (wf wf' : Workflow) : Prop :=
  Tame i wf wf' ∨ (¬ (wf.tasks i).status.Terminal ∧ Ends i wf wf')

section Relations

variable {i k : Nat} {wf wf' wf'' : Workflow}

theorem Silent.refl (i : Nat) (wf : Workflow) : Silent i wf wf := ⟨[], rfl, fun _ h => absurd h List.not_mem_nil⟩

theorem Silent.of_trace (h : wf'.trace = wf.trace) : Silent i wf wf' := ⟨[], h, fun _ h => absurd h List.not_mem_nil⟩

theorem Silent.record {e : Entry} (h : ¬ e.Concerns i) : Silent i wf (wf.record e) :=
  ⟨[e], rfl, fun e' he' => by rwa [List.mem_singleton.mp he']⟩

theorem Silent.trans (h : Silent i wf wf') (h' : Silent i wf' wf'') : Silent i wf wf'' := by
  obtain ⟨l, hl, hc⟩ := h
  obtain ⟨l', hl', hc'⟩ := h'
  refine ⟨l' ++ l, by rw [hl', hl, List.append_assoc], fun e he => ?_⟩
  rcases List.mem_append.mp he with he | he
  · exact hc' e he
  · exact hc e he

namespace Tame

theorem refl (i : Nat) (wf : Workflow) : Tame i wf wf := ⟨.refl _, .refl i wf⟩

theorem trans (h : Tame i wf wf') (h' : Tame i wf' wf'') : Tame i wf wf'' :=
  ⟨h.task.trans h'.task, h.trace.trans h'.trace⟩

theorem of_tasks (h : wf'.tasks = wf.tasks) (ht : wf'.trace = wf.trace) : Tame i wf wf' :=
  ⟨by rw [h]; exact .refl _, .of_trace ht⟩

theorem modify {f : Task → Task} (hf : k = i → (wf.tasks i).Tame (f (wf.tasks i))) : Tame i wf (wf.modify k f) := by
  refine ⟨?_, .of_trace rfl⟩
  rw [Workflow.modify_tasks]
  split_ifs with hk
  · subst hk
    exact hf rfl
  · exact .refl _

theorem setTaskStatus {s : JobStatus} (hs : s.Terminal) : Tame i wf (wf.setTaskStatus k s) :=
  modify fun _ => .of_status rfl rfl fun _ => hs

theorem record {e : Entry} (h : ¬ e.Concerns i) : Tame i wf (wf.record e) := ⟨.refl _, .record h⟩

theorem raiseStatus (s : JobStatus) : Tame i wf (raiseStatus wf s) := by
  unfold OphidiaWorkflow.raiseStatus
  split
  · exact of_tasks rfl rfl
  · exact refl i wf

end Tame

theorem Ends.trans_tame (h : Ends i wf wf') (h' : Tame i wf' wf'') : Ends i wf wf'' := by
  refine ⟨h.task.trans h'.task, h'.task.status h.isOver, ?_⟩
  obtain ⟨l, l', ht, hc, hc'⟩ := h.trace
  obtain ⟨m, hm, hcm⟩ := h'.trace
  refine ⟨m ++ l, l', by rw [hm, ht, List.append_assoc], fun e he => ?_, hc'⟩
  rcases List.mem_append.mp he with he | he
  · exact hcm e he
  · exact hc e he

theorem Tame.trans_ends (h : Tame i wf wf') (h' : Ends i wf' wf'') : Ends i wf wf'' := by
  refine ⟨h.task.trans h'.task, h'.isOver, ?_⟩
  obtain ⟨m, hm, hcm⟩ := h.trace
  obtain ⟨l, l', ht, hc, hc'⟩ := h'.trace
  refine ⟨l, l' ++ m, by rw [ht, hm, List.append_assoc], hc, fun e he => ?_⟩
  rcases List.mem_append.mp he with he | he
  · exact hc' e he
  · exact hcm e he

theorem Ends.trans_evolves (h : Ends i wf wf') (h' : Evolves i wf' wf'') : Ends i wf wf'' := by
  rcases h' with h' | ⟨hnot, -⟩
  · exact h.trans_tame h'
  · exact absurd h.isOver hnot

theorem Evolves.trans (h : Evolves i wf wf') (h' : Evolves i wf' wf'') : Evolves i wf wf'' := by
  rcases h with h | ⟨hnot, h⟩
  · rcases h' with h' | ⟨hnot', h'⟩
    · exact .inl (h.trans h')
    · exact .inr ⟨fun hs => hnot' (h.task.status hs), h.trans_ends h'⟩
  · exact .inr ⟨hnot, h.trans_evolves h'⟩

theorem Evolves.operator (h : Evolves i wf wf') : (wf'.tasks i).operator = (wf.tasks i).operator := by
  rcases h with h | ⟨-, h⟩
  · exact h.task.operator
  · exact h.task.operator

theorem Evolves.task (h : Evolves i wf wf') : (wf.tasks i).Tame (wf'.tasks i) := by
  rcases h with h | ⟨-, h⟩
  · exact h.task
  · exact h.task

end Relations

/-- The status of task `i` is left out of `Tame`: the task may be retried. -/
structure Quiet (i : Nat) (wf wf' : Workflow) : Prop where
  operator : (wf'.tasks i).operator = (wf.tasks i).operator
  light : ∀ j, ((wf.tasks i).lightTask j).status.Terminal → ((wf'.tasks i).lightTask j).status.Terminal
  trace : Silent i wf wf'

section Counting

variable {i k : Nat} {wf wf' wf'' : Workflow}

theorem Tame.quiet (h : Tame i wf wf') : Quiet i wf wf' := ⟨h.task.operator, h.task.light, h.trace⟩

theorem Quiet.trans (h : Quiet i wf wf') (h' : Quiet i wf' wf'') : Quiet i wf wf'' :=
  ⟨h'.operator.trans h.operator, fun j hj => h'.light j (h.light j hj), h.trace.trans h'.trace⟩

theorem Quiet.tame (h : Quiet i wf wf') (hs : (wf.tasks i).status.Terminal → (wf'.tasks i).status.Terminal) :
    Tame i wf wf' := ⟨⟨h.operator, hs, h.light⟩, h.trace⟩

theorem ended_not_concerns (h : k ≠ i) : ¬ (Entry.ended k).Concerns i := by
  simp [Entry.Concerns, Entry.isStart, Entry.isEnd, Entry.isLightEnd, h]

theorem completed_not_concerns (i k : Nat) : ¬ (Entry.completed k).Concerns i := by
  simp [Entry.Concerns, Entry.isStart, Entry.isEnd, Entry.isLightEnd]

theorem Tame.countEnded (h : k ≠ i) : Tame i wf (wf.countEnded k) :=
  ⟨.refl _, [.ended k], rfl, fun e he => by rw [List.mem_singleton.mp he]; exact ended_not_concerns h⟩

theorem Ends.countEnded (h : (wf.tasks i).status.Terminal) : Ends i wf (wf.countEnded i) :=
  ⟨.refl _, h, [], [], rfl, fun _ he => absurd he List.not_mem_nil, fun _ he => absurd he List.not_mem_nil⟩

theorem evolves_end {s : JobStatus} (hs : s.Terminal) (hk : (wf.tasks k).status < .completed) :
    Evolves i wf ((wf.countEnded k).setTaskStatus k s) := by
  rcases eq_or_ne k i with rfl | hki
  · refine .inr ⟨JobStatus.not_terminal_iff.mpr hk, ?_⟩
    have hset : Tame k (wf.countEnded k) ((wf.countEnded k).setTaskStatus k s) := .setTaskStatus hs
    refine ⟨(Task.Tame.refl _).trans hset.task, ?_, [], [], rfl, fun _ he => absurd he List.not_mem_nil,
      fun _ he => absurd he List.not_mem_nil⟩
    simpa [Workflow.setTaskStatus] using hs
  · exact .inl ((Tame.countEnded hki).trans (.setTaskStatus hs))

end Counting

/-! ## Status propagation and release of the dependents -/

section Release

variable (i : Nat)

theorem setStatus_evolves {target : JobStatus} (ht : target.Terminal) (fuel : Nat) (dependents : List Nat)
    (wf : Workflow) : Evolves i wf (setStatus target fuel dependents wf).1 := by
  induction fuel generalizing dependents wf with
  | zero => exact .inl (.refl i wf)
  | succ fuel ih =>
    unfold setStatus
    refine Lib.foldWhile_induct (Evolves i wf) (.inl (.refl i wf)) fun k _ wf' h => h.trans ?_
    simp only
    split
    · exact .inl (.refl i wf')
    · split
      · exact .inl (.refl i wf')
      · split
        case isTrue hk => exact (evolves_end ht hk).trans (ih _ _)
        · exact Evolves.trans (.inl (.setTaskStatus ht)) (ih _ _)

theorem abortDependents_evolves (wf : Workflow) (k : Nat) : Evolves i wf (abortDependents wf k).1 :=
  setStatus_evolves i (by decide) _ _ wf

theorem addArgument_tame (t : Task) (key order object : String) : t.Tame (t.addArgument key order object) := by
  unfold Task.addArgument
  split
  · exact .of_eq rfl rfl rfl
  · exact .of_eq rfl rfl rfl

theorem feedArgument_evolves (src dst : Nat) (d : Dep) (st : DepLoop) :
    Evolves i st.wf (feedArgument src dst d st).wf := by
  have habort : Evolves i st.wf (abortDependents (st.wf.setTaskStatus dst .aborted) dst).1 :=
    Evolves.trans (.inl (.setTaskStatus (by decide))) (abortDependents_evolves i _ dst)
  rcases feedArgument_wf src dst d st with h | h | h | ⟨object, h⟩
  · exact h ▸ .inl (.refl i _)
  · exact h ▸ habort
  · exact h ▸ habort.trans (.inl (.of_tasks rfl rfl))
  · exact h ▸ .inl (.modify fun _ => addArgument_tame _ _ _ _)

theorem satisfyDep_evolves (src dst : Nat) (st : DepLoop) (j : Nat) :
    Evolves i st.wf (satisfyDep src dst st j).1.wf := by
  have hfeed := feedArgument_evolves i src dst ((st.wf.tasks dst).deps.getD j default) st
  unfold satisfyDep
  simp only
  split
  · exact .inl (.refl i _)
  · split
    · exact hfeed
    · split
      · exact hfeed
      · split
        · refine hfeed.trans (.inl (.record ?_))
          simp [Entry.Concerns, Entry.isStart, Entry.isEnd, Entry.isLightEnd]
        · exact hfeed.trans (.inl (.modify fun _ => .of_eq rfl rfl rfl))

theorem releaseDependents_evolves (wf : Workflow) (src : Nat) : Evolves i wf (releaseDependents wf src).wf := by
  unfold releaseDependents
  refine Lib.foldWhile_induct (fun st : DepLoop => Evolves i wf st.wf) (.inl (.refl i wf)) fun dst _ st h => ?_
  unfold satisfyDeps
  split
  · refine Lib.foldWhile_induct (fun st : DepLoop => Evolves i wf st.wf) h fun j _ st' h' => ?_
    exact h'.trans (satisfyDep_evolves i src dst st' j)
  · exact h

end Release

/-! ## Accounting -/

section Account

variable (env : NotifyEnv) {i k : Nat} {wf : Workflow}

theorem unselect_tame (t : Task) : t.Tame t.unselect := by
  unfold Task.unselect
  split
  · exact .of_status rfl rfl fun _ => (by decide : JobStatus.unselected.Terminal)
  · exact .refl t

theorem takeOutputs_tame (outputs : List (String × String)) (t : Task) : t.Tame (t.takeOutputs outputs) := by
  unfold Task.takeOutputs
  split
  · exact .of_eq rfl rfl rfl
  · exact .refl t

theorem skip_tame (t : Task) : t.Tame t.skip := by
  unfold Task.skip
  split
  · exact .of_status rfl rfl fun _ => (by decide : JobStatus.skipped.Terminal)
  · exact .refl t

theorem checkEnd_tame (i : Nat) (wf : Workflow) : Tame i wf (checkEnd wf).wf := by
  unfold checkEnd
  split
  · exact .refl i wf
  · split
    · exact .raiseStatus _
    · exact .refl i wf

theorem accountCompleted_evolves (i k : Nat) (wf : Workflow) (outputs : List (String × String)) :
    Evolves i (((wf.modify k Task.unselect).countEnded k).record (.completed k))
      (accountCompleted env wf k outputs).wf := by
  have hout : Evolves i (((wf.modify k Task.unselect).countEnded k).record (.completed k))
      ((((wf.modify k Task.unselect).countEnded k).record (.completed k)).modify k (Task.takeOutputs outputs)) :=
    .inl (.modify fun _ => takeOutputs_tame outputs _)
  have hrel := hout.trans (releaseDependents_evolves i _ k)
  have hexit (wf' : Workflow) : Evolves i wf' (addExitObject env wf') := .inl (.of_tasks rfl rfl)
  unfold accountCompleted
  simp only
  split
  · exact .inl (.refl i _)
  · split
    · exact hrel
    · exact hrel.trans ((hexit _).trans (.inl (checkEnd_tame i _)))

theorem accountCompleted_ends (h : (wf.tasks i).status.Terminal) (outputs : List (String × String)) :
    Ends i wf (accountCompleted env wf i outputs).wf := by
  have hun : Tame i wf (wf.modify i Task.unselect) := .modify fun _ => unselect_tame _
  have hend : Ends i wf ((wf.modify i Task.unselect).countEnded i) :=
    hun.trans_ends (.countEnded (hun.task.status h))
  exact (hend.trans_tame (.record (completed_not_concerns i i))).trans_evolves (accountCompleted_evolves env i i wf _)

theorem accountContinue_evolves (i k : Nat) (wf : Workflow) :
    Evolves i (wf.countEnded k) (accountContinue wf k).wf := by
  have habort := abortDependents_evolves i (wf.countEnded k) k
  unfold accountContinue
  simp only
  split
  · exact habort
  · split
    · exact habort.trans (.inl (.raiseStatus _))
    · exact habort

theorem autoRetryUpdate_tame (ophAutoRetry : Nat) (t : Task) : t.Tame (autoRetryUpdate ophAutoRetry t).1 := by
  unfold autoRetryUpdate
  split_ifs
  all_goals exact .of_eq rfl rfl rfl

theorem setTaskStatus_quiet (s : JobStatus) : Quiet i wf (wf.setTaskStatus k s) := by
  refine ⟨?_, fun j hj => ?_, .of_trace rfl⟩
  · rw [Workflow.setTaskStatus, Workflow.modify_tasks]
    split_ifs with h
    · rw [h]
    · rfl
  · rw [Workflow.setTaskStatus, Workflow.modify_tasks]
    split_ifs with h
    · rw [h] at hj
      exact hj
    · exact hj

theorem accountRetry_cases (ophAutoRetry i : Nat) (wf : Workflow) (h : (wf.tasks i).status.Terminal) :
    Ends i wf (accountRetry ophAutoRetry wf i).wf ∨ Quiet i wf (accountRetry ophAutoRetry wf i).wf := by
  have hauto : Tame i wf (wf.modify i fun _ => (autoRetryUpdate ophAutoRetry (wf.tasks i)).1) :=
    .modify fun _ => autoRetryUpdate_tame ophAutoRetry _
  have hcount : Tame i wf ((wf.modify i fun _ => (autoRetryUpdate ophAutoRetry (wf.tasks i)).1).modify i
      Task.countRetry) := hauto.trans (.modify fun _ => .of_eq rfl rfl rfl)
  unfold accountRetry
  simp only
  split
  · exact .inr (hauto.quiet.trans (setTaskStatus_quiet _))
  · split
    · exact .inr (hcount.quiet.trans (setTaskStatus_quiet _))
    · exact .inl ((hcount.trans_ends (.countEnded (hcount.task.status h))).trans_tame (.of_tasks rfl rfl))

theorem accountRetry_tame (ophAutoRetry : Nat) (wf : Workflow) (h : k ≠ i) :
    Tame i wf (accountRetry ophAutoRetry wf k).wf := by
  have hother (wf : Workflow) (f : Task → Task) : Tame i wf (wf.modify k f) := .modify fun hk => absurd hk h
  have hset (wf : Workflow) (s : JobStatus) : Tame i wf (wf.setTaskStatus k s) := .modify fun hk => absurd hk h
  unfold accountRetry
  simp only
  split
  · exact (hother _ _).trans (hset _ _)
  · split
    · exact ((hother _ _).trans (hother _ _)).trans (hset _ _)
    · exact (((hother _ _).trans (hother _ _)).trans (.countEnded h)).trans (.of_tasks rfl rfl)

theorem saveResponse_tame (i : Nat) (wf : Workflow) (k : Nat) (json : String) : Tame i wf (saveResponse wf k json) := by
  unfold saveResponse
  split
  · exact .modify fun _ => .of_eq rfl rfl rfl
  · exact .refl i wf

variable (ophAutoRetry : Nat) (n : Notification) (outputs : List (String × String)) (s : JobStatus)

theorem account_evolves (wf : Workflow) (h : n.taskIndex ≠ i) :
    Evolves i wf (account ophAutoRetry env n outputs wf s).wf := by
  have hskip : Tame i wf ((saveResponse wf n.taskIndex n.outputJson).modify n.taskIndex Task.skip) :=
    (saveResponse_tame i wf _ _).trans (.modify fun _ => skip_tame _)
  have hother (wf : Workflow) (f : Task → Task) : Tame i wf (wf.modify n.taskIndex f) := .modify fun hk => absurd hk h
  unfold account
  simp only
  split
  · exact .inl (.refl i wf)
  · split
    · exact .inl (.refl i wf)
    · split
      · refine Evolves.trans (.inl (hskip.trans ?_)) (accountCompleted_evolves env i n.taskIndex _ outputs)
        exact ((hother _ _).trans (.countEnded h)).trans (.record (completed_not_concerns i _))
      · split
        · exact Evolves.trans (.inl (hskip.trans (.countEnded h))) (accountContinue_evolves i n.taskIndex _)
        · split
          · exact .inl hskip
          · exact .inl (hskip.trans (accountRetry_tame ophAutoRetry _ h))

/-- The task of the notification, whose status has just become terminal. -/
theorem account_cases (h : (wf.tasks n.taskIndex).status.Terminal) :
    (Ends n.taskIndex wf (account ophAutoRetry env n outputs wf s).wf ∨
      Quiet n.taskIndex wf (account ophAutoRetry env n outputs wf s).wf) ∧
    (s = .completed → Ends n.taskIndex wf (account ophAutoRetry env n outputs wf s).wf ∨
      Tame n.taskIndex wf (account ophAutoRetry env n outputs wf s).wf) := by
  have hskip : Tame n.taskIndex wf ((saveResponse wf n.taskIndex n.outputJson).modify n.taskIndex Task.skip) :=
    (saveResponse_tame _ wf _ _).trans (.modify fun _ => skip_tame _)
  have hover := hskip.task.status h
  have both {wf' : Workflow} (h' : Ends n.taskIndex wf wf' ∨ Tame n.taskIndex wf wf') :
      (Ends n.taskIndex wf wf' ∨ Quiet n.taskIndex wf wf') ∧
        (s = .completed → Ends n.taskIndex wf wf' ∨ Tame n.taskIndex wf wf') :=
    ⟨h'.imp id Tame.quiet, fun _ => h'⟩
  unfold account
  simp only
  split
  · exact both (.inr (.refl _ wf))
  · split
    · exact both (.inr (.refl _ wf))
    · split
      · exact both (.inl (hskip.trans_ends (accountCompleted_ends env hover outputs)))
      case isFalse hs =>
        rw [not_or] at hs
        refine ⟨?_, fun hc => absurd hc hs.1⟩
        split
        · exact .inl ((hskip.trans_ends (.countEnded hover)).trans_evolves (accountContinue_evolves _ _ _))
        · split
          · exact .inr hskip.quiet
          · rcases accountRetry_cases ophAutoRetry n.taskIndex _ hover with hr | hr
            · exact .inl (hskip.trans_ends hr)
            · exact .inr (hskip.quiet.trans hr)

theorem conclude_tame (i k : Nat) (v : Verdict) : Tame i v.wf (conclude env k v).1 := by
  have hfinal : Tame i v.wf (finalise v.wf) := by
    unfold finalise
    split
    · exact .of_tasks rfl rfl
    · exact .of_tasks rfl rfl
  unfold conclude
  split
  · exact .refl i _
  · split
    · exact hfinal
    · split_ifs
      all_goals exact .refl i _

end Account

/-! ## Notifications -/

/-- The status a notification is processed with, unless it is refused or neglected. -/
def Notification.processed (n : Notification) (wf : Workflow) : Option JobStatus :=
  match n.status.notified with
  | none => none
  | some status =>
    if wf.dropped ∨ (n.jobid = 0 ∧ (wf.tasks n.taskIndex).idjob = 0 ∧ (wf.tasks n.taskIndex).status < .error) ∨
        (wf.isClosed ∨ .aborted ≤ wf.status) ∨
        (status = .error ∧ (targetStatus wf n = .unknown ∨ .completed ≤ targetStatus wf n)) then none
    else some status

/-- A light task of task `i` is counted, and its status is terminal. -/
structure LightEnds (i j : Nat) (wf wf' : Workflow) : Prop where
  task : (wf.tasks i).Tame (wf'.tasks i)
  isOver : ((wf'.tasks i).lightTask j).status.Terminal
  trace : ∃ l, wf'.trace = Entry.endedLight i j :: (l ++ wf.trace) ∧ ∀ e ∈ l, ¬ e.Concerns i

section Notify

variable (ophAutoRetry : Nat) (env : NotifyEnv) {i : Nat} {wf : Workflow} {n : Notification} {status : JobStatus}

theorem notify_cases (wf : Workflow) (n : Notification) :
    (∃ status, n.processed wf = some status ∧ n.status.notified = some status ∧
        notify ophAutoRetry env n wf = settle ophAutoRetry env n (updateStatus ophAutoRetry env n wf status)) ∨
      (n.processed wf = none ∧ (notify ophAutoRetry env n wf).2 = [] ∧ ∀ i, Tame i wf (notify ophAutoRetry env n wf).1) := by
  have hresp (i : Nat) (status : JobStatus) : Tame i wf (internalResponse wf n status) :=
    .modify fun _ => .of_eq rfl rfl rfl
  cases hn : n.status.notified with
  | none => exact .inr (by simp [Notification.processed, notify, hn, Tame.refl])
  | some status =>
    simp only [Notification.processed, notify, hn]
    by_cases hd : wf.dropped = true
    · exact .inr (by simp [hd, Tame.refl])
    · by_cases hi : n.jobid = 0 ∧ (wf.tasks n.taskIndex).idjob = 0 ∧ (wf.tasks n.taskIndex).status < .error
      · exact .inr (by simp [hd, hi, hresp])
      · by_cases hc : wf.isClosed = true ∨ .aborted ≤ wf.status
        · refine .inr ⟨by simp [hc], ?_⟩
          rw [if_neg hd, if_neg hi, if_pos hc]
          split
          · exact ⟨rfl, fun i => .refl i wf⟩
          · exact ⟨rfl, fun i => .of_tasks rfl rfl⟩
        · by_cases he : status = .error ∧ (targetStatus wf n = .unknown ∨ .completed ≤ targetStatus wf n)
          · exact .inr (by simp [hd, hi, hc, he, Tame.refl])
          · exact .inl ⟨status, by simp [hd, hi, hc, he]⟩

theorem settle_todo (u : Update) : ∀ t ∈ (settle ophAutoRetry env n u).2, ∃ l, t = .execute l := by
  have hconclude (v : Verdict) : ∀ t ∈ (conclude env n.taskIndex v).2, ∃ l, t = .execute l := by
    unfold conclude
    intro t ht
    split_ifs at ht
    all_goals first
      | exact absurd ht List.not_mem_nil
      | exact ⟨_, List.mem_singleton.mp ht⟩
  unfold settle
  split
  · exact fun t ht => absurd ht List.not_mem_nil
  · split
    · exact fun t ht => absurd ht List.not_mem_nil
    · exact hconclude _

theorem toRunning_tame (t : Task) : t.Tame t.toRunning := by
  unfold Task.toRunning
  split
  case isTrue h =>
    refine .of_status rfl rfl fun hs => ?_
    simp only [JobStatus.Terminal, JobStatus.le_def, JobStatus.lt_def, JobStatus.code] at h hs
    omega
  · exact .refl t

theorem lightStartError_tame (i k : Nat) (wf : Workflow) : Tame i wf (lightStartError ophAutoRetry wf k) := by
  have hmark (t : Task) : t.Tame (t.markForAutoRetry ophAutoRetry) := by
    unfold Task.markForAutoRetry
    split
    · exact .of_eq rfl rfl rfl
    · exact .refl t
  unfold lightStartError
  exact ((Tame.modify fun _ => hmark _).trans (.modify fun _ => toRunning_tame _)).trans (.raiseStatus _)

theorem markAutoRetry_tame (s : JobStatus) (t : Task) : t.Tame (markAutoRetry ophAutoRetry s t).1 := by
  unfold markAutoRetry
  split_ifs
  all_goals exact .of_eq rfl rfl rfl

/-! ### The other tasks -/

theorem updateStatus_tame (h : n.taskIndex ≠ i) : Tame i wf (updateStatus ophAutoRetry env n wf status).wf := by
  have hother (wf : Workflow) (f : Task → Task) : Tame i wf (wf.modify n.taskIndex f) := .modify fun hk => absurd hk h
  have hset (wf : Workflow) (s : JobStatus) : Tame i wf (wf.setTaskStatus n.taskIndex s) := hother wf _
  have hlight (wf : Workflow) (j : Nat) : Tame i wf (lightOver wf n.taskIndex j status n.outputs).wf := by
    have hrec (wf' : Workflow) : Tame i wf' (wf'.record (.endedLight n.taskIndex j)) := by
      refine .record ?_
      simp [Entry.Concerns, Entry.isStart, Entry.isEnd, Entry.isLightEnd, h]
    unfold lightOver
    split
    · exact .refl i wf
    · simp only
      split
      · exact ((hother _ _).trans (hrec _)).trans (hset _ _)
      · exact (hother _ _).trans (hrec _)
  unfold updateStatus
  split
  case h_1 j _ =>
    have hpre : Tame i wf (writeLight ophAutoRetry wf n j) := by
      unfold writeLight
      split
      · exact (hother _ _).trans (lightStartError_tame ophAutoRetry i _ _)
      · exact hother _ _
    unfold notifyLight
    simp only
    split
    · exact hpre
    · split
      · exact hpre.trans (hlight _ _)
      · split
        · exact hpre.trans ((hother _ _).trans (.raiseStatus _))
        · exact hpre
  · have hpre := hother wf fun _ =>
      (markAutoRetry ophAutoRetry n.status { wf.tasks n.taskIndex with status := n.status }).1
    unfold notifyTask
    simp only
    split
    · exact hpre
    · split
      · exact hpre
      · split
        · exact hpre.trans (.raiseStatus _)
        · exact hpre

theorem notify_evolves (h : n.taskIndex ≠ i) : Evolves i wf (notify ophAutoRetry env n wf).1 := by
  rcases notify_cases ophAutoRetry env wf n with ⟨status, -, -, heq⟩ | ⟨-, -, ht⟩
  · have hu : Tame i wf (updateStatus ophAutoRetry env n wf status).wf := updateStatus_tame ophAutoRetry env h
    rw [heq]
    unfold settle
    split
    · exact .inl hu
    · split
      · exact .inl hu
      · exact (Evolves.trans (.inl hu) (account_evolves env ophAutoRetry n _ _ _ h)).trans
          (.inl (conclude_tame env i _ _))
  · exact .inl (ht i)

/-! ### The task of the notification -/

theorem terminal_of_notified (h : n.status.notified = some status) (hs : status = .completed ∨ status = .error) :
    n.status.Terminal := by
  cases hc : n.status
  all_goals simp only [hc, JobStatus.notified, Option.some.injEq, reduceCtorEq] at h
  all_goals first
    | decide
    | (subst h; simp at hs)

theorem Quiet.trans_ends {wf' wf'' : Workflow} (h : Quiet i wf wf') (h' : Ends i wf' wf'') : Ends i wf wf'' := by
  refine ⟨⟨h'.task.operator.trans h.operator, fun _ => h'.isOver, fun j hj => h'.task.light j (h.light j hj)⟩,
    h'.isOver, ?_⟩
  obtain ⟨m, hm, hcm⟩ := h.trace
  obtain ⟨l, l', ht, hc, hc'⟩ := h'.trace
  refine ⟨l, l' ++ m, by rw [ht, hm, List.append_assoc], hc, fun e he => ?_⟩
  rcases List.mem_append.mp he with he | he
  · exact hc' e he
  · exact hcm e he

theorem markAutoRetry_status (s : JobStatus) (t : Task) : (markAutoRetry ophAutoRetry s t).1.status = t.status := by
  unfold markAutoRetry
  split_ifs
  all_goals rfl

theorem settle_notifyTask_cases (hn : n.status.notified = some status) :
    (Ends n.taskIndex wf (settle ophAutoRetry env n (notifyTask ophAutoRetry env wf n status)).1 ∨
      Quiet n.taskIndex wf (settle ophAutoRetry env n (notifyTask ophAutoRetry env wf n status)).1) ∧
    (status = .completed → Ends n.taskIndex wf (settle ophAutoRetry env n (notifyTask ophAutoRetry env wf n status)).1 ∨
      Tame n.taskIndex wf (settle ophAutoRetry env n (notifyTask ophAutoRetry env wf n status)).1) := by
  obtain ⟨wf₁, hwf₁⟩ : ∃ wf₁, wf₁ = wf.modify n.taskIndex fun _ =>
      (markAutoRetry ophAutoRetry n.status { wf.tasks n.taskIndex with status := n.status }).1 := ⟨_, rfl⟩
  have hstatus : (wf₁.tasks n.taskIndex).status = n.status := by
    rw [hwf₁, Workflow.modify_tasks_self, markAutoRetry_status]
  have hquiet : Quiet n.taskIndex wf wf₁ := by
    have hmark := markAutoRetry_tame ophAutoRetry n.status { wf.tasks n.taskIndex with status := n.status }
    have hset : Quiet n.taskIndex wf (wf.setTaskStatus n.taskIndex n.status) := setTaskStatus_quiet _
    rw [hwf₁]
    refine ⟨?_, fun j hj => ?_, .of_trace rfl⟩
    · rw [Workflow.modify_tasks_self]
      exact hmark.operator
    · rw [Workflow.modify_tasks_self]
      exact hmark.light j hj
  have hdone (hs : n.status.Terminal) : Tame n.taskIndex wf wf₁ := hquiet.tame fun _ => hstatus ▸ hs
  unfold notifyTask
  simp only [← hwf₁]
  split
  · exact ⟨.inr hquiet, fun hc => .inr (hdone (terminal_of_notified hn (.inl hc)))⟩
  · split
    case isTrue hover =>
      have hterm := terminal_of_notified hn hover
      have hterm' : (wf₁.tasks n.taskIndex).status.Terminal := hstatus ▸ hterm
      obtain ⟨hcases, hcompleted⟩ := account_cases env ophAutoRetry n n.outputs status hterm'
      have hconc := conclude_tame env n.taskIndex n.taskIndex (account ophAutoRetry env n n.outputs wf₁ status)
      refine ⟨?_, fun hc => ?_⟩
      · rcases hcases with h | h
        · exact .inl (hquiet.trans_ends (h.trans_tame hconc))
        · exact .inr (hquiet.trans (h.trans hconc.quiet))
      · rcases hcompleted hc with h | h
        · exact .inl (hquiet.trans_ends (h.trans_tame hconc))
        · exact .inr (((hdone hterm).trans h).trans hconc)
    case isFalse hover =>
      rw [not_or] at hover
      split
      · exact ⟨.inr (hquiet.trans (Tame.raiseStatus _).quiet), fun hc => absurd hc hover.1⟩
      · exact ⟨.inr hquiet, fun hc => absurd hc hover.1⟩

theorem lightTask_modifyLight (t : Task) (j m : Nat) (f : LightTask → LightTask)
    (hj : m = j → j < (t.lightTasks.getD []).length) :
    (t.modifyLight j f).lightTask m = if m = j then f (t.lightTask j) else t.lightTask m := by
  unfold Task.lightTask Task.modifyLight
  cases hl : t.lightTasks with
  | none =>
    split_ifs with hm
    · simpa [hl] using hj hm
    · rfl
  | some l =>
    simp only [Option.map_some, Option.getD_some, List.getD_eq_getElem?_getD, List.getElem?_modify]
    split_ifs with h₁ h₂ h₂
    · subst h₁
      have hlt : j < l.length := by simpa [hl] using hj rfl
      simp [hlt]
    · exact absurd h₁.symm h₂
    · exact absurd h₂.symm h₁
    · simp

theorem writeLight_tame (j : Nat) (hj : j < ((wf.tasks n.taskIndex).lightTasks.getD []).length)
    (hs : ((wf.tasks n.taskIndex).lightTask j).status.Terminal → n.status.Terminal) :
    Tame n.taskIndex wf (writeLight ophAutoRetry wf n j) ∧
      (n.status.Terminal → (((writeLight ophAutoRetry wf n j).tasks n.taskIndex).lightTask j).status.Terminal) := by
  have hlight (m : Nat) := lightTask_modifyLight (wf.tasks n.taskIndex) j m (fun l => { l with status := n.status })
    fun _ => hj
  have hset : Tame n.taskIndex wf
      (wf.modify n.taskIndex fun t => t.modifyLight j fun l => { l with status := n.status }) := by
    refine .modify fun _ => ⟨rfl, id, fun m hm => ?_⟩
    rw [hlight]
    split_ifs with hmj
    · exact hs (hmj ▸ hm)
    · exact hm
  have hover : n.status.Terminal → (((wf.modify n.taskIndex fun t =>
      t.modifyLight j fun l => { l with status := n.status }).tasks n.taskIndex).lightTask j).status.Terminal := by
    intro h
    rw [Workflow.modify_tasks_self, hlight, if_pos rfl]
    exact h
  unfold writeLight
  split
  · have hstart := lightStartError_tame ophAutoRetry n.taskIndex n.taskIndex
      (wf.modify n.taskIndex fun t => t.modifyLight j fun l => { l with status := n.status })
    exact ⟨hset.trans hstart, fun h => hstart.task.light j (hover h)⟩
  · exact ⟨hset, hover⟩

/-- A notification for a light task, which is counted before its task. -/
theorem settle_notifyLight_cases (j : Nat) (hn : n.status.notified = some status)
    (hj : j < ((wf.tasks n.taskIndex).lightTasks.getD []).length)
    (hs : ((wf.tasks n.taskIndex).lightTask j).status.Terminal → n.status.Terminal) :
    ∃ wf₂, (Tame n.taskIndex wf wf₂ ∨ LightEnds n.taskIndex j wf wf₂) ∧
      (Ends n.taskIndex wf₂ (settle ophAutoRetry env n (notifyLight ophAutoRetry env wf n j status)).1 ∨
        Quiet n.taskIndex wf₂ (settle ophAutoRetry env n (notifyLight ophAutoRetry env wf n j status)).1) := by
  obtain ⟨hwrite, hover⟩ := writeLight_tame ophAutoRetry j hj hs
  obtain ⟨wf₁, hwf₁⟩ : ∃ wf₁, wf₁ = writeLight ophAutoRetry wf n j := ⟨_, rfl⟩
  rw [← hwf₁] at hwrite hover
  unfold notifyLight
  simp only [← hwf₁]
  split
  · exact ⟨wf₁, .inl hwrite, .inr (Tame.refl _ _).quiet⟩
  · split
    case isTrue hterm =>
      unfold lightOver
      split
      · exact ⟨wf₁, .inl hwrite, .inr (Tame.refl _ _).quiet⟩
      · obtain ⟨wf₂, hwf₂⟩ : ∃ wf₂, wf₂ = (wf₁.modify n.taskIndex (Task.countLight status n.outputs)).record
            (.endedLight n.taskIndex j) := ⟨_, rfl⟩
        have hcount : Tame n.taskIndex wf (wf₁.modify n.taskIndex (Task.countLight status n.outputs)) :=
          hwrite.trans (.modify fun _ => .of_eq rfl rfl rfl)
        have hends : LightEnds n.taskIndex j wf wf₂ := by
          obtain ⟨l, hl, hc⟩ := hcount.trace
          refine ⟨?_, ?_, l, by rw [hwf₂, Workflow.record, hl], hc⟩
          · rw [hwf₂]
            exact hcount.task
          · rw [hwf₂, Workflow.record, Workflow.modify_tasks_self]
            exact hover (terminal_of_notified hn hterm)
        simp only [← hwf₂]
        refine ⟨wf₂, .inr hends, ?_⟩
        split
        · have hs' : (if allLightCompleted (wf₂.tasks n.taskIndex) then JobStatus.completed else .error).Terminal := by
            split <;> decide
          have hset : Tame n.taskIndex wf₂ (wf₂.setTaskStatus n.taskIndex
              (if allLightCompleted (wf₂.tasks n.taskIndex) then .completed else .error)) := .setTaskStatus hs'
          have hset' : ((wf₂.setTaskStatus n.taskIndex (if allLightCompleted (wf₂.tasks n.taskIndex) then .completed
              else .error)).tasks n.taskIndex).status.Terminal := by
            simpa [Workflow.setTaskStatus] using hs'
          obtain ⟨hcases, -⟩ := account_cases env ophAutoRetry n (if status = .completed then [] else n.outputs)
            (if allLightCompleted (wf₂.tasks n.taskIndex) then .completed else .error) hset'
          rcases hcases with h | h
          · exact .inl ((hset.trans_ends h).trans_tame (conclude_tame env _ _ _))
          · exact .inr (hset.quiet.trans (h.trans (conclude_tame env _ _ _).quiet))
        · exact .inr (Tame.refl _ _).quiet
    · split
      · exact ⟨wf₁, .inl hwrite, .inr ((Tame.modify fun _ => toRunning_tame _).trans (.raiseStatus _)).quiet⟩
      · exact ⟨wf₁, .inl hwrite, .inr (Tame.refl _ _).quiet⟩

end Notify

/-! ## The invariant -/

/-- A notification that `oph_workflow_execute` has built and that will count task `i`, or its light task `j`. -/
def Todo.owes (i : Nat) (j : Option Nat) : Todo → Bool
  | special n => n.taskIndex == i && n.lightTaskIndex == j && n.status.notified == some .completed
  | _ => false

def owed (i : Nat) (j : Option Nat) (todo : List Todo) : Nat := todo.countP (Todo.owes i j)

structure Counted (i : Nat) (todo : List Todo) (wf : Workflow) : Prop where
  task : wf.ends i + owed i none todo ≤ 1
  isOver : 0 < wf.ends i + owed i none todo → (wf.tasks i).status.Terminal
  light : ∀ j, wf.lightEnds i j + owed i (some j) todo ≤ 1
  lightOver : ∀ j, 0 < wf.lightEnds i j + owed i (some j) todo → ((wf.tasks i).lightTask j).status.Terminal
  once : EndsOnce i wf.trace

section Invariant

variable {i : Nat} {wf wf' : Workflow} {todo todo' : List Todo}

theorem owed_append (i : Nat) (j : Option Nat) (todo todo' : List Todo) :
    owed i j (todo ++ todo') = owed i j todo + owed i j todo' := List.countP_append

theorem silent_counts (h : Silent i wf wf') :
    wf'.ends i = wf.ends i ∧ (∀ j, wf'.lightEnds i j = wf.lightEnds i j) ∧
      (EndsOnce i wf.trace → EndsOnce i wf'.trace) := by
  obtain ⟨l, hl, hc⟩ := h
  have hc' : ∀ e ∈ l, e.isStart i = false ∧ e.isEnd i = false ∧ ∀ j, e.isLightEnd i j = false :=
    fun e he => Entry.not_concerns (hc e he)
  refine ⟨?_, fun j => ?_, fun h => ?_⟩
  · rw [Workflow.ends, hl]
    exact Lib.countSince_append fun e he => ⟨(hc' e he).1, (hc' e he).2.1⟩
  · rw [Workflow.lightEnds, hl]
    exact Lib.countSince_append fun e he => ⟨(hc' e he).1, (hc' e he).2.2 j⟩
  · rw [hl]
    exact ⟨h.1.append fun e he => ⟨(hc' e he).1, (hc' e he).2.1⟩,
      fun j => (h.2 j).append fun e he => ⟨(hc' e he).1, (hc' e he).2.2 j⟩⟩

theorem Counted.mono (h : Counted i todo wf) (ho : ∀ j, owed i j todo' ≤ owed i j todo) : Counted i todo' wf := by
  refine ⟨?_, fun hp => h.isOver ?_, fun j => ?_, fun j hp => h.lightOver j ?_, h.once⟩
  · exact (Nat.add_le_add_left (ho none) _).trans h.task
  · exact lt_of_lt_of_le hp (Nat.add_le_add_left (ho none) _)
  · exact (Nat.add_le_add_left (ho (some j)) _).trans (h.light j)
  · exact lt_of_lt_of_le hp (Nat.add_le_add_left (ho (some j)) _)

theorem Counted.tame (h : Counted i todo wf) (ht : Tame i wf wf') : Counted i todo wf' := by
  obtain ⟨he, hl, ho⟩ := silent_counts ht.trace
  refine ⟨he ▸ h.task, fun hp => ht.task.status (h.isOver (he ▸ hp)), fun j => (hl j) ▸ h.light j, fun j hp => ?_,
    ho h.once⟩
  exact ht.task.light j (h.lightOver j ((hl j) ▸ hp))

theorem Counted.quiet (h : Counted i todo wf) (hz : wf.ends i + owed i none todo = 0) (hq : Quiet i wf wf') :
    Counted i todo wf' := by
  obtain ⟨he, hl, ho⟩ := silent_counts hq.trace
  refine ⟨he ▸ h.task, fun hp => ?_, fun j => (hl j) ▸ h.light j, fun j hp => ?_, ho h.once⟩
  · rw [he, hz] at hp
    exact absurd hp (lt_irrefl 0)
  · exact hq.light j (h.lightOver j ((hl j) ▸ hp))

theorem Counted.ends (h : Counted i todo wf) (hz : wf.ends i + owed i none todo = 0) (he : Ends i wf wf') :
    Counted i todo wf' := by
  obtain ⟨l, l', ht, hc, hc'⟩ := he.trace
  have h₁ : Silent i wf { wf with trace := l' ++ wf.trace } := ⟨l', rfl, hc'⟩
  have h₂ : Silent i { wf' with trace := Entry.ended i :: (l' ++ wf.trace) } wf' := ⟨l, ht, hc⟩
  obtain ⟨he₁, hl₁, ho₁⟩ := silent_counts h₁
  obtain ⟨he₂, hl₂, ho₂⟩ := silent_counts h₂
  have hone : Workflow.ends { wf' with trace := Entry.ended i :: (l' ++ wf.trace) } i = wf.ends i + 1 := by
    rw [← he₁]
    exact (Lib.countSince_cons rfl).trans (by simp [Entry.isEnd, Workflow.ends])
  have hsame (j : Nat) : Workflow.lightEnds { wf' with trace := Entry.ended i :: (l' ++ wf.trace) } i j =
      wf.lightEnds i j := by
    rw [← hl₁ j]
    exact (Lib.countSince_cons rfl).trans (by simp [Entry.isLightEnd, Workflow.lightEnds])
  refine ⟨?_, fun _ => he.isOver, fun j => ?_, fun j hp => ?_, ho₂ ⟨?_, fun j => ?_⟩⟩
  · rw [he₂, hone]
    omega
  · rw [hl₂, hsame]
    exact h.light j
  · rw [hl₂, hsame] at hp
    exact he.task.light j (h.lightOver j hp)
  · refine (ho₁ h.once).1.cons ?_
    exact hone.le.trans (by omega)
  · refine ((ho₁ h.once).2 j).cons ?_
    exact (hsame j).le.trans ((Nat.le_add_right _ _).trans (h.light j))

theorem Counted.evolves (h : Counted i todo wf) (he : Evolves i wf wf') : Counted i todo wf' := by
  rcases he with he | ⟨hnot, he⟩
  · exact h.tame he
  · exact h.ends (Nat.eq_zero_of_not_pos fun hp => hnot (h.isOver hp)) he

theorem Counted.lightEnds {j : Nat} (h : Counted i todo wf) (hz : wf.lightEnds i j + owed i (some j) todo = 0)
    (he : LightEnds i j wf wf') : Counted i todo wf' ∧ wf'.ends i = wf.ends i := by
  obtain ⟨l, ht, hc⟩ := he.trace
  have h₁ : Silent i wf { wf with trace := l ++ wf.trace } := ⟨l, rfl, hc⟩
  obtain ⟨he₁, hl₁, ho₁⟩ := silent_counts h₁
  have hsame : wf'.ends i = wf.ends i := by
    rw [← he₁, Workflow.ends, ht]
    exact (Lib.countSince_cons rfl).trans (by simp [Entry.isEnd, Workflow.ends])
  have hlight (m : Nat) : wf'.lightEnds i m = wf.lightEnds i m + if j = m then 1 else 0 := by
    rw [← hl₁ m, Workflow.lightEnds, ht]
    refine (Lib.countSince_cons rfl).trans ?_
    simp [Entry.isLightEnd, Workflow.lightEnds]
  refine ⟨⟨hsame ▸ h.task, fun hp => he.task.status (h.isOver (hsame ▸ hp)), fun m => ?_, fun m hp => ?_, ?_,
    fun m => ?_⟩,
    hsame⟩
  · rw [hlight]
    have := h.light m
    split_ifs with hm
    · subst hm
      omega
    · exact this
  · rw [hlight] at hp
    split_ifs at hp with hm
    · exact hm ▸ he.isOver
    · exact he.task.light m (h.lightOver m hp)
  · rw [ht]
    refine (ho₁ h.once).1.cons ?_
    have hs :
        Lib.countSince (Entry.isStart i) (Entry.isEnd i) (Entry.endedLight i j :: (l ++ wf.trace)) = wf.ends i := by
      rw [← hsame, Workflow.ends, ht]
    exact hs.le.trans ((Nat.le_add_right _ _).trans h.task)
  · rw [ht]
    refine ((ho₁ h.once).2 m).cons ?_
    have hs : Lib.countSince (Entry.isStart i) (Entry.isLightEnd i m) (Entry.endedLight i j :: (l ++ wf.trace)) =
        wf.lightEnds i m + if j = m then 1 else 0 := by
      rw [← hlight, Workflow.lightEnds, ht]
    have := h.light m
    rw [hs]
    split_ifs with hm
    · subst hm
      omega
    · exact (Nat.le_add_right _ _).trans this

end Invariant

end OphidiaWorkflow
