import OphidiaWorkflow.Engine.AtMostOnce
import OphidiaWorkflow.Engine.Delivery
import OphidiaWorkflow.Flow.Disable

/-!
The outputs of the parents along any run. Loops save and restore what a task has been fed with, and they may make a task
ready before all its parents have fed it again.
-/
namespace OphidiaWorkflow

/-! ## Selections -/

/-- A selection may move dependences of task `i` from one task to another, and nothing else of it. -/
structure Turns (i : Nat) (wf wf' : Workflow) : Prop where
  stack : wf'.stack = wf.stack
  arguments : (wf'.tasks i).arguments = (wf.tasks i).arguments
  body : (wf'.tasks i).deps.map Dep.body = (wf.tasks i).deps.map Dep.body
  index : ∀ j, ((wf'.tasks i).deps.getD j default).taskIndex = ((wf.tasks i).deps.getD j default).taskIndex ∨
    (0 ≤ ((wf'.tasks i).deps.getD j default).taskIndex ∧ 0 ≤ ((wf.tasks i).deps.getD j default).taskIndex)
  active : wf'.status < .completed → wf.status < .completed

section Flow

variable {H : Nat → List (String × String) → Prop} {wf₀ wf wf' wf'' : Workflow} {i k : Nat}

theorem Spares.turns (h : Spares i wf wf') : Turns i wf wf' :=
  ⟨h.stack, h.arguments, by rw [h.deps], fun j => .inl (by rw [h.deps]), h.active⟩

theorem Turns.trans (h : Turns i wf wf') (h' : Turns i wf' wf'') : Turns i wf wf'' := by
  refine ⟨h'.stack.trans h.stack, h'.arguments.trans h.arguments, h'.body.trans h.body, fun j => ?_,
    fun ha => h.active (h'.active ha)⟩
  rcases h.index j with hj | ⟨hj, hj'⟩
  · rw [← hj]
    exact h'.index j
  · rcases h'.index j with hk | ⟨hk, -⟩
    · exact .inr ⟨hk ▸ hj, hj'⟩
    · exact .inr ⟨hk, hj'⟩

theorem Turns.modify {f : Task → Task} (hf : ∀ t : Task, (f t).arguments = t.arguments ∧
    (f t).deps.map Dep.body = t.deps.map Dep.body ∧
    ∀ j, ((f t).deps.getD j default).taskIndex = (t.deps.getD j default).taskIndex ∨
      (0 ≤ ((f t).deps.getD j default).taskIndex ∧ 0 ≤ (t.deps.getD j default).taskIndex)) :
    Turns i wf (wf.modify k f) := by
  by_cases hk : k = i
  · subst hk
    have ht := wf.modify_tasks_self k f
    obtain ⟨ha, hb, hj⟩ := hf (wf.tasks k)
    exact ⟨rfl, by rw [ht, ha], by rw [ht, hb], by rw [ht]; exact hj, id⟩
  · exact (Spares.modify_ne hk f).turns

theorem redirect_turns (t : Task) (a b : Nat) : (t.redirect a b).arguments = t.arguments ∧
    (t.redirect a b).deps.map Dep.body = t.deps.map Dep.body ∧
    ∀ j, ((t.redirect a b).deps.getD j default).taskIndex = (t.deps.getD j default).taskIndex ∨
      (0 ≤ ((t.redirect a b).deps.getD j default).taskIndex ∧ 0 ≤ (t.deps.getD j default).taskIndex) := by
  refine ⟨rfl, ?_, fun j => ?_⟩
  · unfold Task.redirect
    rw [List.map_map]
    refine List.map_congr_left fun d _ => ?_
    simp only [Function.comp]
    split <;> rfl
  · unfold Task.redirect
    rw [List.getD_eq_getElem?_getD, List.getD_eq_getElem?_getD, List.getElem?_map]
    cases t.deps[j]? with
    | none => exact .inl rfl
    | some d =>
      rw [Option.map_some, Option.getD_some, Option.getD_some]
      split_ifs with hd
      · exact .inr ⟨Int.natCast_nonneg b, hd ▸ Int.natCast_nonneg a⟩
      · exact .inl rfl

theorem dropDep_eq (a : Nat) (t : Task) : (t.dropDep a).arguments = t.arguments ∧ (t.dropDep a).deps = t.deps := by
  unfold Task.dropDep
  split <;> exact ⟨rfl, rfl⟩

theorem setDependent_turns (wf : Workflow) (m nk v : Nat) : Turns i wf (wf.modify m (Task.setDependent nk v)) :=
  .modify fun _ => ⟨rfl, rfl, fun _ => .inl rfl⟩

theorem selectDependent_turns {next : Nat → Workflow → Workflow × Bool} {status : JobStatus} {parent : Nat}
    {skip : Bool} {taskIndex nk j : Nat} (hnext : ∀ k wf, Turns i wf (next k wf).1) (wf : Workflow) :
    Turns i wf (selectDependent next status parent skip taskIndex nk wf j).1 := by
  have hredirect (wf : Workflow) (k a b : Nat) : Turns i wf (wf.modify k (Task.redirect a b)) :=
    .modify fun t => redirect_turns t a b
  have hdrop (wf : Workflow) (k a b : Nat) : Turns i wf (wf.modify k fun t => (t.dropDep a).redirect a b) := by
    refine .modify fun t => ?_
    have hr := redirect_turns (t.dropDep a) a b
    rw [(dropDep_eq a t).1, (dropDep_eq a t).2] at hr
    exact hr
  unfold selectDependent
  simp only
  split_ifs
  · exact ((setSkipped_steady wf _ skip).spares i).turns
  · exact (setDependent_turns wf _ nk _).trans (hdrop _ _ _ _)
  · exact (setDependent_turns wf _ nk _).trans (hredirect _ _ _ _)
  · exact (setDependent_turns wf _ nk _).trans ((setDependent_turns _ _ nk _).trans (hdrop _ _ _ _))
  · exact (Spares.refl i wf).turns
  · exact (((countUnselected_steady wf _).trans (.setTaskStatus _ status)).spares i).turns.trans (hnext _ _)

theorem skipBranch_turns (wf : Workflow) (k : Nat) (skip : Bool) : Turns i wf (skipBranch wf k skip) := by
  have hblock (status : JobStatus) (parent nk fuel taskIndex : Nat) (wf : Workflow) :
      Turns i wf (setStatusOfSelectionBlock status parent skip nk fuel taskIndex wf).1 := by
    induction fuel generalizing taskIndex wf with
    | zero => exact (Spares.refl i wf).turns
    | succ fuel ih =>
      unfold setStatusOfSelectionBlock
      refine Lib.foldWhile_induct (Turns i wf) (Spares.refl i wf).turns fun j _ wf' h => ?_
      exact h.trans (selectDependent_turns ih wf')
  exact hblock _ k 0 _ k wf

theorem ifImpl_turns (wf : Workflow) (k : Nat) (answer : Option Bool) : Turns i wf (ifImpl wf k answer).1 := by
  have hskip (wf : Workflow) (skip : Bool) : Turns i wf (wf.modify k (Task.setSkipped skip)) :=
    ((setSkipped_steady wf k skip).spares i).turns
  unfold ifImpl
  split
  · exact skipBranch_turns wf k true
  · split
    · exact (Spares.refl i wf).turns
    · exact (hskip wf true).trans ((skipBranch_turns _ k false).trans (hskip _ false))
    · refine ⟨rfl, ?_, ?_, fun j => .inl ?_, id⟩
      · simp only
        split <;> rfl
      · simp only
        split <;> rfl
      · simp only
        split <;> rfl

theorem elseImpl_turns (wf : Workflow) (k : Nat) : Turns i wf (elseImpl wf k) := by
  unfold elseImpl
  split
  · exact skipBranch_turns wf k false
  · exact (Spares.refl i wf).turns

/-- If the engine still waits for the parents of the task, none of its dependences has been moved. -/
theorem Supply.turns (h : Supply H wf₀ i wf) (hw : (wf₀.tasks i).Waits (wf.tasks i)) (ht : Turns i wf wf') :
    Supply H wf₀ i wf' := by
  intro ha
  obtain ⟨hf, hsup⟩ := h (ht.active ha)
  rw [ht.stack]
  refine ⟨hf, fun hw' => ?_⟩
  have hold := hsup hw
  refine ⟨ht.body.trans hold.deps, ?_⟩
  rw [ht.arguments]
  obtain ⟨outs, js, hs, harg⟩ := hold.fed
  refine ⟨outs, js, ⟨?_, hs.nodup, hs.parent, fun j hj => ?_⟩, harg⟩
  · have hlen := congrArg List.length (ht.body.trans hold.deps)
    rw [List.length_map, List.length_map] at hlen
    rw [List.length_map, hlen]
  · have hbefore := hs.index j hj
    rw [getD_taskIndex] at hbefore ⊢
    rcases ht.index j with hidx | ⟨hnew, hprev⟩
    · rw [hidx, hbefore]
    · rw [hbefore] at hprev
      rcases (hw' j hj.1 hj.2).1 with hidx | hidx
      · split_ifs at hprev ⊢
        · omega
        · exact hidx
      · omega

/-! ## Loops -/

theorem insertSize_steady (wf : Workflow) (name : String) (m : Nat) : Steady wf (insertSize wf name m) := by
  unfold insertSize
  split
  · exact .refl wf
  · exact insertVar_steady _ _ _

theorem forImpl_supply (args : Option ForArgs) (h : Supply H wf₀ i wf) (hw : (wf₀.tasks i).Waits (wf.tasks i)) :
    Supply H wf₀ i (forImpl wf k args).1 := by
  unfold forImpl
  split
  · exact h
  case h_2 a =>
    split
    · exact h
    case h_2 name _ =>
      simp only
      split_ifs
      · exact h
      · exact h
      · exact h.spares ((insertSize_steady wf name a.valuesNum).spares i)
      · have hvars := (insertSize_steady wf name a.valuesNum).trans
          (insertVar_steady _ name (loopVar k a.svalues a.ivalues 0))
        have hv := h.spares (hvars.spares i)
        have hw' := (hvars.spares i).waits_iff.mpr hw
        intro ha
        obtain ⟨hf, ht⟩ := hv ha
        refine ⟨fun f hf' => ?_, ht⟩
        rcases List.mem_cons.mp hf' with rfl | hf'
        · exact (ht hw').snapshot
        · exact hf f hf'

theorem newIteration_supplied {p m : Nat} {frame : Frame} {t₀ : Task} (h : t₀.Supplied H (wf.tasks i))
    (hf : Fed H t₀ (frame.tasks i).depsTaskIndex (frame.tasks i).arguments) :
    t₀.Supplied H ((newIteration wf p m frame).tasks i) := by
  have hreset : t₀.Supplied H ((resetBody wf p m frame).tasks i) := by
    unfold resetBody resetTask
    refine Lib.traverse_induct (fun s : Workflow × Nat => t₀.Supplied H (s.1.tasks i)) (fun s a t hs hv => ?_) _ _ h
    unfold resetVisit at hv
    split_ifs at hv
    cases hv
    show t₀.Supplied H ((s.1.modify a (Task.reset (frame.tasks a))).tasks i)
    rw [Workflow.modify_tasks]
    split_ifs with hi
    · subst hi
      exact hs.reset hf
    · exact hs
  have hdisable : t₀.Supplied H ((disableBody (resetBody wf p m frame) p m).tasks i) := by
    unfold disableBody disableDeps
    refine Lib.traverse_induct (fun wf : Workflow => t₀.Supplied H (wf.tasks i)) (fun wf a wf' hs hv => ?_) _ _ hreset
    unfold disableVisit at hv
    split_ifs at hv
    cases hv
    unfold disableTask
    rw [Workflow.modify_tasks]
    split_ifs with hi
    · subst hi
      exact hs.congr rfl rfl
    · exact hs
  unfold newIteration
  rw [Workflow.modify_tasks]
  split_ifs with hi
  · subst hi
    exact hdisable.congr rfl rfl
  · exact hdisable

theorem newIteration_frame (wf : Workflow) (p m : Nat) (frame : Frame) :
    (newIteration wf p m frame).stack = wf.stack ∧ (newIteration wf p m frame).status = wf.status := by
  have hreset : (resetBody wf p m frame).stack = wf.stack ∧ (resetBody wf p m frame).status = wf.status := by
    unfold resetBody resetTask
    refine Lib.traverse_induct (fun s : Workflow × Nat => s.1.stack = wf.stack ∧ s.1.status = wf.status)
      (fun s a t hs hv => ?_) _ _ ⟨rfl, rfl⟩
    unfold resetVisit at hv
    split_ifs at hv
    cases hv
    exact hs
  unfold newIteration disableBody disableDeps
  refine Lib.traverse_induct (fun wf' : Workflow => wf'.stack = wf.stack ∧ wf'.status = wf.status)
    (fun wf' a t hs hv => ?_) _ _ hreset
  unfold disableVisit at hv
  split_ifs at hv
  cases hv
  exact hs

theorem endforImpl_supply (h : Supply H wf₀ i wf) (hw : (wf₀.tasks i).Waits (wf.tasks i)) :
    Supply H wf₀ i (endforImpl wf k).1 := by
  unfold endforImpl
  split
  · exact h
  case h_2 frame hframe =>
    have hnext (ha : wf.status < .completed) {f : Frame} (hf : f ∈ nextIndex wf.stack frame.caller) :
        Fed H (wf₀.tasks i) (f.tasks i).depsTaskIndex (f.tasks i).arguments := by
      obtain ⟨g, hg, -, ht⟩ := mem_nextIndex hf
      rw [ht]
      exact (h ha).1 g hg
    split_ifs
    · exact fun ha => ⟨fun f hf => hnext ha hf, (h ha).2⟩
    · intro ha
      obtain ⟨hstack, hstatus⟩ := newIteration_frame (rebind wf frame) frame.caller k frame
      simp only [hstatus] at ha
      have ha : wf.status < .completed := ha
      refine ⟨fun f hf => ?_, fun _ => ?_⟩
      · simp only [hstack] at hf
        exact hnext ha hf
      · exact newIteration_supplied ((h ha).2 hw) ((h ha).1 frame (findFrame_mem hframe).1)
    · intro ha
      refine ⟨fun f hf => hnext ha (List.mem_of_mem_eraseP hf), fun _ => ?_⟩
      show (wf₀.tasks i).Supplied H (((advance wf frame).modify k Task.setParallel).tasks i)
      rw [Workflow.modify_tasks]
      split_ifs with hi
      · subst hi
        exact ((h ha).2 hw).congr rfl rfl
      · exact (h ha).2 hw

theorem serveOperator_supply (env : ServeEnv) (r : Request) (h : Supply H wf₀ i wf)
    (hw : (wf₀.tasks i).Waits (wf.tasks i)) : Supply H wf₀ i (serveOperator env wf r).1 := by
  unfold serveOperator
  simp only
  split
  · exact h
  · split
    case h_1 => exact h
    case h_2 =>
      split
      · exact h
      · exact h.spares ((setVars_steady wf env.vars).spares i)
    case h_3 =>
      split
      · exact h
      · split
        · exact h.spares ((setVars_steady wf env.vars).spares i)
        · exact h.spares (((setVars_steady wf env.vars).trans (inputAction_steady _ _ _)).spares i)
    case h_4 =>
      split
      · exact h
      · exact h.spares ((waitImpl_steady wf r.taskId env.vars).spares i)
    case h_5 =>
      split
      · exact h
      · exact forImpl_supply env.forArgs h hw
    case h_6 =>
      have he := @endforImpl_supply H wf₀ wf i r.taskId h hw
      split
      case h_1 heq =>
        rw [heq] at he
        exact he
      case h_2 heq =>
        rw [heq] at he
        exact he
      case h_3 heq =>
        rw [heq] at he
        exact he
    case h_7 =>
      split
      · exact h
      · exact h.turns hw (ifImpl_turns wf r.taskId env.condition)
    case h_8 =>
      split
      · exact h
      · exact h.turns hw (ifImpl_turns wf r.taskId env.condition)
    case h_9 =>
      simp only
      split
      · exact h
      · exact h.turns hw (elseImpl_turns wf r.taskId)
    case h_10 => exact h

end Flow

/-! ## Runs -/

/-- A step from `wf` to `wf'` has submitted task `i`. -/
def Starts (wf wf' : Workflow) (i : Nat) : Prop := ∃ l, wf'.trace = l ++ wf.trace ∧ .started i ∈ l

/-- The event lets a filter rewrite the arguments of task `i`. -/
def Event.remakes (i : Nat) : Event → Bool
  | .handle _ env => (env.exec.massive i).remakes
  | .external _ _ => false

/-- What a step has added to the trace. -/
def news (wf wf' : Workflow) : List Entry := wf'.trace.take (wf'.trace.length - wf.trace.length)

/-- The step from `wf` to `wf'` completes none of the tasks that task `t₀` has been fed by, if `ks` are the indexes of
its dependences. -/
def Task.UpToDate (t₀ : Task) (ks : List Int) (wf wf' : Workflow) : Prop :=
  ∀ j < t₀.deps.length, (t₀.deps.getD j default).type ≠ .embedded → ks.getD j (-1) = -1 →
    .completed (t₀.deps.getD j default).taskIndex.toNat ∉ news wf wf'

instance (t₀ : Task) (ks : List Int) (wf wf' : Workflow) : Decidable (t₀.UpToDate ks wf wf') :=
  inferInstanceAs (Decidable (∀ j < t₀.deps.length, (t₀.deps.getD j default).type ≠ .embedded → _ → _))

/-- The engine waits for the outputs that task `i` needs, it does not rewrite them, and no parent completes again as long
as the task, or what a loop has saved of it, counts it among those that have fed it. -/
def Attentive (ophAutoRetry : Nat) (wf₀ : Workflow) (i : Nat) (s : Sys) (e : Event) : Prop :=
  (wf₀.tasks i).Waits (s.wf.tasks i) ∧ e.remakes i = false ∧
    (wf₀.tasks i).UpToDate ((s.wf.tasks i).deps.map fun d => d.taskIndex) s.wf (s.step ophAutoRetry e).wf ∧
    ∀ f ∈ s.wf.stack, (wf₀.tasks i).UpToDate (f.tasks i).depsTaskIndex s.wf (s.step ophAutoRetry e).wf

instance (ophAutoRetry : Nat) (wf₀ : Workflow) (i : Nat) (s : Sys) (e : Event) :
    Decidable (Attentive ophAutoRetry wf₀ i s e) :=
  inferInstanceAs (Decidable (_ ∧ _ ∧ _ ∧ _))

/-- A task that no parent has fed: each dependence is on another task and nothing is queued. -/
structure Task.Unfed (t : Task) : Prop where
  parents : ∀ d ∈ t.deps, 0 ≤ d.taskIndex
  lists : ∀ x ∈ t.arguments, x.list = []

/-- The outputs of the tasks that a step has completed are collected. -/
def collect (wf wf' : Workflow) (outs : Nat → Option (List (String × String))) (p : Nat) :
    Option (List (String × String)) :=
  if .completed p ∈ news wf wf' then some (wf'.tasks p).outputs else outs p

/-- The outputs that each task had when the run completed it last. -/
def lastOutputs (ophAutoRetry : Nat) (outs : Nat → Option (List (String × String))) :
    Sys → List Event → Nat → Option (List (String × String))
  | _, [] => outs
  | s, e :: es =>
    lastOutputs ophAutoRetry (collect s.wf (s.step ophAutoRetry e).wf outs) (s.step ophAutoRetry e) es

/--
The event `e`, after the run `es` from the submission of `wf₀`, leaves in argument `a` of task `i` its initial value
followed by the outputs of the parents in the order of their keys. All the parents have completed, and the outputs of
each one are those of its last completion in the run.
-/
def SubmittedInFull (ophAutoRetry : Nat) (wf₀ : Workflow) (tasksIndexes : List Nat) (es : List Event) (e : Event)
    (i : Nat) (a : String) : Prop :=
  (∀ d ∈ (wf₀.tasks i).deps, d.feeds a = true →
    (lastOutputs ophAutoRetry (fun _ => none) (wf₀.submit tasksIndexes) es d.taskIndex.toNat).isSome) ∧
  argumentValue (((((wf₀.submit tasksIndexes).run ophAutoRetry es).step ophAutoRetry e).wf.tasks i).arguments) a =
    expectedValue (wf₀.tasks i) a fun j =>
      (lastOutputs ophAutoRetry (fun _ => none) (wf₀.submit tasksIndexes) es
        ((wf₀.tasks i).deps.getD j default).taskIndex.toNat).getD []

section Runs

variable {H H' : Nat → List (String × String) → Prop} {ophAutoRetry : Nat} {wf₀ : Workflow} {i : Nat}
  {o : Nat → Option (List (String × String))}

theorem mem_news_of_completes {wf wf' : Workflow} {p : Nat} {outputs : List (String × String)}
    (h : Completes wf wf' p outputs) : .completed p ∈ news wf wf' := by
  obtain ⟨⟨l, hl, hp⟩, -⟩ := h
  unfold news
  rw [hl, List.length_append, Nat.add_sub_cancel, List.take_left']
  · exact hp
  · rfl

theorem step_supply (hp : ∀ d ∈ (wf₀.tasks i).deps, 0 ≤ d.taskIndex) {s : Sys} {e : Event} (h : Supply H wf₀ i s.wf)
    (he : Attentive ophAutoRetry wf₀ i s e) :
    Supply (Extended H s.wf (s.step ophAutoRetry e).wf) wf₀ i (s.step ophAutoRetry e).wf := by
  obtain ⟨hw, hremake, -⟩ := he
  cases e with
  | external n env => exact notify_supply ophAutoRetry env n h hw
  | handle k env =>
    cases hk : s.todo[k]? with
    | none =>
      rw [Sys.step_handle_none ophAutoRetry hk]
      exact h.extend (.refl i s.wf)
    | some t =>
      rw [Sys.step_handle_some ophAutoRetry hk]
      cases t with
      | execute l => exact (h.prints hw hp (execute_prints ophAutoRetry env.exec hremake l s.wf)).mono fun _ _ => .inl
      | serve r =>
        refine Supply.mono ?_ fun _ _ => .inl
        show Supply H wf₀ i (serve env.serve r s.wf).1
        rcases serve_fst env.serve r s.wf with hs | hs
        · rwa [hs]
        · rw [hs]
          exact serveOperator_supply env.serve r h hw
      | special n => exact notify_supply ophAutoRetry env.notify n h hw
      | notify n => exact notify_supply ophAutoRetry env.notify n h hw

/-- What task `i` has been fed with is still up to date after the step. -/
theorem Supply.renew {s : Sys} {e : Event} (h : Supply (fun p l => o p = some l) wf₀ i s.wf)
    (he : Attentive ophAutoRetry wf₀ i s e) :
    Supply (fun p l => collect s.wf (s.step ophAutoRetry e).wf o p = some l) wf₀ i s.wf := by
  obtain ⟨-, -, htask, hframe⟩ := he
  have hfed {ks : List Int} {arguments : List Argument}
      (hks : (wf₀.tasks i).UpToDate ks s.wf (s.step ophAutoRetry e).wf)
      (h : Fed (fun p l => o p = some l) (wf₀.tasks i) ks arguments) :
      Fed (fun p l => collect s.wf (s.step ophAutoRetry e).wf o p = some l) (wf₀.tasks i) ks
        arguments := by
    refine h.renew fun j hj hk p l hp ho => ?_
    have hnot := hks j hj.1 hj.2 hk
    rw [hp, Int.toNat_natCast] at hnot
    rw [collect, if_neg hnot]
    exact ho
  intro ha
  obtain ⟨hf, ht⟩ := h ha
  exact ⟨fun f hf' => hfed (hframe f hf') (hf f hf'), fun hw => ⟨(ht hw).deps, hfed htask (ht hw).fed⟩⟩

theorem step_collect (hp : ∀ d ∈ (wf₀.tasks i).deps, 0 ≤ d.taskIndex) {s : Sys} {e : Event}
    (h : Supply (fun p l => o p = some l) wf₀ i s.wf) (he : Attentive ophAutoRetry wf₀ i s e) :
    Supply (fun p l => collect s.wf (s.step ophAutoRetry e).wf o p = some l) wf₀ i (s.step ophAutoRetry e).wf := by
  refine (step_supply hp (h.renew he) he).mono fun p l ho => ?_
  rcases ho with ho | ho
  · exact ho
  · rw [collect, if_pos (mem_news_of_completes ho), ho.2]

theorem run_supply (hp : ∀ d ∈ (wf₀.tasks i).deps, 0 ≤ d.taskIndex) {s : Sys} {es : List Event}
    (h : Supply (fun p l => o p = some l) wf₀ i s.wf)
    (hes : Lib.Along (Sys.step ophAutoRetry) (Attentive ophAutoRetry wf₀ i) s es) :
    Supply (fun p l => lastOutputs ophAutoRetry o s es p = some l) wf₀ i (s.run ophAutoRetry es).wf := by
  induction es generalizing s o with
  | nil => exact h
  | cons e es ih =>
    obtain ⟨he, hes⟩ := hes
    exact ih (step_collect hp h he) hes

theorem supply_submit (h : wf₀.Submittable) (tasksIndexes : List Nat) :
    Supply H wf₀ i (wf₀.submit tasksIndexes).wf := by
  intro _
  refine ⟨fun f hf => ?_, fun _ => ⟨rfl, fun _ => [], [], ?_, .inl rfl⟩⟩
  · have : f ∈ wf₀.stack := hf
    rw [h.stack] at this
    exact absurd this List.not_mem_nil
  · refine ⟨List.length_map _, List.nodup_nil, fun j hj => absurd hj List.not_mem_nil, fun j _ => ?_⟩
    rw [if_neg List.not_mem_nil]
    exact getD_taskIndex (wf₀.tasks i).deps j

/--
In any run during which the engine waits for the outputs that task `i` needs, and at any submission of the task, each
argument is its initial value followed by the outputs of the parents sorted by their keys, in whatever order the parents
have completed.
-/
theorem submittedInFull_of_run (ophAutoRetry : Nat) (h₀ : wf₀.Submittable) (tasksIndexes : List Nat) (es : List Event)
    (k : Nat) (env : Env) (hi : (wf₀.tasks i).Unfed) (a : String)
    (hkeys : ((wf₀.tasks i).deps.filter (Dep.feeds a)).Pairwise fun d d' => d.order ≠ d'.order)
    (hes : Lib.Along (Sys.step ophAutoRetry) (Attentive ophAutoRetry wf₀ i) (wf₀.submit tasksIndexes)
      (es ++ [.handle k env]))
    {l : List Nat} (hk : ((wf₀.submit tasksIndexes).run ophAutoRetry es).todo[k]? = some (.execute l))
    (hactive : ((wf₀.submit tasksIndexes).run ophAutoRetry es).wf.status < .completed)
    (hstart : Starts ((wf₀.submit tasksIndexes).run ophAutoRetry es).wf
      (((wf₀.submit tasksIndexes).run ophAutoRetry es).step ophAutoRetry (.handle k env)).wf i) :
    SubmittedInFull ophAutoRetry wf₀ tasksIndexes es (.handle k env) i a := by
  obtain ⟨hes, ⟨hw, hremake, -⟩, -⟩ := Lib.Along.append_iff.mp hes
  have hsupply := run_supply (o := fun _ => none) hi.parents (supply_submit h₀ tasksIndexes) hes
  unfold SubmittedInFull
  generalize lastOutputs ophAutoRetry (fun _ => none) (wf₀.submit tasksIndexes) es = last at hsupply ⊢
  generalize hs : (wf₀.submit tasksIndexes).run ophAutoRetry es = s at hk hactive hstart hsupply ⊢
  rw [show es.foldl (Sys.step ophAutoRetry) (wf₀.submit tasksIndexes) = s from hs] at hw
  rw [Sys.step_handle_some ophAutoRetry hk] at hstart ⊢
  -- the task is ready, and its arguments are printed
  have hprints : Prints i s.wf (execute ophAutoRetry env.exec l s.wf).1 :=
    execute_prints ophAutoRetry env.exec hremake l s.wf
  obtain ⟨l', hl', hprint⟩ := hprints.trace
  obtain ⟨l'', hl'', hmem⟩ := hstart
  obtain rfl : l'' = l' := List.append_cancel_right (hl''.symm.trans hl')
  obtain ⟨hargs, hready⟩ := hprint hmem
  obtain ⟨outs, js, hsat, hall, hfed⟩ := ((hsupply hactive).2 hw).all hw hready hi.parents
  -- what has fed the task is what the parents completed with last
  have hlast (j : Nat) (hj : j < (wf₀.tasks i).deps.length) (hf : ((wf₀.tasks i).deps.getD j default).feeds a = true) :
      last ((wf₀.tasks i).deps.getD j default).taskIndex.toNat = some (outs j) := by
    simp only [Dep.feeds, Bool.and_eq_true, decide_eq_true_eq] at hf
    obtain ⟨-, p, hp, ho⟩ := hsat.parent j (hall j ⟨hj, hf.1⟩)
    rw [hp, Int.toNat_natCast]
    exact ho
  refine ⟨fun d hd hf => ?_, ?_⟩
  · obtain ⟨j, hj, rfl⟩ := List.getElem_of_mem hd
    have hget : (wf₀.tasks i).deps.getD j default = (wf₀.tasks i).deps[j] := by simp [hj]
    have := hlast j hj (hget ▸ hf)
    rw [hget] at this
    rw [this]
    rfl
  · show argumentValue ((execute ophAutoRetry env.exec l s.wf).1.tasks i).arguments a = _
    rw [hargs, hfed, expectedValue_congr fun j hj hf => by rw [hlast j hj hf, Option.getD_some]]
    refine argumentValue_feedAll hsat.nodup (fun j hj => (hsat.parent j hj).1.1) (fun j hf hj => hall j ⟨hj, ?_⟩) hkeys
      hi.lists
    simp only [Dep.feeds, Bool.and_eq_true, decide_eq_true_eq] at hf
    exact hf.1

end Runs

/-- Task `name` asks its parents for their cubes, each one with its key. -/
def cubeTask (name : String) (on : List (String × String)) : Task where
  name := name
  operator := .other "oph_merge"
  deps := on.map fun p => { taskName := p.1, order := p.2, type := .all }
  residualDepsNum := on.length

theorem cubeTask_fresh (name : String) (on : List (String × String)) : (cubeTask name on).Fresh := by
  refine ⟨rfl, rfl, rfl, fun d hd => ?_, ?_, rfl, rfl, rfl, rfl, rfl, rfl, rfl, rfl, rfl, rfl, rfl⟩
  · obtain ⟨p, -, rfl⟩ := List.mem_map.mp hd
    rfl
  · simp [cubeTask]

/-- A loop around a task that merges the cube of another task of the loop with the cube of a task outside it. -/
def mergeRequest : LoadedWorkflow :=
  loadRequest [requestTask "F" .for [] 1, requestTask "A" (.other "oph_a") ["F"] 1,
      cubeTask "M" [("A", "1"), ("X", "2")], requestTask "X" (.other "oph_x") [] 1,
      requestTask "D" .endfor ["M"] 1] (by
    simp only [List.forall_mem_cons, List.not_mem_nil, false_implies, implies_true, and_true]
    exact ⟨requestTask_fresh .., requestTask_fresh .., cubeTask_fresh .., requestTask_fresh .., requestTask_fresh ..⟩)

/-- Task `i` completes with a cube. -/
def completesWith (i : Nat) (cube : String) : Event :=
  .external { jobid := 2, status := .completed, taskIndex := i, outputs := [("cube", cube)] } {}

/-- The first iteration, until the task that merges the cubes is submitted: the task outside the loop completes last. -/
def mergeRun : List Event :=
  [.handle 0 { exec := .plain }, .handle 1 { exec := .plain },
    .handle 0 { exec := .plain, serve := { forArgs := some twoValues } }, .handle 0 { exec := .plain },
    .handle 0 { exec := .plain }, .handle 0 { exec := .plain }, completesWith 1 "a1", .handle 0 { exec := .plain },
    completesWith 3 "x"]

/-- The rest of the first iteration, and the second one, up to the same point. -/
def mergeAgain : List Event :=
  [.handle 0 { exec := .plain }, .handle 0 { exec := .plain }, completesWith 2 "m1", .handle 0 { exec := .plain },
    .handle 0 { exec := .plain }, .handle 0 { exec := .plain }, .handle 0 { exec := .plain }, .handle 0 { exec := .plain },
    completesWith 1 "a2"]

/-- In the first iteration both cubes are merged. -/
theorem submittedInFull_of_run_merge :
    ∃ wf₀ : Workflow, wf₀.Submittable ∧
      SubmittedInFull 0 wf₀ wf₀.initialTasks mergeRun (.handle 0 { exec := .plain }) 2 "cube" := by
  obtain ⟨wf₀, h₀, hp⟩ := @submittable_of_checkAccepted mergeRequest (fun wf₀ =>
    ((∀ d ∈ (wf₀.tasks 2).deps, 0 ≤ d.taskIndex) ∧ ∀ x ∈ (wf₀.tasks 2).arguments, x.list = []) ∧
      ((wf₀.tasks 2).deps.filter (Dep.feeds "cube")).Pairwise (fun d d' => d.order ≠ d'.order) ∧
      Lib.Along (Sys.step 0) (Attentive 0 wf₀ 2) (wf₀.submit wf₀.initialTasks)
        (mergeRun ++ [.handle 0 { exec := .plain }]) ∧
      ((wf₀.submit wf₀.initialTasks).run 0 mergeRun).todo[0]? = some (.execute [2]) ∧
      ((wf₀.submit wf₀.initialTasks).run 0 mergeRun).wf.status < .completed ∧
      (((wf₀.submit wf₀.initialTasks).run 0 mergeRun).step 0 (.handle 0 { exec := .plain })).wf.trace =
        .started 2 :: ((wf₀.submit wf₀.initialTasks).run 0 mergeRun).wf.trace) (by decide +kernel)
  obtain ⟨⟨hparents, hlists⟩, hkeys, hes, hk, hactive, hstart⟩ := of_decide_eq_true hp
  exact ⟨wf₀, h₀, submittedInFull_of_run 0 h₀ _ mergeRun 0 _ ⟨hparents, hlists⟩ "cube" hkeys hes hk hactive
    ⟨[.started 2], hstart, List.mem_singleton.mpr rfl⟩⟩

/-- The dependences of the task that merges the cubes. -/
def mergeDeps : List Dep :=
  [{ taskName := "A", taskIndex := 1, order := "1", type := .all },
    { taskName := "X", taskIndex := 3, order := "2", type := .all }]

theorem expectedValue_merge {t : Task} {outs : Nat → List (String × String)} {x y : String} (hd : t.deps = mergeDeps)
    (ha : argumentValue t.arguments "cube" = none) (h0 : outs 0 = [("cube", x)]) (h1 : outs 1 = [("cube", y)]) :
    expectedValue t "cube" outs = some (x ++ "|" ++ y) := by
  have hobjects : objects mergeDeps outs "cube" (List.range mergeDeps.length) = [("1", x), ("2", y)] := by
    show objects mergeDeps outs "cube" [0, 1] = _
    simp [objects, mergeDeps, Dep.feeds, Dep.object, h0, h1]
  rw [expectedValue, hd, ha, hobjects, ← Lib.insertPairs_eq_mergeSort (List.Perm.refl _) (by simp)]
  have hpairs : Lib.insertPairs [] [("1", x), ("2", y)] = [("1", x), ("2", y)] := by
    have hlt : ¬ ("2" : String) < "1" := by decide +kernel
    show Lib.insertPair [("1", x)] ("2", y) = _
    rw [Lib.insertPair, List.orderedInsert, if_neg hlt]
    rfl
  rw [hpairs]
  simp [joined, String.intercalate_cons_cons]

/-- In the second iteration the task outside the loop is over: it is not waited for, and its cube is not merged. -/
theorem not_submittedInFull_mergeAgain :
    ∃ wf₀ : Workflow, wf₀.Submittable ∧ (wf₀.tasks 2).Unfed ∧
      ((wf₀.tasks 2).deps.filter (Dep.feeds "cube")).Pairwise (fun d d' => d.order ≠ d'.order) ∧
      Starts ((wf₀.submit wf₀.initialTasks).run 0 (mergeRun ++ mergeAgain)).wf
        (((wf₀.submit wf₀.initialTasks).run 0 (mergeRun ++ mergeAgain)).step 0 (.handle 0 { exec := .plain })).wf 2 ∧
      ¬ SubmittedInFull 0 wf₀ wf₀.initialTasks (mergeRun ++ mergeAgain) (.handle 0 { exec := .plain }) 2 "cube" := by
  obtain ⟨wf₀, h₀, hp⟩ := @submittable_of_checkAccepted mergeRequest (fun wf₀ =>
    (wf₀.tasks 2).deps = mergeDeps ∧ (argumentValue (wf₀.tasks 2).arguments "cube" = none ∧
      ∀ x ∈ (wf₀.tasks 2).arguments, x.list = []) ∧
      (((wf₀.submit wf₀.initialTasks).run 0 (mergeRun ++ mergeAgain)).step 0 (.handle 0 { exec := .plain })).wf.trace =
        .started 2 :: ((wf₀.submit wf₀.initialTasks).run 0 (mergeRun ++ mergeAgain)).wf.trace ∧
      argumentValue ((((wf₀.submit wf₀.initialTasks).run 0 (mergeRun ++ mergeAgain)).step 0
        (.handle 0 { exec := .plain })).wf.tasks 2).arguments "cube" = some "a2" ∧
      lastOutputs 0 (fun _ => none) (wf₀.submit wf₀.initialTasks) (mergeRun ++ mergeAgain) 1 =
        some [("cube", "a2")] ∧
      lastOutputs 0 (fun _ => none) (wf₀.submit wf₀.initialTasks) (mergeRun ++ mergeAgain) 3 =
        some [("cube", "x")]) (by decide +kernel)
  obtain ⟨hdeps, ⟨hargs, hlists⟩, hstart, hvalue, hA, hX⟩ := of_decide_eq_true hp
  refine ⟨wf₀, h₀, ⟨by rw [hdeps]; decide, hlists⟩, by rw [hdeps]; decide,
    ⟨[.started 2], hstart, List.mem_singleton.mpr rfl⟩, ?_⟩
  rintro ⟨-, houts⟩
  have hparent : ((wf₀.tasks 2).deps.getD 0 default).taskIndex.toNat = 1 ∧
      ((wf₀.tasks 2).deps.getD 1 default).taskIndex.toNat = 3 := by
    rw [hdeps]
    exact ⟨rfl, rfl⟩
  rw [hvalue, expectedValue_merge hdeps hargs (x := "a2") (y := "x")] at houts
  · exact absurd houts (by decide)
  · rw [hparent.1, hA, Option.getD_some]
  · rw [hparent.2, hX, Option.getD_some]

end OphidiaWorkflow
