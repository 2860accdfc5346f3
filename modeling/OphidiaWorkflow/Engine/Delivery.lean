import OphidiaWorkflow.Engine.Arguments

/-!
From the completion of the parents to the submission of a task: the outputs reach the argument they are meant for, in
whatever order they come, as long as the engine waits for them.
-/
namespace OphidiaWorkflow

/-- The data of a dependence that no step changes. -/
def Dep.body (d : Dep) : Dep := { d with taskIndex := -1 }

/-- Dependence `j` of a list is not an embedded one. -/
def Delivers (deps : List Dep) (j : Nat) : Prop := j < deps.length ∧ (deps.getD j default).type ≠ .embedded

instance (deps : List Dep) (j : Nat) : Decidable (Delivers deps j) := inferInstanceAs (Decidable (_ ∧ _))

/-- The engine waits for the outputs that task `t₀` needs: in its current state `t` each dependence is still on the
parent it was meant for, or satisfied, and the task is not ready before all of them are satisfied. -/
def Task.Waits (t₀ t : Task) : Prop :=
  ∀ j < t₀.deps.length, (t₀.deps.getD j default).type ≠ .embedded →
    ((t.deps.getD j default).taskIndex = (t₀.deps.getD j default).taskIndex ∨
      (t.deps.getD j default).taskIndex = -1) ∧
    (t.residualDepsNum = 0 → (t.deps.getD j default).taskIndex = -1)

instance (t₀ t : Task) : Decidable (t₀.Waits t) :=
  inferInstanceAs (Decidable (∀ j < t₀.deps.length, (t₀.deps.getD j default).type ≠ .embedded → _ ∧ _))

/-- The dependences `js` have been satisfied, in this order, by parents that had the outputs `outs`. -/
structure Satisfied (H : Nat → List (String × String) → Prop) (deps : List Dep) (ks : List Int)
    (outs : Nat → List (String × String)) (js : List Nat) : Prop where
  length : ks.length = deps.length
  nodup : js.Nodup
  parent : ∀ j ∈ js, Delivers deps j ∧ ∃ p : Nat, (deps.getD j default).taskIndex = p ∧ H p (outs j)
  index : ∀ j, Delivers deps j → ks.getD j (-1) = if j ∈ js then -1 else (deps.getD j default).taskIndex

/-- The arguments of a task are those it was submitted with, and what the satisfied dependences have added. -/
def Fed (H : Nat → List (String × String) → Prop) (t₀ : Task) (ks : List Int) (arguments : List Argument) : Prop :=
  ∃ outs js, Satisfied H t₀.deps ks outs js ∧
    (arguments = feedAll t₀.deps outs t₀.arguments js ∨
      (∀ j, Delivers t₀.deps j → j ∈ js) ∧ arguments = printAll (feedAll t₀.deps outs t₀.arguments js))

structure Task.Supplied (H : Nat → List (String × String) → Prop) (t₀ t : Task) : Prop where
  deps : t.deps.map Dep.body = t₀.deps.map Dep.body
  fed : Fed H t₀ (t.deps.map fun d => d.taskIndex) t.arguments

/-- While the workflow is not over, task `i` and what the loops have saved of it are fed as they should. -/
def Supply (H : Nat → List (String × String) → Prop) (wf₀ : Workflow) (i : Nat) (wf : Workflow) : Prop :=
  wf.status < .completed → (∀ f ∈ wf.stack, Fed H (wf₀.tasks i) (f.tasks i).depsTaskIndex (f.tasks i).arguments) ∧
    ((wf₀.tasks i).Waits (wf.tasks i) → (wf₀.tasks i).Supplied H (wf.tasks i))

section Tasks

variable {H H' : Nat → List (String × String) → Prop} {t₀ t t' : Task} {ks : List Int} {arguments : List Argument}

/-- Only the outputs of the parents whose dependences are satisfied matter. -/
theorem Fed.renew (h : Fed H t₀ ks arguments) (hH : ∀ j, Delivers t₀.deps j → ks.getD j (-1) = -1 → ∀ (p : Nat) outs,
    (t₀.deps.getD j default).taskIndex = p → H p outs → H' p outs) : Fed H' t₀ ks arguments := by
  obtain ⟨outs, js, hs, ha⟩ := h
  refine ⟨outs, js, ⟨hs.length, hs.nodup, fun j hj => ?_, hs.index⟩, ha⟩
  obtain ⟨hd, p, hp, hh⟩ := hs.parent j hj
  have hk := hs.index j hd
  rw [if_pos hj] at hk
  exact ⟨hd, p, hp, hH j hd hk p _ hp hh⟩

theorem Fed.mono (h : Fed H t₀ ks arguments) (hH : ∀ p outs, H p outs → H' p outs) : Fed H' t₀ ks arguments :=
  h.renew fun _ _ _ p outs _ => hH p outs

theorem Supply.mono {wf₀ wf : Workflow} {i : Nat} (h : Supply H wf₀ i wf) (hH : ∀ p outs, H p outs → H' p outs) :
    Supply H' wf₀ i wf := by
  intro ha
  obtain ⟨hf, ht⟩ := h ha
  exact ⟨fun f hf' => (hf f hf').mono hH, fun hw => ⟨(ht hw).deps, (ht hw).fed.mono hH⟩⟩

theorem getD_taskIndex (deps : List Dep) (j : Nat) :
    (deps.map fun d => d.taskIndex).getD j (-1) = (deps.getD j default).taskIndex := by
  rw [List.getD_eq_getElem?_getD, List.getD_eq_getElem?_getD, List.getElem?_map]
  cases deps[j]? with
  | none => rfl
  | some d => rfl

theorem getD_body (h : t.deps.map Dep.body = t₀.deps.map Dep.body) (j : Nat) :
    (t.deps.getD j default).body = (t₀.deps.getD j default).body := by
  have hget (deps : List Dep) : (deps.getD j default).body = (deps.map Dep.body).getD j default := by
    rw [List.getD_eq_getElem?_getD, List.getD_eq_getElem?_getD, List.getElem?_map]
    cases deps[j]? with
    | none => rfl
    | some d => rfl
  rw [hget, hget, h]

theorem Task.Supplied.congr (h : t₀.Supplied H t) (ha : t'.arguments = t.arguments) (hd : t'.deps = t.deps) :
    t₀.Supplied H t' := by
  refine ⟨by rw [hd]; exact h.deps, ?_⟩
  rw [ha, hd]
  exact h.fed

theorem Task.Supplied.snapshot (h : t₀.Supplied H t) :
    Fed H t₀ t.snapshot.depsTaskIndex t.snapshot.arguments := h.fed

theorem Task.Supplied.reset {s : StackTask} (h : t₀.Supplied H t) (hs : Fed H t₀ s.depsTaskIndex s.arguments) :
    t₀.Supplied H (t.reset s) := by
  have hlen : s.depsTaskIndex.length = t.deps.length := by
    obtain ⟨outs, js, hsat, -⟩ := hs
    have := congrArg List.length h.deps
    rw [List.length_map, List.length_map] at this
    rw [hsat.length, this]
  refine ⟨?_, ?_⟩
  · rw [← h.deps]
    show (List.zipWith (fun d k => { d with taskIndex := k }) t.deps s.depsTaskIndex).map Dep.body = _
    rw [List.map_zipWith]
    show List.zipWith (fun d _ => d.body) t.deps s.depsTaskIndex = _
    exact List.ext_getElem (by simp [hlen]) fun j hj hj' => by simp
  · rw [Task.reset_deps hlen]
    exact hs

/-- Dependence `d` is fed with some outputs. -/
def Task.feed (d : Dep) (outputs : List (String × String)) (t : Task) : Task :=
  { t with arguments := d.feed outputs t.arguments }

theorem Dep.feed_body {d d' : Dep} (h : d.body = d'.body) (outputs : List (String × String)) :
    d.feed outputs arguments = d'.feed outputs arguments := by
  have hfeed (d : Dep) : d.feed outputs arguments = d.body.feed outputs arguments := rfl
  rw [hfeed d, h, ← hfeed]

theorem feedAll_congr {deps : List Dep} {outs outs' : Nat → List (String × String)} {js : List Nat}
    (h : ∀ j ∈ js, outs' j = outs j) : feedAll deps outs' arguments js = feedAll deps outs arguments js := by
  unfold feedAll
  induction js generalizing arguments with
  | nil => rfl
  | cons j js ih =>
    rw [List.foldl_cons, List.foldl_cons, h j List.mem_cons_self]
    exact ih fun i hi => h i (List.mem_cons_of_mem _ hi)

theorem markDep_body (t : Task) (j : Nat) : (t.markDep j).deps.map Dep.body = t.deps.map Dep.body :=
  Lib.map_modify_of_eq (f := fun d : Dep => { d with taskIndex := -1 }) (fun _ => rfl) t.deps j

theorem markDep_index {j : Nat} (hj : j < t.deps.length) (k : Nat) :
    ((t.markDep j).deps.map fun d => d.taskIndex).getD k (-1) =
      if k = j then -1 else (t.deps.map fun d => d.taskIndex).getD k (-1) := by
  rw [getD_taskIndex, getD_taskIndex]
  show ((t.deps.modify j fun d => { d with taskIndex := -1 }).getD k default).taskIndex = _
  rw [List.getD_eq_getElem?_getD, List.getD_eq_getElem?_getD, List.getElem?_modify]
  by_cases hk : k = j
  · subst hk
    rw [if_pos rfl, List.getElem?_eq_getElem hj]
    simp
  · rw [if_neg hk]
    simp [Ne.symm hk]

theorem Task.Supplied.mark (h : t₀.Supplied H t) {j src : Nat} {outputs : List (String × String)}
    (hsrc : (t.deps.getD j default).taskIndex = (src : Int)) (hH : H src outputs) :
    t₀.Supplied H ((t.feed (t.deps.getD j default) outputs).markDep j) := by
  have hj : j < t.deps.length := by
    by_contra hn
    rw [List.getD_eq_getElem?_getD, List.getElem?_eq_none (Nat.not_lt.mp hn)] at hsrc
    have : (-1 : Int) = src := hsrc
    omega
  have hbody := getD_body h.deps j
  have hlen : t.deps.length = t₀.deps.length := by
    have := congrArg List.length h.deps
    rwa [List.length_map, List.length_map] at this
  obtain ⟨outs, js, hs, ha⟩ := h.fed
  refine ⟨(markDep_body _ j).trans h.deps, ?_⟩
  have hlen' : (((t.feed (t.deps.getD j default) outputs).markDep j).deps.map fun d => d.taskIndex).length =
      t₀.deps.length := by
    rw [List.length_map, ← List.length_map Dep.body, markDep_body, List.length_map]
    exact hlen
  have hindex := markDep_index (t := t.feed (t.deps.getD j default) outputs) hj
  by_cases htype : (t₀.deps.getD j default).type = .embedded
  · -- the arguments do not change, and no delivery depends on the index
    have hfeed : (t.deps.getD j default).feed outputs t.arguments = t.arguments := by
      rw [Dep.feed_body hbody, Dep.feed, if_pos htype]
    refine ⟨outs, js, ⟨hlen', hs.nodup, hs.parent, fun k hk => ?_⟩, ?_⟩
    · rw [hindex, if_neg]
      · exact hs.index k hk
      · rintro rfl
        exact hk.2 htype
    · show (t.deps.getD j default).feed outputs t.arguments = _ ∨ _ ∧ (t.deps.getD j default).feed outputs t.arguments = _
      rw [hfeed]
      exact ha
  · have hdel : Delivers t₀.deps j := ⟨hlen ▸ hj, htype⟩
    have hold := hs.index j hdel
    rw [getD_taskIndex, hsrc] at hold
    have hnot : j ∉ js := by
      intro hin
      rw [if_pos hin] at hold
      omega
    rw [if_neg hnot] at hold
    have hother (k : Nat) (hk : k ∈ js) : Function.update outs j outputs k = outs k :=
      Function.update_of_ne (fun he : k = j => hnot (he ▸ hk)) _ _
    refine ⟨Function.update outs j outputs, js ++ [j], ⟨hlen', ?_, fun k hk => ?_, fun k hk => ?_⟩, .inl ?_⟩
    · exact List.nodup_append.mpr ⟨hs.nodup, List.nodup_singleton j, by
        rintro a hain b hb rfl
        exact hnot (List.mem_singleton.mp hb ▸ hain)⟩
    · rcases List.mem_append.mp hk with hk | hk
      · obtain ⟨hd, p, hp, hh⟩ := hs.parent k hk
        refine ⟨hd, p, hp, ?_⟩
        rwa [hother k hk]
      · obtain rfl := List.mem_singleton.mp hk
        exact ⟨hdel, src, hold.symm, by rwa [Function.update_self]⟩
    · rw [hindex]
      by_cases hkj : k = j
      · rw [if_pos hkj, if_pos (List.mem_append_right _ (List.mem_singleton.mpr hkj))]
      · rw [if_neg hkj]
        refine (hs.index k hk).trans ?_
        simp [hkj]
    · rcases ha with ha | ⟨hall, -⟩
      · show (t.deps.getD j default).feed outputs t.arguments = _
        unfold feedAll
        rw [List.foldl_append, Dep.feed_body hbody, ha]
        show _ = (t₀.deps.getD j default).feed (Function.update outs j outputs j) (feedAll t₀.deps _ t₀.arguments js)
        rw [Function.update_self, feedAll_congr hother]
      · exact absurd (hall j hdel) hnot

/-- All the dependences are satisfied when the task is ready. -/
theorem Task.Supplied.all (h : t₀.Supplied H t) (hw : t₀.Waits t) (hr : t.residualDepsNum = 0)
    (hp : ∀ d ∈ t₀.deps, 0 ≤ d.taskIndex) :
    ∃ outs js, Satisfied H t₀.deps (t.deps.map fun d => d.taskIndex) outs js ∧ (∀ j, Delivers t₀.deps j → j ∈ js) ∧
      printAll t.arguments = printAll (feedAll t₀.deps outs t₀.arguments js) := by
  obtain ⟨outs, js, hs, ha⟩ := h.fed
  have hall (j : Nat) (hj : Delivers t₀.deps j) : j ∈ js := by
    by_contra hn
    have hindex := hs.index j hj
    rw [if_neg hn, getD_taskIndex, (hw j hj.1 hj.2).2 hr, List.getD_eq_getElem?_getD, List.getElem?_eq_getElem hj.1,
      Option.getD_some] at hindex
    have := hp _ (List.getElem_mem hj.1)
    omega
  refine ⟨outs, js, hs, hall, ?_⟩
  rcases ha with ha | ⟨-, ha⟩
  · rw [ha]
  · rw [ha, printAll_printAll]

theorem Task.Supplied.print (h : t₀.Supplied H t) (hw : t₀.Waits t) (hr : t.residualDepsNum = 0)
    (hp : ∀ d ∈ t₀.deps, 0 ≤ d.taskIndex) (ha : t'.arguments = printAll t.arguments) (hd : t'.deps = t.deps) :
    t₀.Supplied H t' := by
  obtain ⟨outs, js, hs, hall, hprint⟩ := h.all hw hr hp
  refine ⟨by rw [hd]; exact h.deps, ?_⟩
  rw [ha, hd]
  exact ⟨outs, js, hs, .inr ⟨hall, hprint⟩⟩

end Tasks

/-! ## Submission -/

/-- The steps that neither submit task `i` nor touch its dependences and its arguments. -/
structure Spares (i : Nat) (wf wf' : Workflow) : Prop where
  stack : wf'.stack = wf.stack
  arguments : (wf'.tasks i).arguments = (wf.tasks i).arguments
  deps : (wf'.tasks i).deps = (wf.tasks i).deps
  residualDepsNum : (wf'.tasks i).residualDepsNum = (wf.tasks i).residualDepsNum
  active : wf'.status < .completed → wf.status < .completed
  trace : ∃ l, wf'.trace = l ++ wf.trace ∧ .started i ∉ l

section Spares

variable {H : Nat → List (String × String) → Prop} {wf₀ wf wf' wf'' : Workflow} {i k : Nat}

theorem Steady.spares (h : Steady wf wf') (i : Nat) : Spares i wf wf' := by
  obtain ⟨-, -, ha, hd, hr, -⟩ := Task.core_eq_iff.mp (h.task i)
  obtain ⟨l, hl, hs⟩ := h.trace
  exact ⟨h.stack, ha, hd, hr, h.active, l, hl, hs i⟩

theorem Spares.refl (i : Nat) (wf : Workflow) : Spares i wf wf := (Steady.refl wf).spares i

theorem Spares.trans (h : Spares i wf wf') (h' : Spares i wf' wf'') : Spares i wf wf'' := by
  obtain ⟨l, hl, hs⟩ := h.trace
  obtain ⟨l', hl', hs'⟩ := h'.trace
  refine ⟨h'.stack.trans h.stack, h'.arguments.trans h.arguments, h'.deps.trans h.deps,
    h'.residualDepsNum.trans h.residualDepsNum, fun ha => h.active (h'.active ha), l' ++ l,
    by rw [hl', hl, List.append_assoc], fun hi => ?_⟩
  rcases List.mem_append.mp hi with hi | hi
  · exact hs' hi
  · exact hs hi

theorem Spares.modify_ne (h : k ≠ i) (f : Task → Task) : Spares i wf (wf.modify k f) := by
  have ht : (wf.modify k f).tasks i = wf.tasks i := Workflow.modify_tasks_ne wf f h.symm
  exact ⟨rfl, by rw [ht], by rw [ht], by rw [ht], id, [], rfl, List.not_mem_nil⟩

theorem Spares.waits_iff {t₀ : Task} (h : Spares i wf wf') : t₀.Waits (wf'.tasks i) ↔ t₀.Waits (wf.tasks i) := by
  unfold Task.Waits
  rw [h.deps, h.residualDepsNum]

theorem Supply.spares (h : Supply H wf₀ i wf) (hs : Spares i wf wf') : Supply H wf₀ i wf' := by
  intro ha
  obtain ⟨hf, ht⟩ := h (hs.active ha)
  rw [hs.stack]
  exact ⟨hf, fun hw => (ht (hs.waits_iff.mp hw)).congr hs.arguments hs.deps⟩

theorem Spares.modify {f : Task → Task} (ha : (f (wf.tasks i)).arguments = (wf.tasks i).arguments)
    (hd : (f (wf.tasks i)).deps = (wf.tasks i).deps)
    (hr : (f (wf.tasks i)).residualDepsNum = (wf.tasks i).residualDepsNum) : Spares i wf (wf.modify i f) := by
  have ht : (wf.modify i f).tasks i = f (wf.tasks i) := wf.modify_tasks_self i f
  exact ⟨rfl, by rw [ht, ha], by rw [ht, hd], by rw [ht, hr], id, [], rfl, List.not_mem_nil⟩

end Spares

/-- The filter of a massive operation rewrites the arguments. -/
def MassiveAnswer.remakes : MassiveAnswer → Bool
  | .single (some _) => true
  | _ => false

/-- The arguments of task `i` are printed if it is submitted. -/
structure Prints (i : Nat) (wf wf' : Workflow) : Prop where
  stack : wf'.stack = wf.stack
  deps : (wf'.tasks i).deps = (wf.tasks i).deps
  residualDepsNum : (wf'.tasks i).residualDepsNum = (wf.tasks i).residualDepsNum
  active : wf'.status < .completed → wf.status < .completed
  arguments : (wf'.tasks i).arguments = (wf.tasks i).arguments ∨
    ((wf'.tasks i).arguments = printAll (wf.tasks i).arguments ∧ (wf.tasks i).residualDepsNum = 0)
  trace : ∃ l, wf'.trace = l ++ wf.trace ∧ (.started i ∈ l →
    (wf'.tasks i).arguments = printAll (wf.tasks i).arguments ∧ (wf.tasks i).residualDepsNum = 0)

section Submission

variable (ophAutoRetry : Nat) (env : ExecEnv) {wf wf' wf'' : Workflow} {i k : Nat}

theorem Spares.prints (h : Spares i wf wf') : Prints i wf wf' := by
  obtain ⟨l, hl, hs⟩ := h.trace
  exact ⟨h.stack, h.deps, h.residualDepsNum, h.active, .inl h.arguments, l, hl, fun hi => absurd hi hs⟩

theorem Prints.trans (h : Prints i wf wf') (h' : Prints i wf' wf'') : Prints i wf wf'' := by
  have hprint (ha : (wf''.tasks i).arguments = printAll (wf'.tasks i).arguments) :
      (wf''.tasks i).arguments = printAll (wf.tasks i).arguments := by
    rcases h.arguments with hw | ⟨hw, -⟩
    · rw [ha, hw]
    · rw [ha, hw, printAll_printAll]
  have harguments : (wf''.tasks i).arguments = (wf.tasks i).arguments ∨
      ((wf''.tasks i).arguments = printAll (wf.tasks i).arguments ∧ (wf.tasks i).residualDepsNum = 0) := by
    rcases h'.arguments with ha | ⟨ha, hr⟩
    · rw [ha]
      exact h.arguments
    · exact .inr ⟨hprint ha, h.residualDepsNum ▸ hr⟩
  obtain ⟨l, hl, hs⟩ := h.trace
  obtain ⟨l', hl', hs'⟩ := h'.trace
  refine ⟨h'.stack.trans h.stack, h'.deps.trans h.deps, h'.residualDepsNum.trans h.residualDepsNum,
    fun ha => h.active (h'.active ha), harguments, l' ++ l, by rw [hl', hl, List.append_assoc], fun hi => ?_⟩
  rcases List.mem_append.mp hi with hi | hi
  · obtain ⟨ha, hr⟩ := hs' hi
    exact ⟨hprint ha, h.residualDepsNum ▸ hr⟩
  · obtain ⟨ha, hr⟩ := hs hi
    rcases h'.arguments with hb | ⟨hb, -⟩
    · exact ⟨hb.trans ha, hr⟩
    · exact ⟨hprint hb, hr⟩

theorem prepare_arguments (markerid : Option Int) (t : Task) :
    (t.prepare markerid).arguments = printAll t.arguments := by
  unfold Task.prepare
  simp only
  split
  · split <;> rfl
  · rfl

theorem checkForMassiveOperation_arguments {answer : MassiveAnswer} (h : answer.remakes = false) (t : Task) :
    (checkForMassiveOperation ophAutoRetry answer t).1.arguments = t.arguments := by
  unfold checkForMassiveOperation
  split_ifs
  · rfl
  · rfl
  · rfl
  · split
    · rfl
    · cases h
    · rfl
    · rfl
    · rfl

theorem submitMassive_spares (h : k = i → (env.massive i).remakes = false) (wf : Workflow) :
    Spares i wf (submitMassive ophAutoRetry env wf k).1 := by
  have hcheck : Spares i wf (wf.modify k fun _ =>
      (checkForMassiveOperation ophAutoRetry (env.massive k) (wf.tasks k)).1) := by
    by_cases hk : k = i
    · subst hk
      have hl := checkForMassiveOperation_layout ophAutoRetry (env.massive k) (wf.tasks k)
      simp only [Task.layout, Prod.mk.injEq] at hl
      exact .modify (checkForMassiveOperation_arguments ophAutoRetry (h rfl) _) hl.2.2.2.1 hl.2.2.2.2.1
    · exact .modify_ne hk _
  unfold submitMassive
  simp only
  split
  · exact hcheck.trans ((submitTask_steady ophAutoRetry env k _ _).spares i)
  · exact hcheck.trans ((finishMassive_steady env k _ _).spares i)
  · exact hcheck.trans ((finishMassive_steady env k _ _).spares i)

theorem startTask_prints (h : (env.massive i).remakes = false) (hs : startTest wf k = true) :
    Prints i wf (startTask ophAutoRetry env wf k).1 := by
  have hprep : Prints i wf ((wf.record (.started k)).modify k (Task.prepare (env.markerid k none))) := by
    by_cases hk : k = i
    · subst hk
      have ht := (wf.record (.started k)).modify_tasks_self k (Task.prepare (env.markerid k none))
      have hl := prepare_layout (env.markerid k none) (wf.tasks k)
      simp only [Task.layout, Prod.mk.injEq] at hl
      have hr : (wf.tasks k).residualDepsNum = 0 := by
        simp only [startTest, Bool.and_eq_true, decide_eq_true_eq] at hs
        exact hs.1.2
      have hargs : (((wf.record (.started k)).modify k (Task.prepare (env.markerid k none))).tasks k).arguments =
          printAll (wf.tasks k).arguments := by
        rw [ht]
        exact prepare_arguments _ _
      exact ⟨rfl, by rw [ht]; exact hl.2.2.2.1, by rw [ht]; exact hl.2.2.2.2.1, id, .inr ⟨hargs, hr⟩, [.started k], rfl,
        fun _ => ⟨hargs, hr⟩⟩
    · have hrec : Spares i wf (wf.record (.started k)) :=
        ⟨rfl, rfl, rfl, rfl, id, [.started k], rfl, by simp [Ne.symm hk]⟩
      exact (hrec.trans (.modify_ne hk _)).prints
  unfold startTask
  simp only
  split_ifs
  · exact hprep.trans ((submissionFailed_steady k _).spares i).prints
  · exact hprep.trans ((submissionFailed_steady k _).spares i).prints
  · exact hprep.trans (submitMassive_spares ophAutoRetry env (fun _ => h) _).prints
  · exact hprep.trans ((submitTask_steady ophAutoRetry env k _ _).spares i).prints

theorem execute_prints (h : (env.massive i).remakes = false) (tasksIndexes : List Nat) (wf : Workflow) :
    Prints i wf (execute ophAutoRetry env tasksIndexes wf).1 := by
  unfold execute
  split
  · refine Lib.foldOut_induct (fun wf' _ => Prints i wf wf') (Spares.refl i wf).prints fun k _ wf' _ hwf => ?_
    unfold executeTask
    split
    case isTrue hs => exact hwf.trans (startTask_prints ophAutoRetry env h hs)
    · exact hwf
  · exact (Spares.refl i wf).prints

theorem Supply.prints {H : Nat → List (String × String) → Prop} {wf₀ : Workflow} (h : Supply H wf₀ i wf)
    (hw : (wf₀.tasks i).Waits (wf.tasks i)) (hp : ∀ d ∈ (wf₀.tasks i).deps, 0 ≤ d.taskIndex) (hs : Prints i wf wf') :
    Supply H wf₀ i wf' := by
  intro ha
  obtain ⟨hf, ht⟩ := h (hs.active ha)
  rw [hs.stack]
  refine ⟨hf, fun _ => ?_⟩
  rcases hs.arguments with harg | ⟨harg, hr⟩
  · exact (ht hw).congr harg hs.deps
  · exact (ht hw).print hw hr hp harg hs.deps

end Submission

/-! ## Completion of a parent -/

/-- A step from `wf` to `wf'` has completed task `p`, which has now the outputs `outs`. -/
def Completes (wf wf' : Workflow) (p : Nat) (outs : List (String × String)) : Prop :=
  (∃ l, wf'.trace = l ++ wf.trace ∧ .completed p ∈ l) ∧ (wf'.tasks p).outputs = outs

/-- The loop over the dependents of task `src`, which started from `wf`, as task `i` sees it. -/
structure Releases (H : Nat → List (String × String) → Prop) (t₀ : Task) (src i : Nat) (wf : Workflow)
    (st : DepLoop) : Prop where
  stack : st.wf.stack = wf.stack
  outputs : (st.wf.tasks src).outputs = (wf.tasks src).outputs
  active : st.wf.status < .completed → wf.status < .completed
  trace : ∃ l, st.wf.trace = l ++ wf.trace
  constraint : st.constraint = true → ¬ st.wf.status < .completed
  supplied : st.wf.status < .completed → (st.failed = true → t₀.Waits (st.wf.tasks i)) → t₀.Supplied H (st.wf.tasks i)

section Release

variable {H : Nat → List (String × String) → Prop} {t₀ : Task} {src dst i : Nat} {wf : Workflow} {st : DepLoop}

theorem setStatus_outputs (target : JobStatus) (fuel : Nat) (dependents : List Nat) (wf : Workflow) (k : Nat) :
    ((setStatus target fuel dependents wf).1.tasks k).outputs = (wf.tasks k).outputs := by
  have hset (wf : Workflow) (i : Nat) : ((wf.setTaskStatus i target).tasks k).outputs = (wf.tasks k).outputs := by
    rw [Workflow.setTaskStatus, Workflow.modify_tasks]
    split_ifs with hk
    · rw [hk]
    · rfl
  induction fuel generalizing dependents wf with
  | zero => rfl
  | succ fuel ih =>
    unfold setStatus
    refine Lib.foldWhile_induct (fun wf' : Workflow => (wf'.tasks k).outputs = (wf.tasks k).outputs) rfl
      fun i _ wf' h => ?_
    simp only
    split_ifs
    · exact h
    · exact h
    · rw [ih, hset]
      exact h
    · rw [ih, hset]
      exact h

theorem feedArgument_cases (src dst : Nat) (d : Dep) (st : DepLoop) :
    feedArgument src dst d st =
        { st with wf := st.wf.modify dst (Task.feed d (st.wf.tasks src).outputs) } ∨
      (Steady st.wf (feedArgument src dst d st).wf ∧
        ((feedArgument src dst d st).wf.tasks src).outputs = (st.wf.tasks src).outputs ∧ d.type ≠ .embedded ∧
        ((feedArgument src dst d st).failed = true ∧ (feedArgument src dst d st).constraint = st.constraint ∨
          (feedArgument src dst d st).constraint = true ∧ ¬ (feedArgument src dst d st).wf.status < .completed)) := by
  have hsame (h : ∀ args, d.feed (st.wf.tasks src).outputs args = args) :
      st = { st with wf := st.wf.modify dst (Task.feed d (st.wf.tasks src).outputs) } := by
    have hfeed : Task.feed d (st.wf.tasks src).outputs (st.wf.tasks dst) = st.wf.tasks dst := by
      rw [Task.feed, h]
    rw [Workflow.modify, hfeed, Function.update_eq_self]
  have habort : Steady st.wf (abortDependents (st.wf.setTaskStatus dst .aborted) dst).1 :=
    (Steady.setTaskStatus dst .aborted).trans (abortDependents_steady _ dst)
  have houtputs : ((abortDependents (st.wf.setTaskStatus dst .aborted) dst).1.tasks src).outputs =
      (st.wf.tasks src).outputs := by
    rw [abortDependents, setStatus_outputs, Workflow.setTaskStatus, Workflow.modify_tasks]
    split_ifs with hk
    · rw [hk]
    · rfl
  unfold feedArgument
  split
  case isTrue he => exact .inl (hsame fun args => by rw [Dep.feed, if_pos he])
  case isFalse he =>
    split
    case h_1 hnone => exact .inl (hsame fun args => by rw [Dep.feed, if_neg he, Dep.object, hnone]; rfl)
    case h_2 p hsome =>
      split
      · refine .inr ?_
        simp only
        split
        · have herror : ¬ JobStatus.error < .completed := by decide
          exact ⟨habort.trans (.of_tasks rfl rfl rfl rfl fun h => absurd h herror), houtputs, he, .inr ⟨rfl, herror⟩⟩
        · exact ⟨habort, houtputs, he, .inl ⟨rfl, rfl⟩⟩
      · split
        · exact .inr ⟨.refl st.wf, rfl, he, .inl ⟨rfl, rfl⟩⟩
        · refine .inl ?_
          have hfeed : Task.feed d (st.wf.tasks src).outputs = fun t => t.addArgument d.argument d.order p.2 := by
            funext t
            rw [Task.feed, Dep.feed, if_neg he, Dep.object, hsome, addArgument_eq]
            rfl
          rw [hfeed]

/-- A step that spares task `i` and leaves the outputs of `src` alone. -/
theorem Releases.spares {st' : DepLoop} (h : Releases H t₀ src i wf st) (hf : st.failed = false)
    (hs : Spares i st.wf st'.wf) (ho : (st'.wf.tasks src).outputs = (st.wf.tasks src).outputs)
    (hc : st'.constraint = true → st.constraint = true ∨ ¬ st'.wf.status < .completed) :
    Releases H t₀ src i wf st' := by
  obtain ⟨l, hl⟩ := h.trace
  obtain ⟨l', hl', -⟩ := hs.trace
  refine ⟨hs.stack.trans h.stack, ho.trans h.outputs, fun ha => h.active (hs.active ha),
    ⟨l' ++ l, by rw [hl', hl, List.append_assoc]⟩, fun hc' ha => ?_, fun ha _ => ?_⟩
  · rcases hc hc' with hc | hc
    · exact h.constraint hc (hs.active ha)
    · exact hc ha
  · exact (h.supplied (hs.active ha) fun hf' => by rw [hf] at hf'; cases hf').congr hs.arguments hs.deps

theorem Releases.follow {st' : DepLoop} (h : Releases H t₀ src i wf st) (hf : st.failed = false)
    (hstack : st'.wf.stack = st.wf.stack) (hstatus : st'.wf.status = st.wf.status)
    (ho : (st'.wf.tasks src).outputs = (st.wf.tasks src).outputs) (htr : ∃ l, st'.wf.trace = l ++ st.wf.trace)
    (hc : st'.constraint = st.constraint)
    (hsup : st.wf.status < .completed → (st'.failed = true → t₀.Waits (st'.wf.tasks i)) →
      t₀.Supplied H (st.wf.tasks i) → t₀.Supplied H (st'.wf.tasks i)) : Releases H t₀ src i wf st' := by
  obtain ⟨l, hl⟩ := h.trace
  obtain ⟨l', hl'⟩ := htr
  refine ⟨hstack.trans h.stack, ho.trans h.outputs, fun ha => h.active (hstatus ▸ ha),
    ⟨l' ++ l, by rw [hl', hl, List.append_assoc]⟩, fun hc' ha => ?_, fun ha hw => ?_⟩
  · exact h.constraint (hc ▸ hc') (hstatus ▸ ha)
  · rw [hstatus] at ha
    exact hsup ha hw (h.supplied ha fun hf' => by rw [hf] at hf'; cases hf')

theorem outputs_modify {k : Nat} {f : Task → Task} (hf : ∀ t, (f t).outputs = t.outputs) (wf : Workflow) (i : Nat) :
    ((wf.modify i f).tasks k).outputs = (wf.tasks k).outputs := by
  rw [Workflow.modify_tasks]
  split_ifs with hk
  · rw [hk, hf]
  · rfl

/-- A dependence that is fed before the task is ready is waited for. -/
theorem not_waits_of_pending {t : Task} {j : Nat} (h : t₀.Supplied H t)
    (hsrc : (t.deps.getD j default).taskIndex = (src : Int)) (htype : (t.deps.getD j default).type ≠ .embedded)
    (hr : t.residualDepsNum = 0) : ¬ t₀.Waits t := by
  intro hw
  have hlen : t.deps.length = t₀.deps.length := by
    have := congrArg List.length h.deps
    rwa [List.length_map, List.length_map] at this
  have hj : j < t.deps.length := by
    by_contra hn
    rw [List.getD_eq_getElem?_getD, List.getElem?_eq_none (Nat.not_lt.mp hn)] at hsrc
    have : (-1 : Int) = src := hsrc
    omega
  have hbody : (t.deps.getD j default).body.type = (t₀.deps.getD j default).body.type := by
    rw [getD_body h.deps j]
  have := (hw j (hlen ▸ hj) (hbody ▸ htype)).2 hr
  omega

theorem satisfyDep_releases (h : Releases H t₀ src i wf st) (hf : st.failed = false)
    (hH : H src (wf.tasks src).outputs) (j : Nat) :
    ((satisfyDep src dst st j).2 = true →
      Releases H t₀ src i wf (satisfyDep src dst st j).1 ∧ (satisfyDep src dst st j).1.failed = false) ∧
    ((satisfyDep src dst st j).2 = false → Releases H t₀ src i wf (satisfyDep src dst st j).1) := by
  unfold satisfyDep
  simp only
  generalize hd : (st.wf.tasks dst).deps.getD j default = d
  split
  · exact ⟨fun _ => ⟨h, hf⟩, fun _ => h⟩
  case isFalse hsrc =>
    have hsrc : d.taskIndex = (src : Int) := not_not.mp hsrc
    rcases feedArgument_cases src dst d st with he | ⟨hs, ho, htype, hfail⟩
    · rw [he]
      have hfed : ∀ k, ((st.wf.modify dst (Task.feed d (st.wf.tasks src).outputs)).tasks k).outputs =
          (st.wf.tasks k).outputs := fun k =>
        outputs_modify (f := Task.feed d _) (fun _ => rfl) st.wf dst
      simp only [hf, Bool.false_eq_true, if_false]
      split
      case isTrue hc =>
        -- an earlier dependence was not admitted: the workflow has failed
        refine ⟨nofun, fun _ => h.follow hf rfl rfl (hfed src) ⟨[], rfl⟩ rfl fun ha => ?_⟩
        exact absurd ha (h.constraint hc.2)
      · split
        case isTrue hr =>
          refine ⟨nofun, fun _ => h.follow hf rfl rfl (hfed src) ⟨[_], rfl⟩ rfl fun _ hw hsup => ?_⟩
          by_cases hi : i = dst
          · subst hi
            rw [Workflow.modify_tasks_self] at hr
            have hw := hw rfl
            show t₀.Supplied H ((st.wf.modify i (Task.feed d (st.wf.tasks src).outputs)).tasks i)
            replace hw : t₀.Waits ((st.wf.modify i (Task.feed d (st.wf.tasks src).outputs)).tasks i) := hw
            rw [Workflow.modify_tasks_self] at hw ⊢
            by_cases htype : d.type = .embedded
            · exact hsup.congr (by rw [Task.feed, Dep.feed, if_pos htype]) rfl
            · exact absurd (show t₀.Waits (st.wf.tasks i) from hw) (not_waits_of_pending hsup (hd ▸ hsrc) (hd ▸ htype) hr)
          · refine hsup.congr ?_ ?_
            · show ((st.wf.modify dst _).tasks i).arguments = _
              rw [Workflow.modify_tasks_ne _ _ hi]
            · show ((st.wf.modify dst _).tasks i).deps = _
              rw [Workflow.modify_tasks_ne _ _ hi]
        · have hdone : Releases H t₀ src i wf { st with
              wf := (st.wf.modify dst (Task.feed d (st.wf.tasks src).outputs)).modify dst (Task.markDep j)
              failed := false } := by
            refine h.follow hf rfl rfl ?_ ⟨[], rfl⟩ rfl fun _ _ hsup => ?_
            · exact (outputs_modify (f := Task.markDep j) (fun _ => rfl) _ dst).trans (hfed src)
            · by_cases hi : i = dst
              · subst hi
                show t₀.Supplied H (((st.wf.modify i _).modify i (Task.markDep j)).tasks i)
                rw [Workflow.modify_tasks_self, Workflow.modify_tasks_self, ← hd]
                exact hsup.mark (hd ▸ hsrc) (h.outputs ▸ hH)
              · refine hsup.congr ?_ ?_
                · show (((st.wf.modify dst _).modify dst _).tasks i).arguments = _
                  rw [Workflow.modify_tasks_ne _ _ hi, Workflow.modify_tasks_ne _ _ hi]
                · show (((st.wf.modify dst _).modify dst _).tasks i).deps = _
                  rw [Workflow.modify_tasks_ne _ _ hi, Workflow.modify_tasks_ne _ _ hi]
          exact ⟨fun _ => ⟨hdone, rfl⟩, nofun⟩
    · -- the task is aborted: neither its arguments nor its dependences change
      have hrel : Releases H t₀ src i wf (feedArgument src dst d st) := by
        refine h.spares hf (hs.spares i) ho fun hc => ?_
        rcases hfail with ⟨-, hsame⟩ | ⟨-, hover⟩
        · exact .inl (hsame ▸ hc)
        · exact .inr hover
      split
      · exact ⟨nofun, fun _ => hrel⟩
      case isFalse hnot =>
        rcases hfail with ⟨hfailed, -⟩ | ⟨hc, -⟩
        · exact absurd hfailed hnot
        · rw [if_pos ⟨htype, hc⟩]
          exact ⟨nofun, fun _ => hrel⟩

theorem releaseDependents_releases (h : wf.status < .completed → t₀.Supplied H (wf.tasks i))
    (hH : H src (wf.tasks src).outputs) : Releases H t₀ src i wf (releaseDependents wf src) := by
  have h0 : Releases H t₀ src i wf { wf := wf } := ⟨rfl, rfl, id, ⟨[], rfl⟩, nofun, fun ha _ => h ha⟩
  unfold releaseDependents
  refine Lib.foldWhile_induct_while (fun st => Releases H t₀ src i wf st ∧ st.failed = false) (Releases H t₀ src i wf)
    ⟨h0, rfl⟩ (fun st hst => hst.1) fun dst _ st hst => ?_
  unfold satisfyDeps
  split
  · have hin : Releases H t₀ src i wf
        (Lib.foldWhile (satisfyDep src dst) (List.range (st.wf.tasks dst).deps.length) st).1 :=
      Lib.foldWhile_induct_while (fun st => Releases H t₀ src i wf st ∧ st.failed = false) (Releases H t₀ src i wf) hst
        (fun st hst => hst.1) fun j _ st' hst' => satisfyDep_releases hst'.1 hst'.2 hH j
    exact ⟨fun hf => ⟨hin, by simpa using hf⟩, fun _ => hin⟩
  · exact ⟨fun _ => hst, nofun⟩

end Release

section Notifications

variable {H : Nat → List (String × String) → Prop} (ophAutoRetry : Nat) (env : NotifyEnv) {wf₀ wf wf' wf'' : Workflow}
  {i k : Nat}

/-- What happened before, and what the step from `wf` to `wf'` has completed. -/
def Extended (H : Nat → List (String × String) → Prop) (wf wf' : Workflow) (p : Nat) (outs : List (String × String)) :
    Prop := H p outs ∨ Completes wf wf' p outs

theorem Extended.before (h : Steady wf wf') {p : Nat} {outs : List (String × String)}
    (he : Extended H wf' wf'' p outs) :
    Extended H wf wf'' p outs := by
  rcases he with he | ⟨⟨l, hl, hp⟩, ho⟩
  · exact .inl he
  · obtain ⟨l', hl', -⟩ := h.trace
    exact .inr ⟨⟨l ++ l', by rw [hl, hl', List.append_assoc], List.mem_append_left _ hp⟩, ho⟩

theorem Extended.after (ht : wf''.tasks = wf'.tasks) (htr : wf''.trace = wf'.trace) {p : Nat}
    {outs : List (String × String)} (he : Extended H wf wf' p outs) : Extended H wf wf'' p outs := by
  rcases he with he | ⟨⟨l, hl, hp⟩, ho⟩
  · exact .inl he
  · exact .inr ⟨⟨l, htr.trans hl, hp⟩, by rw [ht, ho]⟩

theorem Supply.extend (h : Supply H wf₀ i wf) (hs : Spares i wf wf') : Supply (Extended H wf wf') wf₀ i wf' :=
  (h.spares hs).mono fun _ _ => .inl

theorem checkEnd_tasks (wf : Workflow) : (checkEnd wf).wf.tasks = wf.tasks ∧ (checkEnd wf).wf.trace = wf.trace := by
  unfold checkEnd raiseStatus
  split_ifs <;> exact ⟨rfl, rfl⟩

theorem conclude_tasks (k : Nat) (v : Verdict) :
    (conclude env k v).1.tasks = v.wf.tasks ∧ (conclude env k v).1.trace = v.wf.trace := by
  unfold conclude finalise
  split_ifs <;> exact ⟨rfl, rfl⟩

theorem accountCompleted_supply (outputs : List (String × String)) (h : Supply H wf₀ i wf)
    (hw : (wf₀.tasks i).Waits (wf.tasks i)) :
    Supply (Extended H wf (accountCompleted env wf k outputs).wf) wf₀ i (accountCompleted env wf k outputs).wf := by
  have hcount : Steady wf (((wf.modify k Task.unselect).countEnded k).record (.completed k)) :=
    Steady.trans (.modify (unselect_core _)) ((Steady.countEnded k).trans (.record (by simp)))
  have hout := hcount.trans (Steady.modify (i := k) (takeOutputs_core outputs _))
  unfold accountCompleted
  simp only
  split
  · exact h.extend (hcount.spares i)
  · generalize hwf' : (((wf.modify k Task.unselect).countEnded k).record (.completed k)).modify k
      (Task.takeOutputs outputs) = wf' at hout ⊢
    have htrace : wf'.trace = [.completed k, .ended k] ++ wf.trace := by
      rw [← hwf']
      rfl
    -- the outputs of `k` are those its dependents are fed with
    have hrel := @releaseDependents_releases (fun p outs => H p outs ∨ p = k ∧ (wf'.tasks k).outputs = outs)
      (wf₀.tasks i) k i wf' (fun ha => by
        have hwait : (wf₀.tasks i).Waits (wf'.tasks i) := (hout.spares i).waits_iff.mpr hw
        have hsup := ((h.spares (hout.spares i)) ha).2 hwait
        exact ⟨hsup.deps, hsup.fed.mono fun _ _ => .inl⟩) (.inr ⟨rfl, rfl⟩)
    generalize releaseDependents wf' k = st at hrel ⊢
    have hstep (p : Nat) (outs : List (String × String)) (hp : H p outs ∨ p = k ∧ (wf'.tasks k).outputs = outs) :
        Extended H wf st.wf p outs := by
      rcases hp with hp | ⟨rfl, rfl⟩
      · exact .inl hp
      · obtain ⟨l, hl⟩ := hrel.trace
        refine .inr ⟨⟨l ++ [.completed p, .ended p], by rw [hl, htrace, List.append_assoc], ?_⟩, hrel.outputs⟩
        exact List.mem_append_right _ List.mem_cons_self
    have hsupply : Supply (Extended H wf st.wf) wf₀ i st.wf := by
      intro ha
      obtain ⟨hframes, -⟩ := h (hout.active (hrel.active ha))
      refine ⟨fun f hf => ?_, fun hw' => ?_⟩
      · rw [hrel.stack, hout.stack] at hf
        exact (hframes f hf).mono fun _ _ => .inl
      · have hsup := hrel.supplied ha fun _ => hw'
        exact ⟨hsup.deps, hsup.fed.mono hstep⟩
    split
    · exact hsupply
    · have hend := checkEnd_tasks (addExitObject env st.wf)
      have hexit : Steady st.wf (addExitObject env st.wf) := .of_tasks rfl rfl rfl rfl id
      refine (hsupply.spares ((hexit.trans (checkEnd_steady _)).spares i)).mono fun p outs he => ?_
      exact he.after hend.1 hend.2

theorem account_supply (n : Notification) (outputs : List (String × String)) (s : JobStatus) (h : Supply H wf₀ i wf)
    (hw : (wf₀.tasks i).Waits (wf.tasks i)) :
    Supply (Extended H wf (account ophAutoRetry env n outputs wf s).wf) wf₀ i
      (account ophAutoRetry env n outputs wf s).wf := by
  have hskip : Steady wf ((saveResponse wf n.taskIndex n.outputJson).modify n.taskIndex Task.skip) :=
    (saveResponse_steady wf n.taskIndex n.outputJson).trans (.modify (skip_core _))
  unfold account
  simp only
  split_ifs
  · exact h.extend (.refl i wf)
  · exact h.extend (.refl i wf)
  · generalize hwf' : (saveResponse wf n.taskIndex n.outputJson).modify n.taskIndex Task.skip = wf' at hskip ⊢
    have hwait : (wf₀.tasks i).Waits (wf'.tasks i) := (hskip.spares i).waits_iff.mpr hw
    refine (accountCompleted_supply env outputs (h.spares (hskip.spares i)) hwait).mono fun p outs he => ?_
    exact he.before hskip
  · exact h.extend ((hskip.trans (accountContinue_steady _ _)).spares i)
  · exact h.extend (hskip.spares i)
  · exact h.extend ((hskip.trans (accountRetry_steady _ _ _)).spares i)

theorem notify_supply (n : Notification) (h : Supply H wf₀ i wf) (hw : (wf₀.tasks i).Waits (wf.tasks i)) :
    Supply (Extended H wf (notify ophAutoRetry env n wf).1) wf₀ i (notify ophAutoRetry env n wf).1 := by
  have hdrop : Steady wf { wf with dropped := true } := .of_tasks rfl rfl rfl rfl id
  unfold notify
  split
  · exact h.extend (.refl i wf)
  case h_2 status _ =>
    split_ifs
    · exact h.extend (.refl i wf)
    · exact h.extend ((internalResponse_steady wf n _).spares i)
    · exact h.extend (.refl i wf)
    · exact h.extend (hdrop.spares i)
    · exact h.extend (.refl i wf)
    · have hu := updateStatus_steady ophAutoRetry env wf n status
      generalize updateStatus ophAutoRetry env n wf status = u at hu ⊢
      unfold settle
      split
      · exact h.extend (hu.spares i)
      · split
        · exact h.extend (hu.spares i)
        · have hwait : (wf₀.tasks i).Waits (u.wf.tasks i) := (hu.spares i).waits_iff.mpr hw
          have hsupply := account_supply ophAutoRetry env n u.outputs ‹_› (h.spares (hu.spares i)) hwait
          have hend := conclude_tasks env n.taskIndex (account ophAutoRetry env n u.outputs u.wf ‹_›)
          refine (hsupply.spares ((conclude_steady env n.taskIndex _).spares i)).mono fun p outs he => ?_
          exact (he.after hend.1 hend.2).before hu

end Notifications

end OphidiaWorkflow
