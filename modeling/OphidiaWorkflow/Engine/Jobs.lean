import OphidiaWorkflow.Engine.Attempts

/-!
The jobs of one task, where none of them fails: what the submission of a task and the notifications for it make of the
task itself, the other tasks being left alone.
-/
namespace OphidiaWorkflow

/-! ## Work on one task -/

/-- What the start test and the release of the dependents read of a task, its status apart. -/
def Task.linkView (t : Task) :=
  (t.operator, t.deps, t.residualDepsNum, t.dependentsIndexes, t.arguments.map fun a => a.key)

theorem Task.arguments_ne_nil {t t' : Task} (h : t'.linkView = t.linkView) (ha : t.arguments ≠ []) :
    t'.arguments ≠ [] := by
  simp only [linkView, Prod.mk.injEq] at h
  intro hnil
  have hkeys := h.2.2.2.2
  rw [hnil, List.map_nil, eq_comm, List.map_eq_nil_iff] at hkeys
  exact ha hkeys

/-- What tells whether the workflow is over, its status apart. -/
def Workflow.engine (wf : Workflow) := (wf.tasksNum, wf.residualTasksNum, wf.isClosed, wf.dropped, wf.finalTask)

/-- A light task of task `i` is submitted. -/
def Entry.Submits (i : Nat) : Entry → Prop
  | submittedLight k _ => k = i
  | _ => False

/-- The entries of the light tasks of task `i`. -/
def Entry.Minor (i : Nat) : Entry → Prop
  | submittedLight k _ | endedLight k _ => k = i
  | _ => False

theorem Entry.Submits.minor {i : Nat} {e : Entry} (h : e.Submits i) : e.Minor i := by
  cases e <;> first | exact h | exact h.elim

/-- The steps that concern task `i` only and leave entries of one kind. -/
structure Local (kind : Entry → Prop) (i : Nat) (wf wf' : Workflow) : Prop where
  others : ∀ k, k ≠ i → wf'.tasks k = wf.tasks k
  links : (wf'.tasks i).linkView = (wf.tasks i).linkView
  engine : wf'.engine = wf.engine
  status : wf'.status = wf.status ∨ (wf.status < .running ∧ wf'.status = .running)
  trace : ∃ l, wf'.trace = l ++ wf.trace ∧ ∀ e ∈ l, kind e

namespace Local

variable {kind : Entry → Prop} {i : Nat} {wf wf' wf'' : Workflow}

theorem refl (kind : Entry → Prop) (i : Nat) (wf : Workflow) : Local kind i wf wf :=
  ⟨fun _ _ => rfl, rfl, rfl, .inl rfl, [], rfl, fun _ he => absurd he List.not_mem_nil⟩

theorem trans (h : Local kind i wf wf') (h' : Local kind i wf' wf'') : Local kind i wf wf'' := by
  refine ⟨fun k hk => (h'.others k hk).trans (h.others k hk), h'.links.trans h.links, h'.engine.trans h.engine, ?_, ?_⟩
  · rcases h'.status with hs' | ⟨hlt', hs'⟩
    · rw [hs']
      exact h.status
    · rcases h.status with hs | ⟨-, hs⟩
      · exact .inr ⟨hs ▸ hlt', hs'⟩
      · rw [hs] at hlt'
        exact absurd hlt' (by decide)
  · obtain ⟨l, hl, hm⟩ := h.trace
    obtain ⟨l', hl', hm'⟩ := h'.trace
    refine ⟨l' ++ l, by rw [hl', hl, List.append_assoc], fun e he => ?_⟩
    rcases List.mem_append.mp he with he | he
    · exact hm' e he
    · exact hm e he

theorem modify {f : Task → Task} (hf : (f (wf.tasks i)).linkView = (wf.tasks i).linkView) :
    Local kind i wf (wf.modify i f) := by
  refine ⟨fun k hk => Workflow.modify_tasks_ne wf f hk, ?_, rfl, .inl rfl, [], rfl,
    fun _ he => absurd he List.not_mem_nil⟩
  rw [Workflow.modify_tasks_self]
  exact hf

theorem setTaskStatus (s : JobStatus) : Local kind i wf (wf.setTaskStatus i s) := modify rfl

theorem record {e : Entry} (he : kind e) : Local kind i wf (wf.record e) :=
  ⟨fun _ _ => rfl, rfl, rfl, .inl rfl, [e], rfl, fun e' he' => by rwa [List.mem_singleton.mp he']⟩

theorem raiseStatus (kind : Entry → Prop) (i : Nat) (wf : Workflow) : Local kind i wf (raiseStatus wf .running) := by
  unfold OphidiaWorkflow.raiseStatus
  split
  · next hlt =>
    exact ⟨fun _ _ => rfl, rfl, rfl, .inr ⟨hlt, rfl⟩, [], rfl, fun _ he => absurd he List.not_mem_nil⟩
  · exact refl kind i wf

theorem mem_iff (h : Local kind i wf wf') {e : Entry} (he : ¬ kind e) : e ∈ wf'.trace ↔ e ∈ wf.trace := by
  obtain ⟨l, hl, hm⟩ := h.trace
  rw [hl, List.mem_append]
  exact or_iff_right fun hel => he (hm e hel)

theorem mem (h : Local kind i wf wf') {e : Entry} (he : e ∈ wf.trace) : e ∈ wf'.trace := by
  obtain ⟨l, hl, -⟩ := h.trace
  rw [hl]
  exact List.mem_append_right _ he

theorem minor (h : Local (Entry.Submits i) i wf wf') : Local (Entry.Minor i) i wf wf' := by
  obtain ⟨l, hl, hm⟩ := h.trace
  exact ⟨h.others, h.links, h.engine, h.status, l, hl, fun e he => (hm e he).minor⟩

end Local

/-! ## Submission -/

/-- Nothing that the submission asks for is refused. -/
structure ExecEnv.Grants (env : ExecEnv) : Prop where
  markerid : ∀ i j, env.markerid i j ≠ none
  submissionString : ∀ i j, env.submissionString i j = true
  createJob : ∀ i j, env.createJob i j ≠ none
  massive : ∀ i, env.massive i ≠ .error
  remadeString : ∀ i, env.remadeString i = true

theorem ExecEnv.plain_grants : ExecEnv.plain.Grants :=
  ⟨fun _ _ => Option.some_ne_none _, fun _ _ => rfl, fun _ _ => Option.some_ne_none _, fun _ => by simp [ExecEnv.plain],
    fun _ => rfl⟩

section Submission

variable {ophAutoRetry : Nat} {env : ExecEnv} {i : Nat} {wf : Workflow}

theorem lightFailed_local (i j : Nat) (wf : Workflow) : Local (Entry.Submits i) i wf (lightFailed wf i j).1 := by
  simp only [lightFailed]
  apply Local.modify
  rfl

theorem executeLight_local (env : ExecEnv) (i j : Nat) (retry : Bool) (wf : Workflow) :
    Local (Entry.Submits i) i wf (executeLight env i retry wf j).1 := by
  have hmark (m : Int) :
      Local (Entry.Submits i) i wf (wf.modify i fun t => t.modifyLight j fun l => { l with markerid := m }) :=
    .modify rfl
  unfold executeLight
  simp only
  split
  · split
    · exact .refl _ i wf
    · exact lightFailed_local i j wf
  · split
    · exact lightFailed_local i j wf
    · split
      · exact (hmark _).trans (lightFailed_local i j _)
      · split
        · exact (hmark _).trans (lightFailed_local i j _)
        · exact (hmark _).trans (Local.trans (.modify rfl) (.record rfl))

theorem executeLights_local (env : ExecEnv) (i : Nat) (retry : Bool) (wf : Workflow) :
    Local (Entry.Submits i) i wf (executeLights env i retry wf).1 := by
  unfold executeLights
  refine Lib.foldOut_induct (fun wf' _ => Local (Entry.Submits i) i wf wf') (.refl _ i wf) fun j _ wf' _ h => ?_
  exact h.trans (executeLight_local env i j retry wf')

theorem finishMassive_local (env : ExecEnv) (wf : Workflow) (i : Nat) (s : JobStatus) :
    Local (Entry.Submits i) i wf (finishMassive env wf i s).1 := by
  unfold finishMassive
  split
  · exact .setTaskStatus s
  · simp only
    apply Local.modify
    rfl

theorem submitTask_local (he : env.Grants) (wf : Workflow) (remake : Bool) :
    Local (Entry.Submits i) i wf (submitTask ophAutoRetry env wf i remake).1 := by
  unfold submitTask
  split
  · next hj => exact absurd hj (he.createJob i none)
  · next id _ =>
    have hid : Local (Entry.Submits i) i wf (wf.modify i fun t => { t with idjob := (id : Nat) }) := .modify rfl
    simp only [he.remadeString, Bool.not_true, Bool.and_false, Bool.false_eq_true, ↓reduceIte]
    split
    · exact (hid.trans (executeLights_local env i _ _)).trans (.setTaskStatus _)
    · exact hid.trans (.setTaskStatus _)

theorem printLists_links (t : Task) : t.printLists.linkView = t.linkView :=
  congrArg (fun l => (t.operator, t.deps, t.residualDepsNum, t.dependentsIndexes, l)) List.map_map

theorem setArgument_links (t : Task) (k : Nat) (value : String) : (t.setArgument k value).linkView = t.linkView :=
  congrArg (fun l => (t.operator, t.deps, t.residualDepsNum, t.dependentsIndexes, l))
    (Lib.map_modify_of_eq (f := fun a : Argument => { a with value := some value }) (fun _ => rfl) t.arguments k)

theorem prepare_links (markerid : Option Int) (t : Task) : (t.prepare markerid).linkView = t.linkView := by
  unfold Task.prepare
  simp only
  split
  · split
    · exact printLists_links t
    · exact printLists_links t
  · exact printLists_links t

theorem checkForMassiveOperation_links (answer : MassiveAnswer) (t : Task) :
    (checkForMassiveOperation ophAutoRetry answer t).1.linkView = t.linkView := by
  unfold checkForMassiveOperation
  split
  · rfl
  · split
    · rfl
    · split
      · rfl
      · split
        case h_2 => exact setArgument_links t _ _
        all_goals rfl

theorem submitMassive_local (he : env.Grants) (wf : Workflow) :
    Local (Entry.Submits i) i wf (submitMassive ophAutoRetry env wf i).1 := by
  have hcheck : Local (Entry.Submits i) i wf (wf.modify i fun _ =>
      (checkForMassiveOperation ophAutoRetry (env.massive i) (wf.tasks i)).1) :=
    .modify (checkForMassiveOperation_links (env.massive i) (wf.tasks i))
  unfold submitMassive
  simp only
  split
  · exact hcheck.trans (submitTask_local he _ _)
  · exact hcheck.trans (finishMassive_local env _ i _)
  · exact hcheck.trans (finishMassive_local env _ i _)

theorem startTask_local (he : env.Grants) (wf : Workflow) (i : Nat) :
    Local (Entry.Submits i) i (wf.record (.started i)) (startTask ophAutoRetry env wf i).1 := by
  have hprep : Local (Entry.Submits i) i (wf.record (.started i))
      ((wf.record (.started i)).modify i (Task.prepare (env.markerid i none))) := .modify (prepare_links _ _)
  unfold startTask
  simp only [he.markerid, and_false, ↓reduceIte, he.submissionString, Bool.not_true, Bool.false_eq_true]
  split
  · exact hprep.trans (submitMassive_local he _)
  · exact hprep.trans (submitTask_local he _ _)

end Submission

/-! ## What is known of a task -/

/-- A task whose jobs have not failed: while it has not started it has no light tasks, then `residual_light_tasks_num`
is the number of those that have not ended, and the task is over as soon as none is left. -/
structure Task.Sound (i : Nat) (trace : List Entry) (done : Prop) (t : Task) : Prop where
  idjob : t.status ≠ .unknown → t.idjob ≠ 0
  fresh : t.status = .unknown → t.lightTasks = none ∧ t.lightTasksNum = 0
  outputs : t.lightTasksNum = 0 → ¬ done → t.outputs = []
  light : ∀ j, (t.lightTask j).status ≤ .completed
  residual : t.lightTasksNum ≠ 0 → t.residualLightTasksNum =
    (List.range t.lightTasksNum).countP fun j => Entry.endedLight i j ∉ trace
  done_iff : t.lightTasksNum ≠ 0 → (done ↔ t.residualLightTasksNum = 0)

/-- A task after its submission. -/
structure Task.Submitted (t t' : Task) : Prop where
  status : t'.status ≠ .unknown
  idjob : t'.idjob ≠ 0
  outputs : t'.outputs = t.outputs
  light : ∀ j, (t'.lightTask j).status ≤ .completed
  residual : t'.lightTasksNum ≠ 0 → t'.residualLightTasksNum = t'.lightTasksNum

namespace Task

theorem modifyLight_cases (t : Task) (j m : Nat) (f : LightTask → LightTask) :
    (t.modifyLight j f).lightTask m = t.lightTask m ∨
      (m = j ∧ (t.modifyLight j f).lightTask m = f (t.lightTask j)) := by
  by_cases hj : m = j ∧ ¬ j < (t.lightTasks.getD []).length
  · obtain ⟨rfl, hj⟩ := hj
    left
    unfold lightTask modifyLight
    cases ht : t.lightTasks with
    | none => rfl
    | some l =>
      rw [ht] at hj
      simp only [Option.getD_some, not_lt] at hj
      simp [hj]
  · have h := lightTask_modifyLight t j m f fun hm => not_not.mp fun hlt => hj ⟨hm, hlt⟩
    split at h
    · next hm => exact .inr ⟨hm, h⟩
    · exact .inl h

/-- The fields of a task that the submission of its light tasks leaves alone. -/
def submission (t : Task) := (t.idjob, t.outputs, t.lightTasksNum, t.residualLightTasksNum)

end Task

section Submission

variable {ophAutoRetry : Nat} {env : ExecEnv} {i : Nat} {wf : Workflow}

/-- A light task that has not been submitted yet is submitted. -/
theorem executeLight_granted (he : env.Grants) (retry : Bool) {j : Nat}
    (hj : ((wf.tasks i).lightTask j).status = .unknown) :
    ((executeLight env i retry wf j).1.tasks i).submission = (wf.tasks i).submission ∧
      ∀ m, (((executeLight env i retry wf j).1.tasks i).lightTask m).status = ((wf.tasks i).lightTask m).status ∨
        (m = j ∧ (((executeLight env i retry wf j).1.tasks i).lightTask m).status = .pending) := by
  obtain ⟨markerid, hm⟩ := Option.ne_none_iff_exists'.mp (he.markerid i (some j))
  obtain ⟨id, hid⟩ := Option.ne_none_iff_exists'.mp (he.createJob i (some j))
  have hlight : (executeLight env i retry wf j).1.tasks i =
      ((wf.tasks i).modifyLight j fun l => { l with markerid := markerid }).modifyLight j
        fun l => { l with idjob := (id : Nat), status := .pending } := by
    unfold executeLight
    simp only [hj, ne_eq, not_true_eq_false, ↓reduceIte, hm, hid, he.submissionString, Bool.not_true,
      Bool.false_eq_true, Workflow.record, Workflow.modify_tasks_self]
  rw [hlight]
  refine ⟨rfl, fun m => ?_⟩
  rcases ((wf.tasks i).modifyLight j fun l => { l with markerid := markerid }).modifyLight_cases j m
    fun l => { l with idjob := (id : Nat), status := .pending } with h | ⟨hmj, h⟩
  · left
    rw [h]
    rcases (wf.tasks i).modifyLight_cases j m fun l => { l with markerid := markerid } with h' | ⟨rfl, h'⟩
    · rw [h']
    · rw [h']
  · exact .inr ⟨hmj, by rw [h]⟩

theorem executeLights_granted (he : env.Grants) (retry : Bool)
    (hlight : ∀ j, ((wf.tasks i).lightTask j).status = .unknown) :
    ((executeLights env i retry wf).1.tasks i).submission = (wf.tasks i).submission ∧
      ∀ j, (((executeLights env i retry wf).1.tasks i).lightTask j).status ≤ .completed := by
  unfold executeLights
  have h := Lib.foldOut_range_induct (f := executeLight env i retry) (n := (wf.tasks i).lightTasksNum) (s := wf)
    (fun m wf' _ => (wf'.tasks i).submission = (wf.tasks i).submission ∧
      (∀ j, ((wf'.tasks i).lightTask j).status ≤ .completed) ∧
        ∀ j, m ≤ j → ((wf'.tasks i).lightTask j).status = .unknown)
    ⟨rfl, fun j => by rw [hlight]; decide, fun j _ => hlight j⟩
    (fun m _ wf' _ ⟨hview, hle, hunknown⟩ => ?_)
  · exact ⟨h.1, h.2.1⟩
  · obtain ⟨hv, hs⟩ := executeLight_granted he retry (hunknown m le_rfl)
    refine ⟨hv.trans hview, fun j => ?_, fun j hj => ?_⟩
    · rcases hs j with hs | ⟨-, hs⟩
      · rw [hs]
        exact hle j
      · rw [hs]
        decide
    · rcases hs j with hs | ⟨rfl, -⟩
      · rw [hs]
        exact hunknown j (by omega)
      · omega

theorem submitTask_submitted (he : env.Grants) (remake : Bool)
    (hlight : ∀ j, ((wf.tasks i).lightTask j).status = .unknown)
    (hres : (wf.tasks i).lightTasksNum ≠ 0 → (wf.tasks i).residualLightTasksNum = (wf.tasks i).lightTasksNum) :
    (wf.tasks i).Submitted ((submitTask ophAutoRetry env wf i remake).1.tasks i) := by
  obtain ⟨id, hid⟩ := Option.ne_none_iff_exists'.mp (he.createJob i none)
  have hne : ((id : Nat) : Int) ≠ 0 := by
    have := id.pos
    omega
  have hwaiting (j : Nat) : ((wf.tasks i).lightTask j).status ≤ .completed := by
    rw [hlight]
    decide
  unfold submitTask
  simp only [hid, he.remadeString, Bool.not_true, Bool.and_false, Bool.false_eq_true, ↓reduceIte]
  split
  · generalize hretry : (((wf.modify i fun t => { t with idjob := (id : Nat) }).tasks i).autoRetry ophAutoRetry ||
      ((wf.modify i fun t => { t with idjob := (id : Nat) }).tasks i).manualRetry) = retry
    have hbefore : (wf.modify i fun t => { t with idjob := (id : Nat) }).tasks i =
        { wf.tasks i with idjob := (id : Nat) } := Workflow.modify_tasks_self ..
    have h := @executeLights_granted env i (wf.modify i fun t => { t with idjob := (id : Nat) }) he retry
      (by rw [hbefore]; exact hlight)
    rw [hbefore, Task.submission, Task.submission, Prod.mk.injEq, Prod.mk.injEq, Prod.mk.injEq] at h
    obtain ⟨⟨hidjob, houtputs, hnum, hresidual⟩, hle⟩ := h
    rw [Workflow.setTaskStatus, Workflow.modify_tasks_self]
    refine ⟨?_, hidjob ▸ hne, houtputs, hle, fun h0 => ?_⟩
    · simp only
      split <;> decide
    · exact (hresidual.trans (hres (hnum ▸ h0))).trans (congrArg Nat.cast hnum.symm)
  · rw [Workflow.setTaskStatus, Workflow.modify_tasks_self, Workflow.modify_tasks_self]
    exact ⟨by simp, hne, rfl, hwaiting, hres⟩

theorem finishMassive_submitted (he : env.Grants) {s : JobStatus} (hs : s ≠ .unknown)
    (hlight : ∀ j, ((wf.tasks i).lightTask j).status = .unknown) (hnum : (wf.tasks i).lightTasksNum = 0) :
    (wf.tasks i).Submitted ((finishMassive env wf i s).1.tasks i) := by
  obtain ⟨id, hid⟩ := Option.ne_none_iff_exists'.mp (he.createJob i none)
  unfold finishMassive
  simp only [hid, Workflow.modify_tasks_self]
  have hwaiting (j : Nat) : ((wf.tasks i).lightTask j).status ≤ .completed := by
    rw [hlight]
    decide
  refine ⟨hs, ?_, rfl, hwaiting, fun h => absurd hnum h⟩
  have := id.pos
  simp only
  omega

/-- A task that has no light tasks yet may get some, all of them to be submitted. -/
theorem checkForMassiveOperation_fresh (answer : MassiveAnswer) (ha : answer ≠ .error) {t : Task}
    (hl : t.lightTasks = none) (hn : t.lightTasksNum = 0) :
    (checkForMassiveOperation ophAutoRetry answer t).1.status = t.status ∧
      (checkForMassiveOperation ophAutoRetry answer t).1.outputs = t.outputs ∧
      (checkForMassiveOperation ophAutoRetry answer t).2.1 ≠ .systemError ∧
      (∀ j, ((checkForMassiveOperation ophAutoRetry answer t).1.lightTask j).status = .unknown) ∧
      ((checkForMassiveOperation ophAutoRetry answer t).1.lightTasksNum ≠ 0 →
        (checkForMassiveOperation ophAutoRetry answer t).1.residualLightTasksNum =
          (checkForMassiveOperation ophAutoRetry answer t).1.lightTasksNum ∧
        (checkForMassiveOperation ophAutoRetry answer t).2.1 = .ok) := by
  have hnone (j : Nat) : (t.lightTask j).status = .unknown := by simp [Task.lightTask, hl]
  unfold checkForMassiveOperation
  split
  · refine ⟨rfl, rfl, by simp, fun j => ?_, fun h => absurd hn h⟩
    simp [Task.lightTask, hl]
  · split
    · next h => exact absurd hn h
    · split
      · next h =>
        rw [hl] at h
        cases h
      · cases answer with
        | single remake =>
          cases remake with
          | none => exact ⟨rfl, rfl, by simp, hnone, fun h => absurd hn h⟩
          | some p => exact ⟨rfl, rfl, by simp, hnone, fun h => absurd hn h⟩
        | light number =>
          refine ⟨rfl, rfl, by simp, fun j => ?_, fun _ => ⟨rfl, rfl⟩⟩
          simp only [Task.lightTask, Option.getD_some, List.getD_eq_getElem?_getD, List.getElem?_replicate]
          split <;> rfl
        | noResponse => exact ⟨rfl, rfl, by simp, hnone, fun h => absurd hn h⟩
        | error => exact absurd rfl ha

theorem prepare_submission (markerid : Option Int) (t : Task) : (t.prepare markerid).outputs = t.outputs ∧
    (t.prepare markerid).lightTasks = t.lightTasks ∧ (t.prepare markerid).lightTasksNum = t.lightTasksNum := by
  unfold Task.prepare
  simp only
  split
  · split <;> exact ⟨rfl, rfl, rfl⟩
  · exact ⟨rfl, rfl, rfl⟩

theorem startTask_submitted (he : env.Grants) (hl : (wf.tasks i).lightTasks = none)
    (hn : (wf.tasks i).lightTasksNum = 0) :
    (wf.tasks i).Submitted ((startTask ophAutoRetry env wf i).1.tasks i) := by
  obtain ⟨hout, hlight, hnum⟩ := prepare_submission (env.markerid i none) (wf.tasks i)
  generalize hwf : (wf.record (.started i)).modify i (Task.prepare (env.markerid i none)) = wf₁
  have htask : wf₁.tasks i = (wf.tasks i).prepare (env.markerid i none) := by
    rw [← hwf, Workflow.modify_tasks_self]
    rfl
  rw [← htask] at hout hlight hnum
  rw [hl] at hlight
  rw [hn] at hnum
  have hunknown (j : Nat) : ((wf₁.tasks i).lightTask j).status = .unknown := by simp [Task.lightTask, hlight]
  have hsub {t : Task} (h : (wf₁.tasks i).Submitted t) : (wf.tasks i).Submitted t :=
    ⟨h.status, h.idjob, h.outputs.trans hout, h.light, h.residual⟩
  unfold startTask
  simp only [hwf, he.markerid, and_false, ↓reduceIte, he.submissionString, Bool.not_true, Bool.false_eq_true]
  split
  · obtain ⟨-, ho, herr, hw, hm⟩ := @checkForMassiveOperation_fresh ophAutoRetry (env.massive i) (he.massive i)
      (wf₁.tasks i) hlight hnum
    refine hsub ?_
    unfold submitMassive
    simp only
    generalize hc : checkForMassiveOperation ophAutoRetry (env.massive i) (wf₁.tasks i) = c at ho herr hw hm ⊢
    obtain ⟨t, res, remake⟩ := c
    have hself : (wf₁.modify i fun _ => t).tasks i = t := Workflow.modify_tasks_self ..
    generalize (wf₁.modify i fun _ => t) = wf₂ at hself ⊢
    subst hself
    have hback {t' : Task} (h : (wf₂.tasks i).Submitted t') : (wf₁.tasks i).Submitted t' :=
      ⟨h.status, h.idjob, h.outputs.trans ho, h.light, h.residual⟩
    cases res with
    | ok => exact hback (submitTask_submitted he remake hw fun h => (hm h).1)
    | noResponse =>
      refine hback (finishMassive_submitted he (by decide) hw ?_)
      by_contra h
      exact absurd (hm h).2 (by simp)
    | systemError => exact absurd rfl herr
  · exact hsub (submitTask_submitted he false hunknown fun h => absurd hnum h)

end Submission

/-! ## Notifications -/

/-- A notification of a job that has not failed: the task has started, the light task is one of its own, and the end of
the job has not been notified yet. -/
def Notification.Fits (n : Notification) (wf : Workflow) : Prop :=
  n.status ≤ .completed ∧ .started n.taskIndex ∈ wf.trace ∧
    match n.lightTaskIndex with
    | none => (wf.tasks n.taskIndex).lightTasksNum = 0 ∧ (n.status = .completed → .completed n.taskIndex ∉ wf.trace)
    | some j =>
      j < (wf.tasks n.taskIndex).lightTasksNum ∧ (n.status = .completed → .endedLight n.taskIndex j ∉ wf.trace)

instance (n : Notification) (wf : Workflow) : Decidable (n.Fits wf) := by
  unfold Notification.Fits
  cases n.lightTaskIndex <;> infer_instance

theorem JobStatus.notified_cases {s status : JobStatus} (hs : s ≤ .completed) (h : s.notified = some status) :
    s ≠ .unknown ∧ status ≠ .error ∧ (status = .completed ↔ s = .completed) := by
  cases s with
  | unknown => cases h
  | pending | wait | running | start | setEnv | init | distribute | execute | reduce | destroy | unsetEnv |
    completed =>
    cases h
    exact ⟨by decide, by decide, by decide⟩
  | _ => exact absurd hs (by decide)

section Updates

variable {ophAutoRetry : Nat} {env : NotifyEnv} {n : Notification} {wf : Workflow} {status : JobStatus}

theorem toRunning_links (t : Task) : t.toRunning.linkView = t.linkView := by
  unfold Task.toRunning
  split <;> rfl

theorem markForAutoRetry_links (t : Task) : (t.markForAutoRetry ophAutoRetry).linkView = t.linkView := by
  unfold Task.markForAutoRetry
  split <;> rfl

theorem markAutoRetry_links (s : JobStatus) (t : Task) : (markAutoRetry ophAutoRetry s t).1.linkView = t.linkView := by
  unfold markAutoRetry
  split_ifs <;> rfl

theorem writeLight_local (j : Nat) :
    Local (Entry.Minor n.taskIndex) n.taskIndex wf (writeLight ophAutoRetry wf n j) := by
  have hset : Local (Entry.Minor n.taskIndex) n.taskIndex wf
      (wf.modify n.taskIndex fun t => t.modifyLight j fun l => { l with status := n.status }) := .modify rfl
  unfold writeLight lightStartError
  split
  · exact ((hset.trans (.modify (markForAutoRetry_links _))).trans (.modify (toRunning_links _))).trans
      (.raiseStatus _ _ _)
  · exact hset

theorem lightOver_local (i j : Nat) (outputs : List (String × String)) :
    Local (Entry.Minor i) i wf (lightOver wf i j status outputs).wf := by
  have hcount : Local (Entry.Minor i) i wf ((wf.modify i (Task.countLight status outputs)).record (.endedLight i j)) :=
    Local.trans (.modify rfl) (.record rfl)
  unfold lightOver
  split
  · exact .refl _ i wf
  · simp only
    split
    · exact hcount.trans (.setTaskStatus _)
    · exact hcount

theorem updateStatus_local :
    Local (Entry.Minor n.taskIndex) n.taskIndex wf (updateStatus ophAutoRetry env n wf status).wf := by
  unfold updateStatus
  split
  · next j _ =>
    have hset := @writeLight_local ophAutoRetry n wf j
    unfold notifyLight
    simp only
    split_ifs
    · exact hset
    · exact hset.trans (lightOver_local _ _ _)
    · exact (hset.trans (.modify (toRunning_links _))).trans (.raiseStatus _ _ _)
    · exact hset
  · have hmark : Local (Entry.Minor n.taskIndex) n.taskIndex wf (wf.modify n.taskIndex fun _ =>
        (markAutoRetry ophAutoRetry n.status { wf.tasks n.taskIndex with status := n.status }).1) :=
      .modify (markAutoRetry_links _ _)
    unfold notifyTask
    simp only
    split_ifs
    · exact hmark
    · exact hmark
    · exact hmark.trans (.raiseStatus _ _ _)
    · exact hmark

/-- A task whose last job has just ended: it is to be accounted for. -/
structure Due (i : Nat) (trace : List Entry) (t : Task) : Prop where
  sound : t.Sound i trace True
  notDone : .completed i ∉ trace
  noOutputs : t.lightTasksNum = 0 → t.outputs = []

/-- What becomes of a task when the status of one of its jobs is updated: a job goes on, or it was the last one. -/
structure Updated (n : Notification) (u : Update) : Prop where
  status : (u.wf.tasks n.taskIndex).status ≠ .unknown
  goes : ((u.stop = true ∨ u.isOver = none) ∧
      (u.wf.tasks n.taskIndex).Sound n.taskIndex u.wf.trace (.completed n.taskIndex ∈ u.wf.trace)) ∨
    (u.stop = false ∧ u.isOver = some .completed ∧ Due n.taskIndex u.wf.trace (u.wf.tasks n.taskIndex))

theorem raiseStatus_trace (wf : Workflow) (s : JobStatus) : (raiseStatus wf s).trace = wf.trace := by
  unfold raiseStatus
  split <;> rfl

theorem notifyTask_updated (hle : n.status ≤ .completed) (hst : n.status.notified = some status)
    (hs : (wf.tasks n.taskIndex).Sound n.taskIndex wf.trace (.completed n.taskIndex ∈ wf.trace))
    (hid : (wf.tasks n.taskIndex).status ≠ .unknown) (hc : (wf.tasks n.taskIndex).Calm)
    (hnum : (wf.tasks n.taskIndex).lightTasksNum = 0)
    (hend : n.status = .completed → .completed n.taskIndex ∉ wf.trace) :
    Updated n (notifyTask ophAutoRetry env wf n status) := by
  obtain ⟨hunknown, hne, hiff⟩ := JobStatus.notified_cases hle hst
  have hmark : markAutoRetry ophAutoRetry n.status { wf.tasks n.taskIndex with status := n.status } =
      ({ wf.tasks n.taskIndex with status := n.status, residualAutoRetryNum := 0 }, false) := by
    unfold markAutoRetry
    rw [if_neg]
    rintro (hm | hm)
    · exact Bool.noConfusion (hc.isMarkedForAutoRetry.symm.trans hm)
    · rw [hm] at hle
      exact absurd hle (by decide)
  have hsound (done : Prop) (hd : .completed n.taskIndex ∈ wf.trace → done) :
      ({ wf.tasks n.taskIndex with status := n.status, residualAutoRetryNum := 0 } : Task).Sound n.taskIndex wf.trace
        done :=
    ⟨fun _ => hs.idjob hid, fun h => absurd h hunknown, fun h0 hd' => hs.outputs h0 (mt hd hd'), hs.light,
      fun h => absurd hnum h, fun h => absurd hnum h⟩
  have hstatus : ({ wf.tasks n.taskIndex with status := n.status, residualAutoRetryNum := 0 } : Task).status ≠
    .unknown := hunknown
  have hout : ({ wf.tasks n.taskIndex with status := n.status, residualAutoRetryNum := 0 } : Task).outputs =
    (wf.tasks n.taskIndex).outputs := rfl
  unfold notifyTask
  simp only [hmark, Bool.false_and, Bool.false_eq_true, ↓reduceIte]
  generalize ({ wf.tasks n.taskIndex with status := n.status, residualAutoRetryNum := 0 } : Task) = t at *
  have hself : (wf.modify n.taskIndex fun _ => t).tasks n.taskIndex = t := Workflow.modify_tasks_self ..
  have htrace : (wf.modify n.taskIndex fun _ => t).trace = wf.trace := rfl
  generalize (wf.modify n.taskIndex fun _ => t) = wf₁ at *
  subst hself
  split
  · next hover =>
    have hcomp : n.status = .completed := hiff.mp (hover.resolve_right hne)
    have hnot := hend hcomp
    refine ⟨hstatus, .inr ⟨rfl, congrArg some (hover.resolve_right hne), ?_⟩⟩
    rw [← htrace] at hsound hnot
    exact ⟨hsound True fun _ => trivial, hnot, fun _ => hout.trans (hs.outputs hnum (htrace ▸ hnot))⟩
  · split
    · refine ⟨by rwa [raiseStatus_tasks], .inl ⟨.inr rfl, ?_⟩⟩
      rw [raiseStatus_tasks, raiseStatus_trace, htrace]
      exact hsound _ id
    · refine ⟨hstatus, .inl ⟨.inr rfl, ?_⟩⟩
      rw [htrace]
      exact hsound _ id

theorem toRunning_sound {i : Nat} {trace : List Entry} {done : Prop} {t : Task} (h : t.Sound i trace done)
    (hid : t.status ≠ .unknown) : t.toRunning.status ≠ .unknown ∧ t.toRunning.Sound i trace done := by
  unfold Task.toRunning
  split
  · exact ⟨by simp, fun _ => h.idjob hid, fun h => by simp at h, h.outputs, h.light, h.residual, h.done_iff⟩
  · exact ⟨hid, h⟩

/-- A light task that ends is not counted yet, so that the counter is not at zero. -/
theorem lightOver_updated {j : Nat} {outputs : List (String × String)}
    (hs : (wf.tasks n.taskIndex).Sound n.taskIndex wf.trace (.completed n.taskIndex ∈ wf.trace))
    (hid : (wf.tasks n.taskIndex).status ≠ .unknown) (hj : j < (wf.tasks n.taskIndex).lightTasksNum)
    (hend : .endedLight n.taskIndex j ∉ wf.trace) :
    Updated n (lightOver wf n.taskIndex j .completed outputs) := by
  generalize hi : n.taskIndex = i at *
  have hnum : (wf.tasks i).lightTasksNum ≠ 0 := by omega
  have hcount : (List.range (wf.tasks i).lightTasksNum).countP (fun k => Entry.endedLight i k ∉ wf.trace) =
      (List.range (wf.tasks i).lightTasksNum).countP
        (fun k => Entry.endedLight i k ∉ .endedLight i j :: wf.trace) + 1 := by
    refine Lib.countP_range_eq_succ hj (by simpa using hend) (by simp) fun k hk => ?_
    simp [hk]
  have hres := hs.residual hnum
  have hnot : .completed i ∉ wf.trace := fun h => by
    have := (hs.done_iff hnum).mp h
    omega
  generalize hwf : (wf.modify i (Task.countLight .completed outputs)).record (.endedLight i j) = wf₁
  have hself : wf₁.tasks i = (wf.tasks i).countLight .completed outputs := by
    rw [← hwf]
    exact Workflow.modify_tasks_self ..
  have htrace : wf₁.trace = .endedLight i j :: wf.trace := by rw [← hwf]; rfl
  have hsound (s : JobStatus) (hsu : s ≠ .unknown) (done : Prop)
      (hd : done ↔ (wf.tasks i).residualLightTasksNum - 1 = 0) :
      ({ (wf.tasks i).countLight .completed outputs with status := s } : Task).Sound i wf₁.trace done := by
    refine ⟨fun _ => hs.idjob hid, fun h => absurd h hsu, fun h => absurd h hnum, hs.light, fun _ => ?_, fun _ => hd⟩
    rw [htrace]
    show (wf.tasks i).residualLightTasksNum - 1 = ((List.range (wf.tasks i).lightTasksNum).countP _ : Nat)
    omega
  unfold lightOver
  rw [if_neg (by omega)]
  simp only [hwf]
  split
  · next hzero =>
    rw [hself] at hzero
    have hall : allLightCompleted (wf₁.tasks i) = true := by
      rw [hself, allLightCompleted, List.all_eq_true]
      exact fun k _ => decide_eq_true (hs.light k)
    rw [hall, if_pos rfl]
    have hset : (wf₁.setTaskStatus i .completed).tasks i =
        { (wf.tasks i).countLight .completed outputs with status := .completed } := by
      rw [Workflow.setTaskStatus, Workflow.modify_tasks_self, hself]
    refine ⟨?_, .inr ⟨rfl, rfl, ?_⟩⟩
    · rw [hi, hset]
      simp
    · rw [hi, hset]
      refine ⟨hsound _ (by decide) True (iff_of_true trivial hzero), ?_, fun h => absurd h hnum⟩
      show Entry.completed i ∉ wf₁.trace
      simpa [htrace] using hnot
  · next hmore =>
    rw [hself] at hmore
    have hid' : ((wf.tasks i).countLight .completed outputs).status ≠ .unknown := hid
    refine ⟨?_, .inl ⟨.inr rfl, ?_⟩⟩
    · rw [hi, hself]
      exact hid'
    · rw [hi, hself]
      refine hsound _ hid _ (iff_of_false ?_ hmore)
      simpa [htrace] using hnot

theorem notifyLight_updated {j : Nat} (hle : n.status ≤ .completed) (hst : n.status.notified = some status)
    (hs : (wf.tasks n.taskIndex).Sound n.taskIndex wf.trace (.completed n.taskIndex ∈ wf.trace))
    (hid : (wf.tasks n.taskIndex).status ≠ .unknown) (hj : j < (wf.tasks n.taskIndex).lightTasksNum)
    (hend : n.status = .completed → .endedLight n.taskIndex j ∉ wf.trace) :
    Updated n (notifyLight ophAutoRetry env wf n j status) := by
  obtain ⟨hunknown, hne, hiff⟩ := JobStatus.notified_cases hle hst
  have hnum : (wf.tasks n.taskIndex).lightTasksNum ≠ 0 := by omega
  have hstart : n.status ≠ .startError := fun hm => by
    rw [hm] at hle
    exact absurd hle (by decide)
  generalize hwf : wf.modify n.taskIndex (fun t => t.modifyLight j fun l => { l with status := n.status }) = wf₁
  have hself : wf₁.tasks n.taskIndex = (wf.tasks n.taskIndex).modifyLight j fun l => { l with status := n.status } := by
    rw [← hwf, Workflow.modify_tasks_self]
  have htrace : wf₁.trace = wf.trace := by rw [← hwf, Workflow.modify_trace]
  have hlight (m : Nat) : ((wf₁.tasks n.taskIndex).lightTask m).status ≤ .completed := by
    rw [hself]
    rcases (wf.tasks n.taskIndex).modifyLight_cases j m fun l => { l with status := n.status } with h | ⟨-, h⟩
    · rw [h]
      exact hs.light m
    · rw [h]
      exact hle
  have hs₁ : (wf₁.tasks n.taskIndex).Sound n.taskIndex wf.trace (.completed n.taskIndex ∈ wf.trace) := by
    rw [hself] at hlight ⊢
    exact ⟨hs.idjob, fun h => absurd h hid, hs.outputs, hlight, hs.residual, hs.done_iff⟩
  have hid₁ : (wf₁.tasks n.taskIndex).status ≠ .unknown := by
    rw [hself]
    exact hid
  unfold notifyLight writeLight
  simp only [hwf, hstart, false_and, ↓reduceIte]
  rw [← htrace] at hs₁ hend
  have hnum₁ : (wf₁.tasks n.taskIndex).lightTasksNum = (wf.tasks n.taskIndex).lightTasksNum := by
    rw [hself]
    rfl
  split
  · next hover =>
    have hcomp : n.status = .completed := hiff.mp (hover.resolve_right hne)
    rw [hover.resolve_right hne]
    exact lightOver_updated hs₁ hid₁ (by omega) (hend hcomp)
  · split
    · obtain ⟨hid₂, hs₂⟩ := toRunning_sound hs₁ hid₁
      refine ⟨?_, .inl ⟨.inr rfl, ?_⟩⟩
      · rw [raiseStatus_tasks, Workflow.modify_tasks_self]
        exact hid₂
      · rw [raiseStatus_tasks, raiseStatus_trace, Workflow.modify_tasks_self]
        exact hs₂
    · exact ⟨hid₁, .inl ⟨.inr rfl, hs₁⟩⟩

theorem updateStatus_updated (hn : n.Fits wf) (hst : n.status.notified = some status)
    (hs : (wf.tasks n.taskIndex).Sound n.taskIndex wf.trace (.completed n.taskIndex ∈ wf.trace))
    (hid : (wf.tasks n.taskIndex).status ≠ .unknown) (hc : (wf.tasks n.taskIndex).Calm) :
    Updated n (updateStatus ophAutoRetry env n wf status) := by
  obtain ⟨hle, -, hn⟩ := hn
  unfold updateStatus
  split at hn
  · next hl =>
    simp only [hl]
    exact notifyTask_updated hle hst hs hid hc hn.1 hn.2
  · next j hl =>
    simp only [hl]
    exact notifyLight_updated hle hst hs hid hn.1 hn.2

end Updates

end OphidiaWorkflow
