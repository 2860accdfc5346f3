import OphidiaWorkflow.Engine.System
import OphidiaWorkflow.Text.Submission

/-!
The two ways in which a workflow comes to `oph_workflow_execute`: at once, from the submission handler, or later, from
the queue, when a notification frees a slot of the farm.
-/
namespace OphidiaWorkflow

/-- The settings of the server that the basic variables show. -/
structure ServerSettings where
  webServer : Option String := none
  host : Option String := none
  port : Option String := none
  deriving DecidableEq, Repr

/-- A workflow as it stands in the job list, with the fields of `oph_workflow` that only its start concerns. -/
structure JobItem where
  wf : Workflow
  sessionid : Option String := none
  workflowid : Int := 1
  username : Option String := none
  password : Option String := none
  osUsername : Option String := none
  hostPartition : Option String := none
  hostPartitionOrig : Option String := none

/-- Answers to the start: whether the OphidiaDB knows the user and creates the partition, and what the field `ivalue` of
the basic variables holds, which is never set. -/
structure StartEnv where
  userId : Bool := true
  createHp : Bool := true
  ivalue : Int := 0
  deriving DecidableEq, Repr

/-- The basic variables; a value that cannot be computed is a null pointer. -/
def basicVars (cfg : ServerSettings) (d : JobItem) : List (String × Option String) :=
  [("OPH_SESSION_ID", some (d.sessionid.getD "none")),
    ("OPH_SESSION_CODE", d.sessionid.bind fun s => (sessionCode cfg.webServer s).map String.ofList),
    ("OPH_WORKFLOW_ID", d.sessionid.map fun _ => String.ofList (Lib.decimal d.workflowid)),
    ("OPH_SERVER_HOST", some (cfg.host.getD "none")), ("OPH_SERVER_PORT", some (cfg.port.getD "none")),
    ("OPH_USER", some (d.username.getD "none")), ("OPH_PASSWD", some (d.password.getD "none")),
    ("OPH_OS_USER", some (d.osUsername.getD "none"))]

/-- One basic variable: `hashtbl_insert_with_size` leaves a variable that exists as it is. -/
def setVar (ivalue : Int) (vars : String → Option Var) (kv : String × Option String) : Option (String → Option Var) :=
  kv.2.map fun s =>
    if (vars kv.1).isSome then vars
    else Function.update vars kv.1 (some { caller := -1, svalue := s, ivalue := ivalue })

/-- `oph_workflow_set_basic_var` -/
def setBasicVar (cfg : ServerSettings) (env : StartEnv) (d : JobItem) : Option JobItem :=
  ((basicVars cfg d).foldlM (setVar env.ivalue) d.wf.vars).map fun vars => { d with wf := { d.wf with vars := vars } }

/-- The name of the temporary partition. -/
def partitionName (d : JobItem) : String := String.ofList ('_' :: Lib.decimal d.wf.idjob)

/-- `oph_workflow_create_hp` -/
def createHp (env : StartEnv) (d : JobItem) : Option JobItem :=
  if d.hostPartition = none ∨ d.hostPartition = some "" then some d
  else if env.userId && env.createHp then
    some { d with hostPartitionOrig := d.hostPartition, hostPartition := some (partitionName d) }
  else none

/-- The workflow leaves the queue, or never enters it. -/
def JobItem.setPending (d : JobItem) : JobItem := { d with wf := { d.wf with status := .pending } }

/-- `oph_workflow_init`, which needs an independent task. -/
def initTasks (d : JobItem) : Option (List Nat) := some d.wf.initialTasks |>.filter fun l => !l.isEmpty

/-- The start by the submission handler: what is handed to `oph_workflow_execute`. -/
def startImmediate (cfg : ServerSettings) (env : StartEnv) (d : JobItem) : Option (JobItem × List Nat) := do
  let tasks ← initTasks d.setPending
  let d ← setBasicVar cfg env d.setPending
  let d ← createHp env d
  some (d, tasks)

/-- The start from the queue. -/
def startQueued (d : JobItem) : Option (JobItem × List Nat) := do
  let tasks ← initTasks d.setPending
  some (d.setPending, tasks)

section Start

variable {cfg : ServerSettings} {env : StartEnv} {d d' : JobItem} {ivalue : Int} {kvs : List (String × Option String)}
  {vars vars' : String → Option Var}

theorem setVars_spec (h : kvs.foldlM (setVar ivalue) vars = some vars') :
    (∀ k, (vars k).isSome → vars' k = vars k) ∧ ∀ kv ∈ kvs, kv.2.isSome ∧ (vars' kv.1).isSome := by
  induction kvs generalizing vars with
  | nil =>
    cases h
    exact ⟨fun _ _ => rfl, fun kv hkv => absurd hkv List.not_mem_nil⟩
  | cons kv kvs ih =>
    rw [List.foldlM_cons] at h
    obtain ⟨v, hv, h⟩ := Option.bind_eq_some_iff.mp h
    obtain ⟨s, hs, rfl⟩ := Option.map_eq_some_iff.mp hv
    obtain ⟨hold, hbound⟩ := ih h
    have hkeep (k : String) (hk : (vars k).isSome) :
        (if (vars kv.1).isSome then vars
          else Function.update vars kv.1 (some { caller := -1, svalue := s, ivalue := ivalue })) k = vars k := by
      split
      · rfl
      · next hn => exact Function.update_of_ne (fun he : k = kv.1 => hn (he ▸ hk)) _ _
    have hnew : ((if (vars kv.1).isSome then vars
        else Function.update vars kv.1 (some { caller := -1, svalue := s, ivalue := ivalue })) kv.1).isSome := by
      split
      · next hy => exact hy
      · rw [Function.update_self]
        rfl
    refine ⟨fun k hk => ?_, List.forall_mem_cons.mpr ⟨⟨by rw [hs]; rfl, ?_⟩, hbound⟩⟩
    · rw [hold k (by rw [hkeep k hk]; exact hk), hkeep k hk]
    · rw [hold _ hnew]
      exact hnew

theorem setVars_eq_self_iff :
    kvs.foldlM (setVar ivalue) vars = some vars ↔ ∀ kv ∈ kvs, kv.2.isSome ∧ (vars kv.1).isSome := by
  constructor
  · exact fun h => (setVars_spec h).2
  · intro h
    induction kvs with
    | nil => rfl
    | cons kv kvs ih =>
      obtain ⟨⟨hs, hk⟩, h⟩ := List.forall_mem_cons.mp h
      obtain ⟨s, hs⟩ := Option.isSome_iff_exists.mp hs
      rw [List.foldlM_cons, setVar, hs, Option.map_some, if_pos hk]
      exact ih h

/-- All the values of the basic variables can be computed for a session with a code. -/
theorem basicVars_isSome_iff :
    (∀ kv ∈ basicVars cfg d, kv.2.isSome) ↔ ∃ s, d.sessionid = some s ∧ (sessionCode cfg.webServer s).isSome := by
  cases hs : d.sessionid with
  | none => simp [basicVars, hs]
  | some s => simp [basicVars, hs]

theorem setBasicVar_eq_self_iff :
    setBasicVar cfg env d = some d ↔ (∃ s, d.sessionid = some s ∧ (sessionCode cfg.webServer s).isSome) ∧
      ∀ kv ∈ basicVars cfg d, (d.wf.vars kv.1).isSome := by
  rw [← basicVars_isSome_iff, ← forall₂_and, ← @setVars_eq_self_iff env.ivalue, setBasicVar,
    Option.map_eq_some_iff]
  constructor
  · rintro ⟨vars, hv, hd⟩
    have : vars = d.wf.vars := congrArg (fun d => d.wf.vars) hd
    rw [hv, this]
  · exact fun h => ⟨_, h, rfl⟩

theorem createHp_wf (h : createHp env d = some d') : d'.wf = d.wf := by
  unfold createHp at h
  split at h
  · cases h
    rfl
  · split at h
    · cases h
      rfl
    · cases h

theorem createHp_eq_self_iff :
    createHp env d = some d ↔ d.hostPartition = none ∨ d.hostPartition = some "" ∨
      (env.userId = true ∧ env.createHp = true ∧ d.hostPartition = some (partitionName d) ∧
        d.hostPartitionOrig = d.hostPartition) := by
  unfold createHp
  split
  · next h => exact iff_of_true rfl (h.elim .inl fun h => .inr (.inl h))
  · next h =>
    rw [not_or] at h
    simp only [h.1, h.2, false_or]
    split
    · next hok =>
      rw [Bool.and_eq_true] at hok
      constructor
      · intro hd
        have hd := Option.some.inj hd
        have horig : d.hostPartition = d.hostPartitionOrig := congrArg JobItem.hostPartitionOrig hd
        have hname : some (partitionName d) = d.hostPartition := congrArg JobItem.hostPartition hd
        exact ⟨hok.1, hok.2, hname.symm, horig.symm⟩
      · rintro ⟨-, -, hname, horig⟩
        obtain ⟨wf, sid, wid, user, pass, os, part, orig⟩ := d
        simp only at hname horig
        rw [← hname, horig]
    · next hok =>
      rw [Bool.and_eq_true] at hok
      exact iff_of_false (Option.some_ne_none _).symm fun hd => hok ⟨hd.1, hd.2.1⟩

/-- The workflow is handed over in the same state by both ways: it was in that state already, or neither hands it
over. -/
def StartsAlike (cfg : ServerSettings) (env : StartEnv) (d : JobItem) : Prop :=
  d.wf.initialTasks = [] ∨
    ((∃ s, d.sessionid = some s ∧ (sessionCode cfg.webServer s).isSome) ∧
      (∀ kv ∈ basicVars cfg d, (d.wf.vars kv.1).isSome) ∧
      (d.hostPartition = none ∨ d.hostPartition = some "" ∨
        (env.userId = true ∧ env.createHp = true ∧ d.hostPartition = some (partitionName d) ∧
          d.hostPartitionOrig = d.hostPartition)))

theorem startImmediate_eq_startQueued_iff (cfg : ServerSettings) (env : StartEnv) (d : JobItem) :
    startImmediate cfg env d = startQueued d ↔ StartsAlike cfg env d := by
  have hinit : initTasks d.setPending = none ↔ d.wf.initialTasks = [] := by
    show (some d.wf.initialTasks).filter _ = none ↔ _
    simp [Option.filter]
  unfold startImmediate startQueued StartsAlike
  cases ht : initTasks d.setPending with
  | none => exact iff_of_true rfl (.inl (hinit.mp ht))
  | some tasks =>
    have hne : ¬ d.wf.initialTasks = [] := fun he => by rw [hinit.mpr he] at ht; cases ht
    have hset := @setBasicVar_eq_self_iff cfg env d.setPending
    have hpart := @createHp_eq_self_iff env d.setPending
    simp only [hne, false_or]
    constructor
    · intro h
      obtain ⟨t, ht', h⟩ := Option.bind_eq_some_iff.mp h
      obtain ⟨d₁, hd₁, h⟩ := Option.bind_eq_some_iff.mp h
      obtain ⟨d₂, hd₂, h⟩ := Option.bind_eq_some_iff.mp h
      cases h
      -- the partition leaves the variables alone, so they have not changed at all
      have hvars : d₁ = d.setPending := by
        obtain ⟨vars, -, rfl⟩ := Option.map_eq_some_iff.mp hd₁
        have hv : d.setPending.wf.vars = vars := congrArg Workflow.vars (createHp_wf hd₂)
        rw [← hv]
      rw [hvars] at hd₁ hd₂
      obtain ⟨hs, hk⟩ := hset.mp hd₁
      exact ⟨hs, hk, hpart.mp hd₂⟩
    · rintro ⟨hs, hk, hp⟩
      have hd₁ := hset.mpr ⟨hs, hk⟩
      have hd₂ := hpart.mpr hp
      simp only [Option.bind_eq_bind, Option.bind_some, hd₁, hd₂]

end Start

/-- A request with one task, in a session. -/
def oneTaskItem : JobItem where
  wf := { tasks := taskArray [{ name := "A" }], tasksNum := 1, residualTasksNum := 1 }
  sessionid := some "http://host/sessions/c0de/experiment"

/-- From the queue the workflow starts without the variable that names its session. -/
theorem startImmediate_ne_startQueued_oneTask :
    startImmediate {} {} oneTaskItem ≠ startQueued oneTaskItem ∧
      ((startImmediate {} {} oneTaskItem).map fun p => (p.1.wf.vars "OPH_SESSION_CODE").map Var.svalue) =
        some (some "c0de") ∧
      ((startQueued oneTaskItem).map fun p => (p.1.wf.vars "OPH_SESSION_CODE").map Var.svalue) = some none := by
  have hi : ((startImmediate {} {} oneTaskItem).map fun p => (p.1.wf.vars "OPH_SESSION_CODE").map Var.svalue) =
      some (some "c0de") := by decide +kernel
  have hq : ((startQueued oneTaskItem).map fun p => (p.1.wf.vars "OPH_SESSION_CODE").map Var.svalue) = some none := by
    decide +kernel
  refine ⟨fun h => ?_, hi, hq⟩
  rw [h, hq] at hi
  cases hi

end OphidiaWorkflow
