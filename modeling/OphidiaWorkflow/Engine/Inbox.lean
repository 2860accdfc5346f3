import OphidiaWorkflow.Engine.Frames
import OphidiaWorkflow.Lib.Decimal
import OphidiaWorkflow.Text.Query

/-!
The notification string of `oph_workflow_notify`: how it is read, and where the indexes it carries are used.

The indexes come from outside. Every use of them is modelled as a read that fails outside the arrays.
-/
namespace OphidiaWorkflow

open Lib

/-- `*response` -/
inductive Response
  | ok | systemError | ioError | wrongParameter
  deriving DecidableEq, Repr

/-- `oph_is_known_operator`: flow control and management operators do not use resources. -/
def Operator.isKnown : Operator → Bool
  | other name => name.toLower ∈ ["oph_cancel", "oph_manage_session", "oph_log_info", "oph_cluster"]
  | _ => true

/-- The counters of the resources in use, and their limits (`0` for none). -/
structure Limits where
  taskLimit : UInt32 := 0
  taskRunning : UInt32 := 0
  coreLimit : UInt32 := 0
  coreRunning : UInt32 := 0
  deriving DecidableEq, Repr

/-- The resources of a task are released. -/
def Limits.release (l : Limits) (ncores : UInt32) : Limits :=
  { l with
    taskRunning := if l.taskLimit ≠ 0 ∧ 0 < l.taskRunning then l.taskRunning - 1 else l.taskRunning
    coreRunning := if l.coreLimit ≠ 0 ∧ ncores ≤ l.coreRunning then l.coreRunning - ncores else l.coreRunning }

/-- The job list and the counters; `ncores` gives the cores of the tasks of each workflow. -/
structure Server where
  jobs : List Workflow
  limits : Limits := {}
  ncores : Int → Nat → UInt32 := fun _ _ => 1

/-- The local variables that are filled from the notification string. -/
structure Message where
  jobid : Int := -1
  status : Int := -1
  parentid : Int := -1
  taskIndex : Int := -1
  lightTaskIndex : Int := -1
  markerid : Int := -1
  sessionid : Option (List Char) := none
  accessToken : Bool := false
  outputs : List (String × String) := []
  deriving DecidableEq, Repr

/-- One pair of the string; `none` for an information, which ends the function. -/
def Message.readPair (openid : Bool) (m : Message) (p : List Char × List Char) : Option Message :=
  if p.1 = "jobid".toList then some { m with jobid := readInt p.2 }
  else if p.1 = "status".toList then some { m with status := readInt p.2 }
  else if p.1 = "parentid".toList then some { m with parentid := readInt p.2 }
  else if p.1 = "taskindex".toList then some { m with taskIndex := readInt p.2 }
  else if p.1 = "lighttaskindex".toList then some { m with lightTaskIndex := readInt p.2 }
  else if p.1 = "sessionid".toList then some { m with sessionid := some p.2 }
  else if p.1 = "markerid".toList then some { m with markerid := readInt p.2 }
  else if p.1 = "info".toList then none
  else if p.1 = "query".toList then some m
  else if openid ∧ p.1 = "access_token".toList then some { m with accessToken := true }
  else if openid ∧ (p.1 = "refresh_token".toList ∨ p.1 = "userinfo".toList) then some m
  else some { m with outputs := m.outputs ++ [(String.ofList p.1, String.ofList p.2)] }

/-- A mandatory parameter is missing. -/
def Message.incomplete (m : Message) : Bool :=
  m.jobid < 0 || m.status < 0 || m.parentid < 0 || m.taskIndex < 0 || m.markerid < 0 || m.sessionid.isNone

/-- The string is parsed: the error is the response to a string that goes no further. -/
def readMessage (openid : Bool) (text : List Char) : Except Response Message :=
  match parseQuery text with
  | none => .error .systemError
  | some pairs =>
    match pairs.foldlM (Message.readPair openid) {} with
    | none => .error .ok
    | some m => if m.accessToken then .error .ok else if m.incomplete then .error .wrongParameter else .ok m

/-- The status of a code. -/
def JobStatus.ofCode (n : Int) : Option JobStatus :=
  [unknown, pending, wait, running, start, setEnv, init, distribute, execute, reduce, destroy, unsetEnv, completed, error,
    pendingError, runningError, startError, setEnvError, initError, distributeError, executeError, reduceError,
    destroyError, unsetEnvError, skipped, aborted, unselected, expired].find? fun s => (s.code : Int) = n

/-- The message as the engine takes it. -/
def Message.notification (m : Message) (status : JobStatus) (json : String) : Notification where
  jobid := m.jobid
  status := status
  taskIndex := m.taskIndex.toNat
  lightTaskIndex := if m.lightTaskIndex < 0 then none else some m.lightTaskIndex.toNat
  outputs := m.outputs
  outputJson := json

/-- `wf->tasks` has one slot more than there are tasks, for the final one. -/
def Message.TaskInRange (m : Message) (wf : Workflow) : Prop := m.taskIndex ≤ wf.tasksNum

def Message.LightInRange (m : Message) (wf : Workflow) : Prop :=
  m.lightTaskIndex < (wf.tasks m.taskIndex.toNat).lightTasksNum

instance (m : Message) (wf : Workflow) : Decidable (m.TaskInRange wf) := inferInstanceAs (Decidable (_ ≤ _))
instance (m : Message) (wf : Workflow) : Decidable (m.LightInRange wf) := inferInstanceAs (Decidable (_ < _))

/-- Both indexes of the message are within the arrays of the workflow. -/
def Message.InRange (m : Message) (wf : Workflow) : Prop := m.TaskInRange wf ∧ m.LightInRange wf

instance (m : Message) (wf : Workflow) : Decidable (m.InRange wf) := inferInstanceAs (Decidable (_ ∧ _))

/-- The message is for an internal operation that is waiting for a response. -/
def Message.Internal (m : Message) (wf : Workflow) : Prop :=
  m.jobid = 0 ∧ (wf.tasks m.taskIndex.toNat).idjob = 0 ∧ (wf.tasks m.taskIndex.toNat).status < .error

instance (m : Message) (wf : Workflow) : Decidable (m.Internal wf) := inferInstanceAs (Decidable (_ ∧ _))

section Delivery

variable (ophAutoRetry : Nat) (env : NotifyEnv) (json : String)

/-- The light task is over, or at least its status is written; the task is accounted for. -/
def process (m : Message) (code status : JobStatus) (wf : Workflow) : Option (Workflow × Response × List Todo) :=
  let n := m.notification code json
  let u := updateStatus ophAutoRetry env n wf status
  if u.stop then some (u.wf, .systemError, [])
  else if ¬ m.InRange u.wf then none
  else
    match u.isOver with
    | none => some (u.wf, if env.dbFails then .ioError else .ok, [])
    | some s =>
      let v := account ophAutoRetry env n u.outputs u.wf s
      if v.stop then some (v.wf, .systemError, [])
      -- the rows of the light task and of the task are written after the accounting
      else if ¬ m.InRange v.wf then none
      else some ((conclude env n.taskIndex v).1, if env.dbFails then .ioError else .ok, (conclude env n.taskIndex v).2)

/-- `oph_workflow_notify` from the update of the limits on; `none` if an index is used outside its array. -/
def deliver (m : Message) (code status : JobStatus) (wf : Workflow) : Option (Workflow × Response × List Todo) :=
  let n := m.notification code json
  if m.jobid = 0 ∧ ¬ m.TaskInRange wf then none
  else if m.Internal wf then some (internalResponse wf n status, .ok, [])
  else if wf.isClosed ∨ .aborted ≤ wf.status then
    if m.jobid ≠ wf.idjob then some (wf, .wrongParameter, [])
    else some ({ wf with dropped := true }, if env.dbFails then .ioError else .ok, [])
  else if ¬ m.InRange wf then none
  else if status = .error ∧ (targetStatus wf n = .unknown ∨ .completed ≤ targetStatus wf n) then some (wf, .ok, [])
  else process ophAutoRetry env json m code status wf

/-- The message, its status and the workflow it is for, if the string passes all the checks that the code makes. -/
def Server.addressee (sv : Server) (openid : Bool) (text : List Char) :
    Except Response (Message × JobStatus × JobStatus × Nat) :=
  match readMessage openid text with
  | .error r => .error r
  | .ok m =>
    match JobStatus.ofCode m.status with
    | none => .error .wrongParameter
    | some code =>
      match code.notified, sv.jobs.findIdx? fun wf => wf.idjob = m.parentid ∧ wf.dropped = false with
      | some status, some k => .ok (m, code, status, k)
      | _, _ => .error .wrongParameter

/-- The limits are updated as soon as a task is over; the operator and the cores of the task are read for it. -/
def Server.updateLimits (sv : Server) (m : Message) (status : JobStatus) (wf : Workflow) : Option Limits :=
  if status < .completed then some sv.limits
  else if ¬ m.TaskInRange wf then none
  else if (wf.tasks m.taskIndex.toNat).operator.isKnown then some sv.limits
  else some (sv.limits.release (sv.ncores wf.idjob m.taskIndex.toNat))

/-- `oph_workflow_notify` on a notification string; `none` if an index is used outside its array. -/
def Server.receive (sv : Server) (openid : Bool) (text : List Char) : Option (Server × Response × List Todo) :=
  match sv.addressee openid text with
  | .error r => some (sv, r, [])
  | .ok (m, code, status, k) =>
    match sv.jobs[k]? with
    | none => some (sv, .wrongParameter, [])
    | some wf =>
      match sv.updateLimits m status wf with
      | none => none
      | some limits =>
        (deliver ophAutoRetry env json m code status wf).map fun r =>
          ({ sv with jobs := sv.jobs.set k r.1, limits := limits }, r.2)

end Delivery

/-! ## Sizes of the arrays -/

/-- The arrays that the indexes of a message refer to keep their sizes. -/
structure SameSize (wf wf' : Workflow) : Prop where
  tasksNum : wf'.tasksNum = wf.tasksNum
  light : ∀ i, (wf'.tasks i).lightTasksNum = (wf.tasks i).lightTasksNum

namespace SameSize

variable {wf wf' wf'' : Workflow}

theorem refl (wf : Workflow) : SameSize wf wf := ⟨rfl, fun _ => rfl⟩

theorem trans (h : SameSize wf wf') (h' : SameSize wf' wf'') : SameSize wf wf'' :=
  ⟨h'.tasksNum.trans h.tasksNum, fun i => (h'.light i).trans (h.light i)⟩

theorem modify {i : Nat} {f : Task → Task} (hf : ∀ t, (f t).lightTasksNum = t.lightTasksNum) :
    SameSize wf (wf.modify i f) := by
  refine ⟨rfl, fun k => ?_⟩
  rw [Workflow.modify_tasks]
  split_ifs with hk
  · rw [hf, hk]
  · rfl

end SameSize

theorem Steady.sameSize {wf wf' : Workflow} (h : Steady wf wf') : SameSize wf wf' :=
  ⟨h.tasksNum, fun i => (Task.core_eq_iff.mp (h.task i)).2.2.2.2.2.2.1⟩

section Sizes

variable {ophAutoRetry : Nat} {env : NotifyEnv} {wf : Workflow}

theorem addArgument_lightTasksNum (key order object : String) (t : Task) :
    (t.addArgument key order object).lightTasksNum = t.lightTasksNum := by
  unfold Task.addArgument
  split <;> rfl

theorem feedArgument_sameSize (src dst : Nat) (d : Dep) (st : DepLoop) :
    SameSize st.wf (feedArgument src dst d st).wf := by
  have habort : Steady st.wf (abortDependents (st.wf.setTaskStatus dst .aborted) dst).1 :=
    (Steady.setTaskStatus dst .aborted).trans (abortDependents_steady _ dst)
  rcases feedArgument_wf src dst d st with h | h | h | ⟨object, h⟩
  · exact h ▸ .refl _
  · exact h ▸ habort.sameSize
  · exact h ▸ habort.sameSize.trans ⟨rfl, fun _ => rfl⟩
  · exact h ▸ .modify (addArgument_lightTasksNum _ _ _)

theorem satisfyDep_sameSize (src dst : Nat) (st : DepLoop) (j : Nat) :
    SameSize st.wf (satisfyDep src dst st j).1.wf := by
  have hfeed := feedArgument_sameSize src dst ((st.wf.tasks dst).deps.getD j default) st
  unfold satisfyDep
  simp only
  split_ifs
  · exact .refl _
  · exact hfeed
  · exact hfeed
  · exact hfeed.trans ⟨rfl, fun _ => rfl⟩
  · exact hfeed.trans (.modify fun _ => rfl)

theorem releaseDependents_sameSize (wf : Workflow) (src : Nat) : SameSize wf (releaseDependents wf src).wf := by
  unfold releaseDependents
  refine Lib.foldWhile_induct (fun st : DepLoop => SameSize wf st.wf) (.refl wf) fun dst _ st h => h.trans ?_
  unfold satisfyDeps
  split
  · exact Lib.foldWhile_induct (fun st' : DepLoop => SameSize st.wf st'.wf) (.refl _)
      fun j _ st' h' => h'.trans (satisfyDep_sameSize src dst st' j)
  · exact .refl _

theorem accountCompleted_sameSize (i : Nat) (outputs : List (String × String)) :
    SameSize wf (accountCompleted env wf i outputs).wf := by
  have hcount : Steady wf (((wf.modify i Task.unselect).countEnded i).record (.completed i)) :=
    Steady.trans (.modify (unselect_core _)) ((Steady.countEnded i).trans (.record (by simp)))
  have houtputs := hcount.trans (Steady.modify (i := i) (takeOutputs_core outputs _))
  have hexit (wf : Workflow) : SameSize wf (addExitObject env wf) := ⟨rfl, fun _ => rfl⟩
  have hrelease := houtputs.sameSize.trans (releaseDependents_sameSize _ i)
  unfold accountCompleted
  simp only
  split
  · exact hcount.sameSize
  · split
    · exact hrelease
    · exact hrelease.trans ((hexit _).trans (checkEnd_steady _).sameSize)

theorem account_sameSize (n : Notification) (outputs : List (String × String)) (status : JobStatus) :
    SameSize wf (account ophAutoRetry env n outputs wf status).wf := by
  have hskip := ((saveResponse_steady wf n.taskIndex n.outputJson).trans (.modify (i := n.taskIndex) (skip_core _))).sameSize
  unfold account
  simp only
  split_ifs
  · exact .refl _
  · exact .refl _
  · exact hskip.trans (accountCompleted_sameSize _ _)
  · exact hskip.trans (accountContinue_steady _ _).sameSize
  · exact hskip
  · exact hskip.trans (accountRetry_steady _ _ _).sameSize

end Sizes

/-! ## Uses of the indexes -/

/-- A closed workflow turns the message away before its indexes are used or anything has changed. -/
structure Server.TurnsAway (sv : Server) (m : Message) (status : JobStatus) (wf : Workflow) : Prop where
  closed : wf.isClosed = true ∨ .aborted ≤ wf.status
  jobid : m.jobid ≠ wf.idjob
  unread : m.TaskInRange wf ∨ (status < .completed ∧ m.jobid ≠ 0)
  external : ¬ m.Internal wf
  limits : status < .completed ∨ sv.updateLimits m status wf = some sv.limits

section Uses

variable {ophAutoRetry : Nat} {env : NotifyEnv} {json : String} {m : Message} {code status : JobStatus} {wf wf' : Workflow}
  {sv : Server} {openid : Bool} {text : List Char}

theorem Message.InRange.of_sameSize (h : m.InRange wf) (hs : SameSize wf wf') : m.InRange wf' := by
  obtain ⟨ht, hl⟩ := h
  refine ⟨?_, ?_⟩
  · show m.taskIndex ≤ wf'.tasksNum
    rw [hs.tasksNum]
    exact ht
  · show m.lightTaskIndex < (wf'.tasks m.taskIndex.toNat).lightTasksNum
    rw [hs.light]
    exact hl

/-- On a message in range every later use is in range too, and the whole does what the engine does. -/
theorem process_eq_settle (h : m.InRange wf) :
    ∃ r ≠ Response.wrongParameter, process ophAutoRetry env json m code status wf =
      some ((settle ophAutoRetry env (m.notification code json)
          (updateStatus ophAutoRetry env (m.notification code json) wf status)).1, r,
        (settle ophAutoRetry env (m.notification code json)
          (updateStatus ophAutoRetry env (m.notification code json) wf status)).2) := by
  have hu := h.of_sameSize (updateStatus_steady ophAutoRetry env wf (m.notification code json) status).sameSize
  unfold process settle
  generalize m.notification code json = n at hu ⊢
  simp only
  generalize updateStatus ophAutoRetry env n wf status = u at hu ⊢
  have hok : (if env.dbFails then Response.ioError else .ok) ≠ .wrongParameter := by
    split <;> decide
  by_cases hstop : u.stop = true
  · simp only [if_pos hstop]
    exact ⟨_, by decide, rfl⟩
  · simp only [if_neg hstop, if_neg (not_not_intro hu)]
    cases u.isOver with
    | none => exact ⟨_, hok, rfl⟩
    | some s =>
      have hv := hu.of_sameSize (@account_sameSize ophAutoRetry env u.wf n u.outputs s)
      dsimp only
      generalize account ophAutoRetry env n u.outputs u.wf s = v at hv ⊢
      by_cases hstop : v.stop = true
      · simp only [if_pos hstop, conclude]
        exact ⟨_, by decide, rfl⟩
      · simp only [if_neg hstop, if_neg (not_not_intro hv)]
        exact ⟨_, hok, rfl⟩

theorem deliver_eq_notify (h : m.InRange wf) (hn : code.notified = some status) (hd : wf.dropped = false) :
    ∃ r, deliver ophAutoRetry env json m code status wf =
      some ((notify ophAutoRetry env (m.notification code json) wf).1, r,
        (notify ophAutoRetry env (m.notification code json) wf).2) := by
  obtain ⟨r, -, hr⟩ := @process_eq_settle ophAutoRetry env json m code status wf h
  have hn' : (m.notification code json).status.notified = some status := hn
  have hread : ¬(m.jobid = 0 ∧ ¬ m.TaskInRange wf) := fun hm => hm.2 h.1
  unfold deliver notify
  simp only [hn', hd, Bool.false_eq_true, if_false, if_neg hread, if_neg (not_not_intro h), hr]
  by_cases hi : m.Internal wf
  · have hi' : (m.notification code json).jobid = 0 ∧ (wf.tasks (m.notification code json).taskIndex).idjob = 0 ∧
        (wf.tasks (m.notification code json).taskIndex).status < .error := hi
    simp only [if_pos hi, if_pos hi']
    exact ⟨_, rfl⟩
  · have hi' : ¬((m.notification code json).jobid = 0 ∧ (wf.tasks (m.notification code json).taskIndex).idjob = 0 ∧
        (wf.tasks (m.notification code json).taskIndex).status < .error) := hi
    have hj : (m.notification code json).jobid = m.jobid := rfl
    simp only [if_neg hi, if_neg hi']
    simp only [hj]
    split_ifs
    all_goals exact ⟨_, rfl⟩

/-- An index is used outside its array on these messages only. -/
theorem deliver_eq_none_iff :
    deliver ophAutoRetry env json m code status wf = none ↔
      (m.jobid = 0 ∧ ¬ m.TaskInRange wf) ∨
        (¬ m.Internal wf ∧ ¬(wf.isClosed = true ∨ .aborted ≤ wf.status) ∧ ¬ m.InRange wf) := by
  unfold deliver
  simp only
  by_cases hread : m.jobid = 0 ∧ ¬ m.TaskInRange wf
  · rw [if_pos hread]
    exact iff_of_true rfl (.inl hread)
  rw [if_neg hread]
  by_cases hi : m.Internal wf
  · rw [if_pos hi]
    exact iff_of_false (Option.some_ne_none _) (by tauto)
  rw [if_neg hi]
  by_cases hc : wf.isClosed = true ∨ .aborted ≤ wf.status
  · rw [if_pos hc]
    refine iff_of_false ?_ (by tauto)
    split <;> exact Option.some_ne_none _
  rw [if_neg hc]
  by_cases hr : m.InRange wf
  · obtain ⟨r, -, hp⟩ := @process_eq_settle ophAutoRetry env json m code status wf hr
    rw [if_neg (not_not_intro hr), hp]
    refine iff_of_false ?_ (by tauto)
    split <;> exact Option.some_ne_none _
  · rw [if_pos hr]
    exact iff_of_true rfl (.inr ⟨hi, hc, hr⟩)

theorem eq_of_deliver_wrongParameter {todo : List Todo}
    (h : deliver ophAutoRetry env json m code status wf = some (wf', .wrongParameter, todo)) (hr : ¬ m.InRange wf) :
    ¬ m.Internal wf ∧ (wf.isClosed = true ∨ .aborted ≤ wf.status) ∧ m.jobid ≠ wf.idjob ∧ wf' = wf ∧ todo = [] := by
  unfold deliver at h
  simp only at h
  split at h
  · cases h
  split at h
  · cases h
  next hi =>
  split at h
  · next hc =>
    split at h
    · next hj =>
      cases h
      exact ⟨hi, hc, hj, rfl, rfl⟩
    · split at h <;> cases h
  · cases h

/-- The string is answered as it should: no index is used outside its array, and a message out of range is refused. -/
def Server.Guarded (sv : Server) (ophAutoRetry : Nat) (env : NotifyEnv) (json : String) (openid : Bool)
    (text : List Char) : Prop :=
  sv.receive ophAutoRetry env json openid text ≠ none ∧
    ∀ m code status k wf, sv.addressee openid text = .ok (m, code, status, k) → sv.jobs[k]? = some wf →
      ¬ m.InRange wf → sv.receive ophAutoRetry env json openid text = some (sv, .wrongParameter, [])

theorem updateLimits_eq_none_iff :
    sv.updateLimits m status wf = none ↔ ¬ status < .completed ∧ ¬ m.TaskInRange wf := by
  unfold Server.updateLimits
  by_cases hs : status < .completed
  · rw [if_pos hs]
    exact iff_of_false (Option.some_ne_none _) fun h => h.1 hs
  rw [if_neg hs]
  by_cases ht : m.TaskInRange wf
  · rw [if_neg (not_not_intro ht)]
    refine iff_of_false ?_ fun h => h.2 ht
    split <;> exact Option.some_ne_none _
  · rw [if_pos ht]
    exact iff_of_true rfl ⟨hs, ht⟩

theorem receive_of_error {r : Response} (h : sv.addressee openid text = .error r) :
    sv.receive ophAutoRetry env json openid text = some (sv, r, []) := by
  simp only [Server.receive, h]

theorem receive_of_ok {k : Nat} (h : sv.addressee openid text = .ok (m, code, status, k))
    (hk : sv.jobs[k]? = some wf) :
    sv.receive ophAutoRetry env json openid text =
      (sv.updateLimits m status wf).bind fun limits => (deliver ophAutoRetry env json m code status wf).map fun r =>
        ({ sv with jobs := sv.jobs.set k r.1, limits := limits }, r.2) := by
  simp only [Server.receive, h, hk]
  cases sv.updateLimits m status wf <;> rfl

/-- What the checks of the code promise of a message: a status that is known, and a workflow of the job list. -/
theorem addressee_eq_ok {k : Nat} (h : sv.addressee openid text = .ok (m, code, status, k)) :
    code.notified = some status ∧ ∃ wf, sv.jobs[k]? = some wf ∧ wf.idjob = m.parentid ∧ wf.dropped = false := by
  unfold Server.addressee at h
  split at h
  · cases h
  split at h
  · cases h
  split at h
  · next hn hk =>
    cases h
    obtain ⟨hlt, hwf, -⟩ := List.findIdx?_eq_some_iff_getElem.mp hk
    exact ⟨hn, _, List.getElem?_eq_getElem hlt, of_decide_eq_true hwf⟩
  · cases h

/-- A message in range does to its workflow what the engine does. -/
theorem receive_eq_notify {k : Nat} (h : sv.addressee openid text = .ok (m, code, status, k))
    (hk : sv.jobs[k]? = some wf) (hr : m.InRange wf) :
    ∃ limits r, sv.receive ophAutoRetry env json openid text =
      some ({ sv with jobs := sv.jobs.set k (notify ophAutoRetry env (m.notification code json) wf).1, limits := limits },
        r, (notify ophAutoRetry env (m.notification code json) wf).2) := by
  obtain ⟨hn, wf', hk', -, hd⟩ := addressee_eq_ok h
  obtain rfl : wf' = wf := Option.some.inj (hk'.symm.trans hk)
  obtain ⟨r, hr'⟩ := @deliver_eq_notify ophAutoRetry env json m code status wf' hr hn hd
  rw [receive_of_ok h hk, hr']
  cases hl : sv.updateLimits m status wf' with
  | none => exact absurd hr.1 (updateLimits_eq_none_iff.mp hl).2
  | some limits => exact ⟨limits, r, rfl⟩

theorem turnsAway_of_receive {k : Nat} (h : sv.addressee openid text = .ok (m, code, status, k))
    (hk : sv.jobs[k]? = some wf) (hr : ¬ m.InRange wf)
    (hw : sv.receive ophAutoRetry env json openid text = some (sv, .wrongParameter, [])) :
    sv.TurnsAway m status wf := by
  rw [receive_of_ok h hk] at hw
  obtain ⟨limits, hl, hw⟩ := Option.bind_eq_some_iff.mp hw
  obtain ⟨⟨wf', r⟩, hd, hw⟩ := Option.map_eq_some_iff.mp hw
  obtain ⟨hsv, rfl⟩ := Prod.mk.inj hw
  obtain ⟨hi, hc, hj, -, -⟩ := eq_of_deliver_wrongParameter hd hr
  have hlimits : limits = sv.limits := congrArg Server.limits hsv
  refine ⟨hc, hj, ?_, hi, .inr (hlimits ▸ hl)⟩
  by_cases ht : m.TaskInRange wf
  · exact .inl ht
  · -- the index has not been read: neither for the limits nor for an internal operation
    have hs : ¬(¬ status < .completed ∧ ¬ m.TaskInRange wf) :=
      fun hn => by rw [updateLimits_eq_none_iff.mpr hn] at hl; cases hl
    have hz : ¬(m.jobid = 0 ∧ ¬ m.TaskInRange wf) :=
      fun hn => by rw [deliver_eq_none_iff.mpr (.inl hn)] at hd; cases hd
    exact .inr ⟨not_not.mp fun hn => hs ⟨hn, ht⟩, fun hn => hz ⟨hn, ht⟩⟩

theorem receive_of_turnsAway {k : Nat} (h : sv.addressee openid text = .ok (m, code, status, k))
    (hk : sv.jobs[k]? = some wf) (ht : sv.TurnsAway m status wf) :
    sv.receive ophAutoRetry env json openid text = some (sv, .wrongParameter, []) := by
  have hl : sv.updateLimits m status wf = some sv.limits := by
    rcases ht.limits with hs | hl
    · rw [Server.updateLimits, if_pos hs]
    · exact hl
  have hread : ¬(m.jobid = 0 ∧ ¬ m.TaskInRange wf) := by
    rcases ht.unread with hm | hm
    · exact fun hn => hn.2 hm
    · exact fun hn => hm.2 hn.1
  have hd : deliver ophAutoRetry env json m code status wf = some (wf, .wrongParameter, []) := by
    simp only [deliver, if_neg hread, if_neg ht.external, if_pos ht.closed, if_pos ht.jobid]
  rw [receive_of_ok h hk, hl, hd]
  simp only [Option.bind_some, Option.map_some]
  obtain ⟨hlt, rfl⟩ := List.getElem?_eq_some_iff.mp hk
  rw [List.set_getElem_self]

/-- A string is answered as it should exactly when its indexes are in range or a closed workflow turns it away. -/
theorem guarded_iff (sv : Server) (ophAutoRetry : Nat) (env : NotifyEnv) (json : String) (openid : Bool)
    (text : List Char) :
    sv.Guarded ophAutoRetry env json openid text ↔
      ∀ m code status k wf, sv.addressee openid text = .ok (m, code, status, k) → sv.jobs[k]? = some wf →
        m.InRange wf ∨ sv.TurnsAway m status wf := by
  constructor
  · intro h m code status k wf ha hk
    by_cases hr : m.InRange wf
    · exact .inl hr
    · exact .inr (turnsAway_of_receive ha hk hr (h.2 m code status k wf ha hk hr))
  · intro h
    refine ⟨?_, fun m code status k wf ha hk hr => ?_⟩
    · cases ha : sv.addressee openid text with
      | error r =>
        rw [receive_of_error ha]
        exact Option.some_ne_none _
      | ok x =>
        obtain ⟨m, code, status, k⟩ := x
        obtain ⟨-, wf, hk, -⟩ := addressee_eq_ok ha
        rcases h m code status k wf ha hk with hr | ht
        · obtain ⟨limits, r, hreceive⟩ := @receive_eq_notify ophAutoRetry env json m code status wf sv openid text k ha hk hr
          rw [hreceive]
          exact Option.some_ne_none _
        · rw [receive_of_turnsAway ha hk ht]
          exact Option.some_ne_none _
    · exact receive_of_turnsAway ha hk ((h m code status k wf ha hk).resolve_left hr)

end Uses

/-- A server with one workflow of one task. -/
def oneTaskServer : Server where
  jobs := [{ tasks := taskArray [{ name := "A", status := .running, idjob := 2 }], tasksNum := 1, residualTasksNum := 1 }]

/-- A complete notification for task 7 of a workflow of one task: the index is used although there is no such task. -/
theorem not_guarded_taskIndex :
    ¬ oneTaskServer.Guarded 0 {} "" false
      "parentid=1;taskindex=7;lighttaskindex=-1;jobid=2;status=12;sessionid=s;markerid=3;".toList := by
  intro h
  apply h.1
  apply Option.isNone_iff_eq_none.mp
  decide +kernel

end OphidiaWorkflow
