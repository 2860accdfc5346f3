import Mathlib.Algebra.BigOperators.Group.List.Basic
import Mathlib.Algebra.Ring.Nat
import OphidiaWorkflow.Engine.Inbox
import OphidiaWorkflow.Lib.Runs

/-! The limits on running tasks and cores: what the submissions count and what the notifications take back. -/
namespace OphidiaWorkflow.Server

open Lib

/-- Both limits are enabled. -/
structure Limited (l : Limits) : Prop where
  task : l.taskLimit ≠ 0
  core : l.coreLimit ≠ 0

/-- Whether `oph_serve_known_operator` runs the operator itself. It knows two operators more than
`oph_is_known_operator`, one of them only in a build without the database. -/
def servesKnownOperator (dbSupport : Bool) : Operator → Bool
  | .other name => (Operator.other name).isKnown || (name.toLower = "oph_loggingbk" && !dbSupport) ||
      name.toLower = "oph_pav_worker"
  | _ => true

/-- The condition of the loop that waits for `limit_flag`. -/
def Reached (l : Limits) (cores : UInt32) : Prop :=
  (l.taskLimit ≠ 0 ∧ l.taskLimit ≤ l.taskRunning) ∨ (l.coreLimit ≠ 0 ∧ l.coreLimit < l.coreRunning + cores)

instance (l : Limits) (cores : UInt32) : Decidable (Reached l cores) := inferInstanceAs (Decidable (_ ∨ _))

/-- A job is counted. -/
def acquire (l : Limits) (cores : UInt32) : Limits :=
  { l with
    taskRunning := if l.taskLimit ≠ 0 then l.taskRunning + 1 else l.taskRunning
    coreRunning := if l.coreLimit ≠ 0 then l.coreRunning + cores else l.coreRunning }

/-- What a job is known by in a submission and in the notifications about it. The scans of the file system that a task
needs for itself have no job id. -/
structure JobKey where
  parentid : Int
  taskIndex : Int
  lightTaskIndex : Int := -1
  jobid : Int
  deriving DecidableEq, Repr

/-- A call of `oph_serve_request`. `fails` tells that the string for the resource manager cannot be made or handed
over. -/
structure Submission where
  key : JobKey
  operator : Operator
  ncores : Int32
  fails : Bool := false

/-- `_ncores`, as it is added to the counter. -/
def Submission.cores (r : Submission) : UInt32 := if r.ncores < 1 then 1 else r.ncores.toUInt32

inductive LimitEvent
  | serve (r : Submission)
  | notify (m : Message)
  | change (jobs : List Workflow) (ncores : Int → Nat → UInt32)

/-- The key of the job that a message is about. -/
def key (m : Message) : JobKey := ⟨m.parentid, m.taskIndex, m.lightTaskIndex, m.jobid⟩

/-- The status that a message brings, unless its code is wrong. -/
def messageStatus (m : Message) : Option JobStatus := (JobStatus.ofCode m.status).bind JobStatus.notified

def message (k : JobKey) (status : JobStatus) : Message where
  jobid := k.jobid
  status := status.code
  parentid := k.parentid
  taskIndex := k.taskIndex
  lightTaskIndex := k.lightTaskIndex

/-- A turn of the loop of the engine that submits the prepared requests: a task with `run=no` is only notified as
completed, and a submission that fails is followed by its error notification if the job has an id. -/
def Submission.turn (run : Bool) (r : Submission) : List LimitEvent :=
  if run = false then [.notify (message r.key .completed)]
  else if r.fails = true ∧ r.key.jobid ≠ 0 then [.serve r, .notify (message r.key .startError)]
  else [.serve r]

/-- The server and the jobs given to the resource manager and not yet notified as terminated, with the cores they were
submitted with. The code does not keep these: its counters should tell their number and their cores. -/
structure Usage where
  sv : Server
  jobs : List (JobKey × UInt32) := []

namespace Usage

variable (dbSupport : Bool) (u : Usage)

/-- `oph_serve_request`. A submission that has to wait changes nothing; it comes again when it is woken up. A failed one
stays a job until the error notification that the engine sends for it. -/
def serve (r : Submission) : Usage :=
  if servesKnownOperator dbSupport r.operator = true ∨ Reached u.sv.limits r.cores then u
  else
    { sv := { u.sv with limits := acquire u.sv.limits r.cores }
      jobs := if r.fails = true ∧ r.key.jobid = 0 then u.jobs else (r.key, r.cores) :: u.jobs }

/-- The workflow that a message is for. -/
def addressee (m : Message) : Option Workflow :=
  u.sv.jobs.find? fun wf => wf.idjob = m.parentid ∧ wf.dropped = false

/-- `oph_workflow_notify` as far as the limits. The message for a workflow that is not in the list is skipped. -/
def notify (m : Message) (status : JobStatus) : Option Usage :=
  let jobs := if status < .completed then u.jobs else u.jobs.eraseP fun j => j.1 = key m
  match u.addressee m with
  | none => some { u with jobs }
  | some wf => (u.sv.updateLimits m status wf).map fun limits => { sv := { u.sv with limits }, jobs }

/-- What an event makes of the server; `none` if an index is used outside its array. -/
def next : LimitEvent → Option Usage
  | .serve r => some (u.serve dbSupport r)
  | .notify m => (messageStatus m).elim (some u) (u.notify m)
  | .change jobs ncores => some { u with sv := { u.sv with jobs, ncores } }

def step (e : LimitEvent) : Usage := (u.next dbSupport e).getD u

def cores : Nat := (u.jobs.map fun j => j.2.toNat).sum

/-- The counters tell what runs, and it is within the limits. -/
structure Exact : Prop where
  task : u.sv.limits.taskRunning.toNat = u.jobs.length
  core : u.sv.limits.coreRunning.toNat = u.cores
  task_le : u.jobs.length ≤ u.sv.limits.taskLimit.toNat
  core_le : u.cores ≤ u.sv.limits.coreLimit.toNat
  idle : u.jobs = [] → u.sv.limits.taskRunning = 0 ∧ u.sv.limits.coreRunning = 0

/-- After the event the counters are exact. -/
def Exactly (e : LimitEvent) : Prop := ∃ v, u.next dbSupport e = some v ∧ v.Exact

/-- What a terminal message takes back is what its job has counted: it is about a job that runs, of a task with the
cores of the job, or else about a known operator, about no workflow in the list, or comes when nothing runs. -/
def TakesBack (m : Message) : Option (JobKey × UInt32) → Prop
  | some j => ∃ wf ∈ u.addressee m, m.TaskInRange wf ∧ (wf.tasks m.taskIndex.toNat).operator.isKnown = false ∧
      u.sv.ncores wf.idjob m.taskIndex.toNat = j.2
  | none => ∀ wf ∈ u.addressee m, m.TaskInRange wf ∧
      ((wf.tasks m.taskIndex.toNat).operator.isKnown = true ∨ u.jobs = [])

instance (m : Message) : ∀ j, Decidable (u.TakesBack m j)
  | some _ => inferInstanceAs (Decidable (∃ _, _))
  | none => inferInstanceAs (Decidable (∀ _, _))

/-- A submission that is counted does not make the cores overflow, nor does it fail without a notification; a terminal
message takes back what its job has counted. -/
def Counts : LimitEvent → Prop
  | .serve r => (servesKnownOperator dbSupport r.operator = true ∨ Reached u.sv.limits r.cores) ∨
      (u.sv.limits.coreRunning.toNat + r.cores.toNat < 2 ^ 32 ∧ ¬ (r.fails = true ∧ r.key.jobid = 0))
  | .notify m => ∀ status ∈ messageStatus m, .completed ≤ status →
      u.TakesBack m (u.jobs.find? fun j => j.1 = key m)
  | .change _ _ => True

instance (e : LimitEvent) : Decidable (u.Counts dbSupport e) :=
  match e with
  | .serve _ => inferInstanceAs (Decidable (_ ∨ _))
  | .notify _ => inferInstanceAs (Decidable (∀ _, _))
  | .change _ _ => .isTrue trivial

variable {dbSupport u}

theorem limits_receive {openid : Bool} {text : List Char} {m : Message} {status : JobStatus} {ophAutoRetry : Nat}
    {env : NotifyEnv} {json : String} {sv' : Server} {r : Response × List Todo} (hm : readMessage openid text = .ok m)
    (hs : messageStatus m = some status) (h : u.sv.receive ophAutoRetry env json openid text = some (sv', r)) :
    ∃ v, u.notify m status = some v ∧ v.sv.limits = sv'.limits := by
  obtain ⟨code, hcode, hstatus⟩ := Option.bind_eq_some_iff.mp hs
  have haddr : u.addressee m =
      (u.sv.jobs.findIdx? fun wf => wf.idjob = m.parentid ∧ wf.dropped = false).bind fun k => u.sv.jobs[k]? :=
    (List.find?_eq_bind_findIdx?_getElem? ..)
  unfold receive Server.addressee at h
  rw [hm] at h
  dsimp only at h
  rw [hcode] at h
  dsimp only at h
  rw [hstatus] at h
  unfold notify
  cases hk : u.sv.jobs.findIdx? fun wf => wf.idjob = m.parentid ∧ wf.dropped = false with
  | none =>
    rw [hk] at h haddr
    rw [haddr]
    cases h
    exact ⟨_, rfl, rfl⟩
  | some k =>
    rw [hk] at h haddr
    have hlt := (List.findIdx?_eq_some_iff_getElem.mp hk).1
    dsimp only at h
    rw [List.getElem?_eq_getElem hlt] at h
    rw [haddr, Option.bind_some, List.getElem?_eq_getElem hlt]
    dsimp only at h ⊢
    cases hl : u.sv.updateLimits m status u.sv.jobs[k] with
    | none =>
      rw [hl] at h
      cases h
    | some limits =>
      rw [hl] at h
      obtain ⟨d, -, hd⟩ := Option.map_eq_some_iff.mp h
      cases hd
      exact ⟨_, rfl, rfl⟩

theorem cores_pos (r : Submission) : 0 < r.cores.toNat := by
  unfold Submission.cores
  split
  · decide
  · next h =>
    by_contra hz
    have hzero : r.ncores.toUInt32 = 0 := by
      apply UInt32.toNat_inj.mp
      simpa using hz
    have : r.ncores = 0 := by
      cases hr : r.ncores with
      | ofUInt32 n =>
        rw [hr] at hzero
        exact congrArg Int32.ofUInt32 hzero
    rw [this] at h
    exact h (by decide)

theorem length_eraseP_of_find {p : JobKey × UInt32 → Bool} {js : List (JobKey × UInt32)} {j : JobKey × UInt32}
    (h : js.find? p = some j) :
    js.length = (js.eraseP p).length + 1 ∧
      (js.map fun j => j.2.toNat).sum = ((js.eraseP p).map fun j => j.2.toNat).sum + j.2.toNat := by
  induction js with
  | nil => cases h
  | cons i js ih =>
    by_cases hi : p i = true
    · rw [List.find?_cons_of_pos hi] at h
      cases h
      rw [List.eraseP_cons_of_pos hi, List.map_cons, List.sum_cons]
      exact ⟨rfl, Nat.add_comm _ _⟩
    · rw [List.find?_cons_of_neg hi] at h
      obtain ⟨hlen, hsum⟩ := ih h
      rw [List.eraseP_cons_of_neg hi, List.map_cons, List.sum_cons, List.map_cons, List.sum_cons, List.length_cons,
        List.length_cons, hlen, hsum]
      exact ⟨rfl, (Nat.add_assoc _ _ _).symm⟩

/-- The counters are exact, and each job has a core. -/
structure Kept (u : Usage) : Prop where
  limited : Limited u.sv.limits
  exact : u.Exact
  pos : ∀ j ∈ u.jobs, 0 < j.2.toNat

theorem exact_mk (ht : u.sv.limits.taskRunning.toNat = u.jobs.length) (hc : u.sv.limits.coreRunning.toNat = u.cores)
    (hlt : u.jobs.length ≤ u.sv.limits.taskLimit.toNat) (hlc : u.cores ≤ u.sv.limits.coreLimit.toNat) : u.Exact := by
  refine ⟨ht, hc, hlt, hlc, fun hnil => ?_⟩
  rw [hnil] at ht
  rw [cores, hnil] at hc
  exact ⟨UInt32.toNat_inj.mp ht, UInt32.toNat_inj.mp hc⟩

theorem Exact.same {v : Usage} (h : u.Exact) (hl : v.sv.limits = u.sv.limits) (hj : v.jobs = u.jobs) : v.Exact := by
  have hcores : v.cores = u.cores := by rw [cores, cores, hj]
  apply exact_mk
  · rw [hl, hj]
    exact h.task
  · rw [hl, hcores]
    exact h.core
  · rw [hl, hj]
    exact h.task_le
  · rw [hl, hcores]
    exact h.core_le

theorem exact_serve_iff (h : u.Kept) (r : Submission) :
    (u.serve dbSupport r).Exact ↔ u.Counts dbSupport (.serve r) := by
  have htask := h.exact.task
  have hcore := h.exact.core
  unfold serve
  rw [Counts]
  split
  · next hwait => exact iff_of_true h.exact (.inl hwait)
  · next hwait =>
    rw [or_iff_right hwait]
    have hpos := cores_pos r
    have htl := u.sv.limits.taskLimit.toNat_lt
    have hfree : u.sv.limits.taskRunning.toNat < u.sv.limits.taskLimit.toNat ∧
        (u.sv.limits.coreRunning.toNat + r.cores.toNat) % 2 ^ 32 ≤ u.sv.limits.coreLimit.toNat := by
      have hnot : ¬ Reached u.sv.limits r.cores := fun hr => hwait (.inr hr)
      simp only [Reached, h.limited.task, h.limited.core, ne_eq, not_false_eq_true, true_and, UInt32.lt_iff_toNat_lt,
        UInt32.le_iff_toNat_le, UInt32.toNat_add] at hnot
      omega
    by_cases hf : r.fails = true ∧ r.key.jobid = 0
    · refine iff_of_false (fun hexact => ?_) fun hcount => hcount.2 hf
      have hcount := hexact.task
      simp only [acquire, if_pos h.limited.task, if_pos hf, UInt32.toNat_add] at hcount
      have hone : (1 : UInt32).toNat = 1 := rfl
      omega
    · have hsum : (((r.key, r.cores) :: u.jobs).map fun j => j.2.toNat).sum = u.cores + r.cores.toNat := by
        rw [List.map_cons, List.sum_cons, Nat.add_comm]
        rfl
      constructor
      · intro hexact
        refine ⟨?_, hf⟩
        have hcount := hexact.core
        simp only [cores, acquire, if_pos h.limited.core, if_neg hf, UInt32.toNat_add] at hcount
        rw [hsum] at hcount
        omega
      · rintro ⟨hover, -⟩
        have hone : (1 : UInt32).toNat = 1 := rfl
        apply exact_mk
        · simp only [acquire, if_pos h.limited.task, if_neg hf, List.length_cons, UInt32.toNat_add]
          omega
        · simp only [cores, acquire, if_pos h.limited.core, if_neg hf, UInt32.toNat_add]
          rw [hsum]
          omega
        · simp only [acquire, if_neg hf, List.length_cons]
          omega
        · simp only [cores, acquire, if_neg hf]
          rw [hsum]
          omega

theorem taskRunning_release {l : Limits} (hl : Limited l) (n : UInt32) :
    (l.release n).taskRunning.toNat = l.taskRunning.toNat - 1 := by
  simp only [Limits.release, hl.task, ne_eq, not_false_eq_true, true_and]
  split
  · next hpos =>
    have hone : (1 : UInt32) ≤ l.taskRunning := by
      rw [UInt32.lt_iff_toNat_lt] at hpos
      rw [UInt32.le_iff_toNat_le]
      exact hpos
    exact UInt32.toNat_sub_of_le _ _ hone
  · next hpos =>
    have hzero : l.taskRunning.toNat = 0 := by
      rw [UInt32.lt_iff_toNat_lt] at hpos
      exact Nat.eq_zero_of_not_pos hpos
    rw [hzero]

theorem coreRunning_release {l : Limits} (hl : Limited l) (n : UInt32) :
    (l.release n).coreRunning.toNat =
      if n.toNat ≤ l.coreRunning.toNat then l.coreRunning.toNat - n.toNat else l.coreRunning.toNat := by
  simp only [Limits.release, hl.core, ne_eq, not_false_eq_true, true_and, UInt32.le_iff_toNat_le]
  split
  · next hle => exact UInt32.toNat_sub_of_le _ _ (UInt32.le_iff_toNat_le.mpr hle)
  · rfl

/-- A terminal message about a job that runs. -/
theorem exactly_notify_job_iff (h : u.Kept) {m : Message} {status : JobStatus} (hs : .completed ≤ status)
    {j : JobKey × UInt32} (hj : u.jobs.find? (fun j => j.1 = key m) = some j) :
    (∃ v, u.notify m status = some v ∧ v.Exact) ↔ u.TakesBack m (some j) := by
  have htask := h.exact.task
  have hcore := h.exact.core
  have hle := h.exact.task_le
  have hle' := h.exact.core_le
  have hpos := h.pos j (List.mem_of_find?_eq_some hj)
  obtain ⟨hlen, hsum⟩ := length_eraseP_of_find hj
  rw [TakesBack]
  unfold notify
  dsimp only
  rw [if_neg (JobStatus.terminal_iff_not_lt.mp hs)]
  cases hw : u.addressee m with
  | none =>
    refine iff_of_false ?_ (by rintro ⟨wf, ⟨⟩, -⟩)
    rintro ⟨v, hv, hexact⟩
    cases hv
    have := hexact.task
    dsimp only at this
    omega
  | some wf =>
    dsimp only
    unfold updateLimits
    rw [if_neg (JobStatus.terminal_iff_not_lt.mp hs)]
    by_cases hr : m.TaskInRange wf
    · rw [if_neg (not_not.mpr hr)]
      cases hk : (wf.tasks m.taskIndex.toNat).operator.isKnown with
      | true =>
        refine iff_of_false ?_ ?_
        · rintro ⟨v, hv, hexact⟩
          cases hv
          have := hexact.task
          dsimp only at this
          omega
        · rintro ⟨wf', hwf', -, hknown, -⟩
          cases hwf'
          rw [hk] at hknown
          cases hknown
      | false =>
        constructor
        · rintro ⟨v, hv, hexact⟩
          cases hv
          refine ⟨wf, rfl, hr, hk, ?_⟩
          have hcount := hexact.core
          dsimp only [cores] at hcount hcore
          rw [coreRunning_release h.limited] at hcount
          apply UInt32.toNat_inj.mp
          split at hcount <;> omega
        · rintro ⟨wf', hwf', -, -, hcount⟩
          cases hwf'
          refine ⟨_, rfl, ?_⟩
          dsimp only [cores] at hcore hle'
          apply exact_mk
          · dsimp only
            rw [taskRunning_release h.limited]
            omega
          · dsimp only [cores]
            rw [coreRunning_release h.limited, hcount, if_pos (by omega)]
            omega
          · show _ ≤ u.sv.limits.taskLimit.toNat
            dsimp only
            omega
          · show _ ≤ u.sv.limits.coreLimit.toNat
            dsimp only [cores]
            omega
    · rw [if_pos hr]
      refine iff_of_false (by rintro ⟨v, ⟨⟩, -⟩) ?_
      rintro ⟨wf', hwf', hr', -⟩
      cases hwf'
      exact hr hr'

theorem exactly_notify_none_iff (h : u.Kept) {m : Message} {status : JobStatus} (hs : .completed ≤ status)
    (hj : u.jobs.find? (fun j => j.1 = key m) = none) :
    (∃ v, u.notify m status = some v ∧ v.Exact) ↔ u.TakesBack m none := by
  have herase : (u.jobs.eraseP fun j => j.1 = key m) = u.jobs := by
    apply List.eraseP_of_forall_not
    simpa using hj
  rw [TakesBack]
  unfold notify
  dsimp only
  rw [if_neg (JobStatus.terminal_iff_not_lt.mp hs), herase]
  cases hw : u.addressee m with
  | none =>
    refine iff_of_true ⟨_, rfl, h.exact⟩ ?_
    intro wf hwf
    cases hwf
  | some wf =>
    dsimp only
    unfold updateLimits
    rw [if_neg (JobStatus.terminal_iff_not_lt.mp hs)]
    by_cases hr : m.TaskInRange wf
    · rw [if_neg (not_not.mpr hr)]
      cases hk : (wf.tasks m.taskIndex.toNat).operator.isKnown with
      | true =>
        refine iff_of_true ⟨_, rfl, h.exact⟩ ?_
        rintro wf' ⟨⟩
        exact ⟨hr, .inl hk⟩
      | false =>
        constructor
        · rintro ⟨v, hv, hexact⟩ wf' ⟨⟩
          cases hv
          have htask := h.exact.task
          have hcount := hexact.task
          dsimp only at hcount
          rw [taskRunning_release h.limited] at hcount
          refine ⟨hr, .inr (List.length_eq_zero_iff.mp ?_)⟩
          omega
        · intro hback
          have hnil := (hback wf rfl).2.resolve_left (by rw [hk]; nofun)
          obtain ⟨htask, hcore⟩ := h.exact.idle hnil
          refine ⟨_, rfl, ?_⟩
          -- both counters are at 0 and stay there
          apply exact_mk
          · dsimp only
            rw [taskRunning_release h.limited, htask, hnil]
            rfl
          · dsimp only [cores]
            rw [coreRunning_release h.limited, hcore, hnil]
            split
            · exact Nat.zero_sub _
            · rfl
          · exact h.exact.task_le
          · exact h.exact.core_le
    · rw [if_pos hr]
      refine iff_of_false (by rintro ⟨v, ⟨⟩, -⟩) ?_
      intro hback
      exact hr (hback wf rfl).1

theorem exactly_iff (h : u.Kept) (e : LimitEvent) : u.Exactly dbSupport e ↔ u.Counts dbSupport e := by
  cases e with
  | serve r =>
    rw [← exact_serve_iff h r]
    constructor
    · rintro ⟨v, hv, hexact⟩
      cases hv
      exact hexact
    · exact fun hexact => ⟨_, rfl, hexact⟩
  | notify m =>
    rw [Exactly, Counts, next]
    cases hs : messageStatus m with
    | none => exact iff_of_true ⟨u, rfl, h.exact⟩ (by nofun)
    | some status =>
      by_cases hc : .completed ≤ status
      · have hback : (∃ v, u.notify m status = some v ∧ v.Exact) ↔
            u.TakesBack m (u.jobs.find? fun j => j.1 = key m) := by
          cases hj : u.jobs.find? fun j => j.1 = key m with
          | none => exact exactly_notify_none_iff h hc hj
          | some j => exact exactly_notify_job_iff h hc hj
        refine hback.trans ⟨?_, fun hcount => hcount status rfl hc⟩
        rintro hcount s ⟨⟩ -
        exact hcount
      · have hlt := JobStatus.not_terminal_iff.mp hc
        refine iff_of_true ?_ ?_
        · have hlimits (wf : Workflow) : u.sv.updateLimits m status wf = some u.sv.limits := if_pos hlt
          have hsame : u.notify m status = some u := by
            unfold notify
            dsimp only
            rw [if_pos hlt]
            cases u.addressee m with
            | none => rfl
            | some wf =>
              dsimp only
              rw [hlimits]
              rfl
          exact ⟨u, hsame, h.exact⟩
        · rintro s ⟨⟩ hle
          exact absurd hle hc
  | change jobs ncores => exact iff_of_true ⟨_, rfl, h.exact.same rfl rfl⟩ trivial

theorem limited_notify {m : Message} {status : JobStatus} {v : Usage} (h : Limited u.sv.limits)
    (hv : u.notify m status = some v) : Limited v.sv.limits := by
  unfold notify at hv
  dsimp only at hv
  split at hv
  · cases hv
    exact h
  · next wf _ =>
    obtain ⟨limits, hlimits, rfl⟩ := Option.map_eq_some_iff.mp hv
    unfold updateLimits at hlimits
    split at hlimits
    · cases hlimits
      exact h
    · split at hlimits
      · cases hlimits
      · split at hlimits
        · cases hlimits
          exact h
        · cases hlimits
          exact ⟨h.task, h.core⟩

theorem pos_notify {m : Message} {status : JobStatus} {v : Usage} (h : ∀ j ∈ u.jobs, 0 < j.2.toNat)
    (hv : u.notify m status = some v) : ∀ j ∈ v.jobs, 0 < j.2.toNat := by
  have hjobs : v.jobs = if status < .completed then u.jobs else u.jobs.eraseP fun j => j.1 = key m := by
    unfold notify at hv
    dsimp only at hv
    split at hv
    · cases hv
      rfl
    · obtain ⟨limits, -, rfl⟩ := Option.map_eq_some_iff.mp hv
      rfl
  intro j hj
  rw [hjobs] at hj
  split at hj
  · exact h j hj
  · exact h j (List.mem_of_mem_eraseP hj)

/-- A step after which the counters are exact keeps all that they need. -/
theorem Kept.step (h : u.Kept) {e : LimitEvent} (he : u.Exactly dbSupport e) : (u.step dbSupport e).Kept := by
  obtain ⟨v, hv, hexact⟩ := he
  have hstep : u.step dbSupport e = v := by rw [Usage.step, hv, Option.getD_some]
  rw [hstep]
  cases e with
  | serve r =>
    have hserve : u.serve dbSupport r = v := Option.some.inj hv
    unfold serve at hserve
    split at hserve
    · exact hserve ▸ h
    · refine ⟨?_, hexact, ?_⟩
      · rw [← hserve]
        exact ⟨h.limited.task, h.limited.core⟩
      · rw [← hserve]
        intro j hj
        dsimp only at hj
        split at hj
        · exact h.pos j hj
        · rcases List.mem_cons.mp hj with rfl | hj
          · exact cores_pos r
          · exact h.pos j hj
  | notify m =>
    rw [next] at hv
    cases hs : messageStatus m with
    | none =>
      rw [hs] at hv
      cases hv
      exact h
    | some status =>
      rw [hs] at hv
      exact ⟨limited_notify h.limited hv, hexact, pos_notify h.pos hv⟩
  | change jobs ncores =>
    cases hv
    exact ⟨h.limited, hexact, h.pos⟩

/-- A server on which nothing runs. -/
def start (taskLimit coreLimit : UInt32) (jobs : List Workflow) (ncores : Int → Nat → UInt32) : Usage :=
  { sv := { jobs, limits := { taskLimit, coreLimit }, ncores } }

theorem kept_start {taskLimit coreLimit : UInt32} (ht : taskLimit ≠ 0) (hc : coreLimit ≠ 0) (jobs : List Workflow)
    (ncores : Int → Nat → UInt32) : (start taskLimit coreLimit jobs ncores).Kept :=
  ⟨⟨ht, hc⟩, exact_mk rfl rfl (Nat.zero_le _) (Nat.zero_le _), nofun⟩

theorem Kept.exactly_run_iff (h : u.Kept) (es : List LimitEvent) :
    Along (Usage.step dbSupport) (Exactly dbSupport) u es ↔ Along (Usage.step dbSupport) (Counts dbSupport) u es := by
  constructor
  · exact Along.of_induct Kept h (fun u e h he => h.step he) fun u e h he => (exactly_iff h e).mp he
  · exact Along.of_induct Kept h (fun u e h he => h.step ((exactly_iff h e).mpr he))
      fun u e h he => (exactly_iff h e).mpr he

/-- The counters stay exact all along a run exactly if each of its steps counts as it should. -/
theorem exact_run_iff {taskLimit coreLimit : UInt32} (ht : taskLimit ≠ 0) (hc : coreLimit ≠ 0) (jobs : List Workflow)
    (ncores : Int → Nat → UInt32) (es : List LimitEvent) :
    Along (step dbSupport) (Exactly dbSupport) (start taskLimit coreLimit jobs ncores) es ↔
      Along (step dbSupport) (Counts dbSupport) (start taskLimit coreLimit jobs ncores) es :=
  (kept_start ht hc jobs ncores).exactly_run_iff es

/-- A workflow of tasks that are left to the resource manager. -/
def reducing : Workflow where
  idjob := 1
  tasksNum := 2
  residualTasksNum := 2
  tasks _ := { operator := .other "oph_reduce" }

/-- Two jobs are submitted and end. -/
theorem exact_run_two :
    Along (step false) (Exactly false) (start 2 4 [reducing] fun _ _ => 2)
      [.serve ⟨⟨1, 0, -1, 7⟩, .other "oph_reduce", 2, false⟩, .serve ⟨⟨1, 1, -1, 8⟩, .other "oph_reduce", 2, false⟩,
        .notify (message ⟨1, 0, -1, 7⟩ .running), .notify (message ⟨1, 1, -1, 8⟩ .completed),
        .notify (message ⟨1, 0, -1, 7⟩ .error)] := by
  apply (exact_run_iff (by decide) (by decide) _ _ _).mpr
  decide +kernel

/-- A job of a task with no cores leaves a core counted when it ends, and a task with `run=no` takes back what another
one has counted. -/
theorem not_exact_zero_cores :
    (¬ Along (step false) (Exactly false) (start 2 4 [reducing] fun _ _ => 0)
      [.serve ⟨⟨1, 0, -1, 7⟩, .other "oph_reduce", 0, false⟩, .notify (message ⟨1, 0, -1, 7⟩ .completed)]) ∧
    ¬ Along (step false) (Exactly false) (start 2 4 [reducing] fun _ _ => 2)
      (Submission.turn true ⟨⟨1, 0, -1, 7⟩, .other "oph_reduce", 2, false⟩ ++
        Submission.turn false ⟨⟨1, 1, -1, 8⟩, .other "oph_reduce", 2, false⟩) := by
  rw [(kept_start (by decide) (by decide) _ _).exactly_run_iff,
    (kept_start (by decide) (by decide) _ _).exactly_run_iff]
  decide +kernel

end Usage
end OphidiaWorkflow.Server
