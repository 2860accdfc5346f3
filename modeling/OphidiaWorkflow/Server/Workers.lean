import Mathlib.Data.List.Nodup
import Mathlib.Data.List.TakeDrop

/-!
`oph_undeploy_workers` and the operator that calls it.

The number of workers to be undeployed is not compared with the number of those there are; the operator refuses a number
that is larger than the one of the workers that are up. A result `none` stands for a read outside a list.
-/
namespace OphidiaWorkflow.Server

/-- `worker_struct` -/
structure Worker where
  idWorker : List Char
  hostname : List Char := []
  port : List Char := []
  deleteQueueName : List Char := []
  status : List Char := "up".toList
  pid : List Char := []
  deriving DecidableEq, Repr

section Undeploy

variable (undeploy : Worker → Bool)

/-- `list[ii]` -/
def workerAt (list : List Worker) (ii : Int) : Option Worker := if ii < 0 then none else list[ii.toNat]?

/-- The loops from the index `ii` down to `low`, with the success and the workers that have been undeployed. A loop
whose rounds do not suffice has left the list. -/
def undeployDown (list : List Worker) (low : Int) : Nat → Int → List Worker → Option (Bool × List Worker)
  | 0, _, _ => none
  | n + 1, ii, done =>
    if ii < low then some (true, done)
    else (workerAt list ii).bind fun w =>
      if undeploy w then undeployDown list low n (ii - 1) (done ++ [w]) else some (false, done)

/-- The loop over all the workers of a list. -/
def undeployUp : List Worker → List Worker → Bool × List Worker
  | [], done => (true, done)
  | w :: ws, done => if undeploy w then undeployUp ws (done ++ [w]) else (false, done)

/-- `oph_undeploy_workers`; `idle` and `active` are what the two queries answer. -/
def undeployWorkers (idle active : List Worker) (wNumber : Int) : Option (Bool × List Worker) :=
  if idle.length = 0 then
    undeployDown undeploy active (active.length - wNumber) (active.length + 1) (active.length - 1) []
  else if wNumber ≤ idle.length then
    undeployDown undeploy idle (idle.length - wNumber) (idle.length + 1) (idle.length - 1) []
  else
    let r := undeployUp undeploy idle []
    if r.1 then
      undeployDown undeploy active (active.length - wNumber + idle.length) (active.length + 1) (active.length - 1) r.2
    else some r

end Undeploy

/-- The tables `worker` and `job`: of the latter the column `id_worker`. -/
structure WorkerTables where
  worker : List Worker
  job : List (List Char)
  deriving DecidableEq, Repr

namespace WorkerTables

variable (db : WorkerTables)

/-- `status="up" and id_worker NOT IN (select id_worker from job)` -/
def idle : List Worker := db.worker.filter fun w => w.status = "up".toList ∧ w.idWorker ∉ db.job

/-- `id_worker IN (select id_worker from job)` -/
def active : List Worker := db.worker.filter fun w => w.idWorker ∈ db.job

/-- `oph_get_workers_number_by_status` for `up` -/
def reserved : Nat := db.worker.countP fun w => w.status = "up".toList

/-- How the operator answers a request to undeploy workers. -/
inductive Answer
  | noWorkers | excessive | undeployed (success : Bool) (workers : List Worker)
  deriving DecidableEq, Repr

/-- The case of the operator in which workers are undeployed. -/
def undeployCase (undeploy : Worker → Bool) (nWorkers : Int) : Option Answer :=
  if db.reserved = 0 then some .noWorkers
  else if nWorkers ≤ db.reserved then
    (undeployWorkers undeploy db.idle db.active nWorkers).map fun r => .undeployed r.1 r.2
  else some .excessive

end WorkerTables

section Proofs

variable {undeploy : Worker → Bool} {list idle active done : List Worker} {j k n w : Nat}

/-- Going down from `j` to `k` takes the workers between them, the last one first. -/
theorem undeployDown_eq (hu : ∀ x ∈ list, undeploy x = true) (hk : k ≤ j) (hj : j ≤ list.length) (hn : j < n) :
    undeployDown undeploy list k n ((j : Int) - 1) done = some (true, done ++ ((list.take j).drop k).reverse) := by
  induction n generalizing j done with
  | zero => exact absurd hn (Nat.not_lt_zero _)
  | succ n ih =>
    rw [undeployDown]
    rcases Nat.eq_or_lt_of_le hk with rfl | hlt
    · rw [if_pos (by omega), List.drop_eq_nil_of_le (List.length_take_le _ _), List.reverse_nil, List.append_nil]
    · obtain ⟨i, rfl⟩ := Nat.exists_eq_succ_of_ne_zero (Nat.ne_of_gt (Nat.zero_lt_of_lt hlt))
      have hi : i < list.length := hj
      have hii : ((i + 1 : Nat) : Int) - 1 = i := by omega
      have hat : workerAt list (i : Int) = some list[i] := by
        rw [workerAt, if_neg (by omega), Int.toNat_natCast, List.getElem?_eq_getElem hi]
      have htake : ((list.take (i + 1)).drop k).reverse = list[i] :: ((list.take i).drop k).reverse := by
        rw [← List.take_append_getElem hi, List.drop_append_of_le_length (by rw [List.length_take]; omega),
          List.reverse_append, List.reverse_singleton, List.singleton_append]
      rw [hii, if_neg (by omega), hat, Option.bind_some, if_pos (hu _ (List.getElem_mem hi)), htake,
        ih (Nat.le_of_lt_succ hlt) (Nat.le_of_lt hi) (by omega), List.append_assoc, List.singleton_append]

theorem undeployUp_eq (hu : ∀ x ∈ list, undeploy x = true) (done : List Worker) :
    undeployUp undeploy list done = (true, done ++ list) := by
  induction list generalizing done with
  | nil => rw [undeployUp, List.append_nil]
  | cons x list ih =>
    obtain ⟨hx, hlist⟩ := List.forall_mem_cons.mp hu
    rw [undeployUp, if_pos hx, ih hlist, List.append_assoc, List.singleton_append]

/-- The workers that are undeployed when all goes well: from the end of the idle ones, then from the end of the active
ones. -/
def chosen (idle active : List Worker) (w : Nat) : List Worker :=
  if w ≤ idle.length ∧ idle ≠ [] then (idle.drop (idle.length - w)).reverse
  else idle ++ (active.drop (idle.length + active.length - w)).reverse

theorem undeployWorkers_eq (hu : ∀ x ∈ idle ++ active, undeploy x = true) (hw : w ≤ idle.length + active.length) :
    undeployWorkers undeploy idle active w = some (true, chosen idle active w) := by
  have hactive : ∀ x ∈ active, undeploy x = true := fun x hx => hu x (List.mem_append_right _ hx)
  have hidle : ∀ x ∈ idle, undeploy x = true := fun x hx => hu x (List.mem_append_left _ hx)
  rw [undeployWorkers, chosen]
  by_cases hempty : idle.length = 0
  · obtain rfl := List.eq_nil_of_length_eq_zero hempty
    have hlow : (active.length : Int) - w = ((active.length - w : Nat) : Int) := by
      rw [List.length_nil] at hw
      omega
    rw [if_pos hempty, if_neg (by simp), hlow,
      undeployDown_eq hactive (Nat.sub_le _ _) (Nat.le_refl _) (Nat.lt_succ_self _), List.take_length]
    simp
  · have hne : idle ≠ [] := fun h => hempty (congrArg List.length h)
    -- without idle workers the active ones are taken; else they come after all the idle ones
    rw [if_neg hempty]
    by_cases hfew : w ≤ idle.length
    · have hlow : (idle.length : Int) - w = ((idle.length - w : Nat) : Int) := by omega
      rw [if_pos (by exact_mod_cast hfew), if_pos ⟨hfew, hne⟩, hlow,
        undeployDown_eq hidle (Nat.sub_le _ _) (Nat.le_refl _) (Nat.lt_succ_self _), List.take_length, List.nil_append]
    · have hlow : (active.length : Int) - w + idle.length = ((idle.length + active.length - w : Nat) : Int) := by omega
      rw [if_neg (by exact_mod_cast hfew), undeployUp_eq hidle]
      dsimp only
      rw [if_pos rfl, if_neg (show ¬ (w ≤ idle.length ∧ idle ≠ []) from fun h => hfew h.1), hlow,
        undeployDown_eq hactive (by omega) (Nat.le_refl _) (Nat.lt_succ_self _), List.take_length, List.nil_append]

/-- What the undeployment is for: as many workers as there are up to `w`, none of them twice, idle ones first. -/
structure Undeploys (idle active : List Worker) (w : Nat) (done : List Worker) : Prop where
  count : done.length = min w (idle.length + active.length)
  distinct : done.Nodup
  known : ∀ x ∈ done, x ∈ idle ∨ x ∈ active
  idleFirst : (∃ x ∈ done, x ∈ active) → ∀ x ∈ idle, x ∈ done

theorem undeploys_chosen (hd : (idle ++ active).Nodup) (hw : w ≤ idle.length + active.length) :
    Undeploys idle active w (chosen idle active w) := by
  obtain ⟨hidle, hactive, hdisj⟩ := List.nodup_append.mp hd
  rw [chosen]
  split
  case isTrue h =>
    have hsub : ∀ x ∈ (idle.drop (idle.length - w)).reverse, x ∈ idle := fun x hx =>
      List.mem_of_mem_drop (List.mem_reverse.mp hx)
    refine ⟨?_, List.nodup_reverse.mpr (hidle.sublist (List.drop_sublist _ _)), fun x hx => .inl (hsub x hx), ?_⟩
    · rw [List.length_reverse, List.length_drop]
      omega
    · rintro ⟨x, hx, hact⟩
      exact absurd rfl (hdisj x (hsub x hx) x hact)
  case isFalse h =>
    have hsub : ∀ x ∈ (active.drop (idle.length + active.length - w)).reverse, x ∈ active := fun x hx =>
      List.mem_of_mem_drop (List.mem_reverse.mp hx)
    have hle : idle.length ≤ w := by
      by_contra hlt
      exact h ⟨by omega, fun hnil => by rw [hnil, List.length_nil] at hlt; omega⟩
    refine ⟨?_, List.nodup_append.mpr ⟨hidle, ?_, fun x hx y hy => hdisj x hx y (hsub y hy)⟩, fun x hx => ?_, ?_⟩
    · rw [List.length_append, List.length_reverse, List.length_drop]
      omega
    · exact List.nodup_reverse.mpr (hactive.sublist (List.drop_sublist _ _))
    · exact (List.mem_append.mp hx).imp_right (hsub x)
    · exact fun _ x hx => List.mem_append_left _ hx

/-- The workers that are up are idle or active. -/
theorem WorkerTables.reserved_le (db : WorkerTables) : db.reserved ≤ db.idle.length + db.active.length := by
  have hsplit := db.worker.countP_eq_countP_filter_add (fun w => w.status = "up".toList) fun w => w.idWorker ∈ db.job
  have hactive : db.active.countP (fun w => w.status = "up".toList) ≤ db.active.length := List.countP_le_length
  have hidle : (db.worker.filter fun w => !decide (w.idWorker ∈ db.job)).countP (fun w => w.status = "up".toList) =
      db.idle.length := by
    rw [List.countP_eq_length_filter, List.filter_filter, idle]
    congr 2
    funext w
    simp
  rw [reserved, hsplit, hidle]
  exact Nat.add_comm _ _ ▸ Nat.add_le_add_left hactive _

/-- More workers than there are in the lists are more than those that are up. -/
theorem WorkerTables.undeployCase_refuses (db : WorkerTables) {n : Int}
    (hn : ((db.idle.length + db.active.length : Nat) : Int) < n) :
    db.undeployCase undeploy n = some .noWorkers ∨ db.undeployCase undeploy n = some .excessive := by
  have hle := db.reserved_le
  rw [undeployCase]
  by_cases hzero : db.reserved = 0
  · exact .inl (if_pos hzero)
  · rw [if_neg hzero, if_neg (by omega)]
    exact .inr rfl

/-- A request for at most as many workers as there are is met within the lists, and the operator refuses any other one. -/
theorem undeployWorkers_undeploys (hd : (idle ++ active).Nodup) (hw : w ≤ idle.length + active.length)
    (hu : ∀ x ∈ idle ++ active, undeploy x = true) :
    (∃ done, undeployWorkers undeploy idle active w = some (true, done) ∧ Undeploys idle active w done) ∧
      ∀ (db : WorkerTables) (n : Int), ((db.idle.length + db.active.length : Nat) : Int) < n →
        db.undeployCase undeploy n = some .noWorkers ∨ db.undeployCase undeploy n = some .excessive :=
  ⟨⟨_, undeployWorkers_eq hu hw, undeploys_chosen hd hw⟩, fun db _ hn => db.undeployCase_refuses hn⟩

theorem undeployWorkers_undeploys_both : ∃ done,
    undeployWorkers (fun _ => true) [⟨['1'], [], [], [], [], []⟩, ⟨['2'], [], [], [], [], []⟩]
      [⟨['3'], [], [], [], [], []⟩, ⟨['4'], [], [], [], [], []⟩] (3 : Nat) = some (true, done) ∧
    Undeploys [⟨['1'], [], [], [], [], []⟩, ⟨['2'], [], [], [], [], []⟩]
      [⟨['3'], [], [], [], [], []⟩, ⟨['4'], [], [], [], [], []⟩] 3 done :=
  (undeployWorkers_undeploys (by decide) (by decide) fun _ _ => rfl).1

/-- One worker is there and two are to be undeployed: the loop reads the list before its start. -/
theorem not_undeploys_excessive : ¬ ∃ done,
    undeployWorkers (fun _ => true) [] [⟨['1'], [], [], [], [], []⟩] 2 = some (true, done) ∧
      Undeploys [] [⟨['1'], [], [], [], [], []⟩] 2 done := by
  rintro ⟨done, hdone, -⟩
  have hnone : undeployWorkers (fun _ => true) [] [⟨['1'], [], [], [], [], []⟩] 2 = none := by decide
  rw [hnone] at hdone
  cases hdone

theorem WorkerTables.nodup_idle_active {db : WorkerTables} (hd : db.worker.Nodup) : (db.idle ++ db.active).Nodup := by
  refine List.nodup_append.mpr ⟨hd.filter _, hd.filter _, fun x hx y hy hxy => ?_⟩
  have hidle := (of_decide_eq_true (List.mem_filter.mp hx).2).2
  have hactive := of_decide_eq_true (List.mem_filter.mp hy).2
  exact hidle (hxy ▸ hactive)

/-- The operator lets through no request that leaves the lists, and meets every other one. -/
theorem WorkerTables.undeployCase_cases {db : WorkerTables} (hd : db.worker.Nodup) (hu : ∀ x, undeploy x = true)
    (n : Nat) :
    (db.undeployCase undeploy n = some .noWorkers ∧ db.reserved = 0) ∨
      (db.undeployCase undeploy n = some .excessive ∧ db.reserved < n) ∨
      ∃ done, db.undeployCase undeploy n = some (.undeployed true done) ∧ Undeploys db.idle db.active n done := by
  rw [undeployCase]
  by_cases hzero : db.reserved = 0
  · exact .inl ⟨if_pos hzero, hzero⟩
  · rw [if_neg hzero]
    by_cases hle : n ≤ db.reserved
    · have hn : n ≤ db.idle.length + db.active.length := Nat.le_trans hle db.reserved_le
      rw [if_pos (by exact_mod_cast hle), undeployWorkers_eq (fun x _ => hu x) hn]
      exact .inr (.inr ⟨_, rfl, undeploys_chosen (nodup_idle_active hd) hn⟩)
    · exact .inr (.inl ⟨if_neg (by exact_mod_cast hle), Nat.lt_of_not_le hle⟩)

end Proofs

end OphidiaWorkflow.Server
