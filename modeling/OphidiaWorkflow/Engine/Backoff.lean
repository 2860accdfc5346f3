import Mathlib.Algebra.Order.GroupWithZero.Basic
import Mathlib.Algebra.Order.Ring.Int
import OphidiaWorkflow.Engine.AutoRetry
import OphidiaWorkflow.Request.Load

/-!
The delay of `oph_workflow_execute` before a task is executed again, from what `oph_workflow_load` has read in
`on_error` and from the counters of the engine.
-/
namespace OphidiaWorkflow.Backoff

open Lib
open Request (Retry readOnError readBackoff)

/-- The operations without a result: a sum or a shift that an `int` cannot hold, and a division by zero. -/
inductive Fault
  | overflow | divisionByZero
  deriving DecidableEq, Repr

variable {autoRetry : Nat} {r : Retry}

/-- `retry_num` of `oph_workflow_execute`, from the counters of the task. -/
def retryNum (autoRetry : Nat) (t : Task) : Int :=
  let n := if t.retryNum ≠ 0 then t.retryNum - t.residualRetryNum else 0
  if autoRetry ≠ 0 ∧ t.residualAutoRetryNum ≠ 0 then max n (1 + autoRetry - t.residualAutoRetryNum) else n

/-- `backoff <<= 1` -/
def shiftLeft (n : Int) : Except Fault Int := if toInt32 (2 * n) = 2 * n then .ok (2 * n) else .error .overflow

/-- `while (--retry_num) backoff <<= 1` -/
def doubled : Nat → Int → Except Fault Int
  | 0, backoff => .ok backoff
  | n + 1, backoff => shiftLeft backoff >>= doubled n

/-- `rand() % backoff` -/
def randMod (rand : Nat) (backoff : Int) : Except Fault Int :=
  if backoff = 0 then .error .divisionByZero else .ok (Int.tmod rand backoff)

/-- The delay of a task that is about to be executed, `rand` being the next random number. -/
def delay (autoRetry : Nat) (r : Retry) (t : Task) (rand : Nat) : Except Fault Int :=
  if 0 < r.backoffTime then
    if 0 < retryNum autoRetry t then
      match r.backoffType with
      | some 'e' => doubled ((retryNum autoRetry t).toNat - 1) r.backoffTime >>= randMod rand
      | some 'r' => randMod rand r.backoffTime
      | _ => .ok r.backoffTime
    else .ok 0
  else .ok 0

/-- Whenever the task is about to be executed for the `k`-th time after its first execution, its delay is that of a back-off
time that is doubled at most once for each of these attempts. -/
def Sound (autoRetry : Nat) (r : Retry) : Prop :=
  ∀ (k : Nat) (t : Task), Executed autoRetry r.retryNum .waiting k t → ∀ rand : Nat,
    ∃ d, delay autoRetry r t rand = .ok d ∧ 0 ≤ d ∧ d ≤ r.backoffTime * 2 ^ (k - 1)

/-- A task with a single attempt of its own is retried automatically once at most, and otherwise the back-off time still
fits into an `int` when it has been doubled for the last attempt. -/
def Bounded (autoRetry : Nat) (r : Retry) : Prop :=
  if r.retryNum = 1 then autoRetry ≤ 2 else r.backoffTime * 2 ^ (r.retryNum.toNat - 2) < 2 ^ 31

theorem doubled_of_lt {n : Nat} {b : Int} (hb : 0 < b) (h : b * 2 ^ n < 2 ^ 31) : doubled n b = .ok (b * 2 ^ n) := by
  induction n generalizing b with
  | zero => rw [doubled, pow_zero, mul_one]
  | succ n ih =>
    rw [pow_succ', ← mul_assoc, mul_comm b 2] at h ⊢
    have hle : 2 * b ≤ 2 * b * 2 ^ n := le_mul_of_one_le_right (by omega) (one_le_pow₀ (by decide))
    have hfit : toInt32 (2 * b) = 2 * b := Int.bmod_eq_of_le (by omega) (by omega)
    rw [doubled, shiftLeft, if_pos hfit]
    exact ih (by omega) h

theorem doubled_of_le {n : Nat} {b : Int} (hb : 0 < b) (hlt : b < 2 ^ 31) (h : 2 ^ 31 ≤ b * 2 ^ n) :
    doubled n b = .error .overflow := by
  induction n generalizing b with
  | zero =>
    rw [pow_zero, mul_one] at h
    omega
  | succ n ih =>
    rw [doubled, shiftLeft]
    split
    · next hfit =>
      have hhigh : 2 * b < (((2 ^ 32 : Nat) : Int) + 1) / 2 := hfit ▸ Int.bmod_lt (by decide)
      have hpow : b * 2 ^ (n + 1) = 2 * b * 2 ^ n := by rw [pow_succ', ← mul_assoc, mul_comm b 2]
      exact ih (by omega) (by omega) (hpow ▸ h)
    · rfl

theorem randMod_of_pos {b : Int} (hb : 0 < b) (rand : Nat) : ∃ d, randMod rand b = .ok d ∧ 0 ≤ d ∧ d ≤ b := by
  refine ⟨Int.tmod rand b, ?_, ?_, ?_⟩
  · rw [randMod, if_neg (ne_of_gt hb)]
  · exact Int.tmod_nonneg b (Int.natCast_nonneg rand)
  · exact le_of_lt (Int.tmod_lt_of_pos _ hb)

/-- Without automatic retries the engine counts the attempts. -/
theorem retryNum_eq {n : Int} {k : Nat} {t : Task} (h : Executed autoRetry n .waiting k t)
    (hn : n ≠ 1 ∨ autoRetry = 0) : retryNum autoRetry t = k := by
  obtain ⟨hr, ha, hnone, hsome⟩ := h.own hn
  unfold retryNum
  dsimp only
  rw [if_neg (fun h => h.2 ha), hr]
  rcases le_or_gt n 0 with hle | hpos
  · obtain ⟨rfl, hres⟩ := hnone hle rfl
    rw [hres]
    split_ifs
    · exact Int.sub_self n
    · rfl
  · have hsum := (hsome hpos).2
    simp only at hsum
    rw [if_pos (by omega)]
    omega

/-- Two automatic retries at most: there is one execution after the first. -/
theorem retryNum_le_one {k : Nat} {t : Task} (h : Executed autoRetry 1 .waiting k t) (hA : autoRetry ≤ 2) :
    retryNum autoRetry t ≤ 1 := by
  rcases Nat.eq_zero_or_pos autoRetry with h0 | hpos
  · rw [retryNum_eq h (.inr h0)]
    have hsum := ((h.own (.inr h0)).2.2.2 one_pos)
    simp only at hsum
    omega
  · obtain ⟨hr, hres, hcount⟩ := h.auto hpos
    unfold retryNum
    dsimp only
    rw [hr, hres, if_pos one_ne_zero]
    rcases hcount with ⟨-, ha, -⟩ | ⟨hk, -, ha, hsum, hone⟩
    · rw [if_neg (fun h => h.2 ha)]
      decide
    · rw [if_pos ⟨by omega, by omega⟩]
      omega

theorem randMod_doubled {b : Int} (hb : 0 < b) {n : Nat} (h : b * 2 ^ n < 2 ^ 31) (rand : Nat) :
    ∃ d, (doubled n b >>= randMod rand) = .ok d ∧ 0 ≤ d ∧ d ≤ b * 2 ^ n := by
  rw [doubled_of_lt hb h]
  exact randMod_of_pos (mul_pos hb (pow_pos (by decide) n)) rand

theorem toInt32_backoffTime {base : Int} {s : Option (List Char)} (h : readOnError base s = .ok r)
    (ht : r.backoffType = some 'e') : toInt32 r.backoffTime = r.backoffTime := by
  have hread (n : Int) (s : List Char) (ht : (readBackoff base n s).backoffType = some 'e') :
      toInt32 (readBackoff base n s).backoffTime = (readBackoff base n s).backoffTime := by
    unfold readBackoff at ht ⊢
    split
    · next hcut =>
      rw [hcut] at ht
      cases ht
    · next hcut =>
      rw [hcut] at ht
      split
      · exact toInt32_readInt _
      · exact toInt32_readInt _
  unfold readOnError at h
  split at h
  · cases h
    cases ht
  · split at h
    · cases h
      cases ht
    · split at h
      · cases h
        cases ht
      · split at h
        · cases h
          cases ht
        · split at h
          · dsimp only at h
            split at h
            · cases h
            · cases h
              exact hread _ _ ht
          · cases h

/-- A task that fails at each attempt, with an error that is not retried automatically. -/
theorem exists_executed {n : Int} (hn : 1 < n) (autoRetry k : Nat) (hk : (k : Int) < n) :
    ∃ t, Executed autoRetry n .waiting k t := by
  induction k with
  | zero => exact ⟨{ retryNum := n, residualRetryNum := n }, .loaded rfl⟩
  | succ k ih =>
    obtain ⟨t, ht⟩ := ih (by omega)
    have hun : Executed autoRetry n .underWay (k + 1) t := .started ht rfl
    obtain ⟨hr, -, -, hsome⟩ := hun.own (.inl (by omega))
    obtain ⟨hpos, hsum⟩ := hsome (by omega)
    simp only at hsum
    have hu : (markAutoRetry autoRetry .executeError t).1.retried autoRetry =
        some (markAutoRetry autoRetry .executeError t).1.countRetry := by
      rw [retried_eq_some_iff (.inl (by rw [markAutoRetry_retryNum, hr]; omega)), markAutoRetry_residualRetryNum]
      exact ⟨by push_cast at hsum; omega, rfl⟩
    exact ⟨_, .failed hun .executeError rfl (by omega) (by omega) hu rfl⟩

/-- The second automatic retry finds a counter that has gone down by three. -/
theorem exists_executed_auto (hA : 3 ≤ autoRetry) :
    ∃ t, Executed autoRetry 1 .waiting 2 t ∧ retryNum autoRetry t = 3 := by
  have hA' : autoRetry ≠ 0 := by omega
  let fresh : Task := { retryNum := 1, residualRetryNum := 1 }
  let count (n : Nat) : Task := { fresh with residualAutoRetryNum := n, isMarkedForAutoRetry := true }
  have hcount (n : Nat) (hn : 1 < n) : (count n).retried autoRetry = some (count (n - 1 : Nat)) := by
    rw [retried_of_marked (by omega) rfl rfl (by simp only [count]; omega)]
    simp only [count, Option.some.injEq]
    congr 1
    omega
  have hfirst : (markAutoRetry autoRetry .startError fresh).1 = count (1 + autoRetry) := by
    rw [markAutoRetry, if_pos (.inr rfl), if_pos ⟨hA', rfl⟩, if_pos rfl]
    simp only [count, Nat.cast_add, Nat.cast_one]
  have hagain : (markAutoRetry autoRetry .startError (count autoRetry)).1 = count (autoRetry - 1 : Nat) := by
    rw [markAutoRetry, if_pos (.inr rfl), if_pos ⟨hA', rfl⟩, if_neg (by simp only [count]; omega),
      if_pos (by simp only [count]; omega)]
    simp only [count]
    congr 1
    omega
  have honce : Executed autoRetry 1 .waiting 1 (count autoRetry) := by
    have hretried : (markAutoRetry autoRetry .startError fresh).1.retried autoRetry = some (count autoRetry) := by
      rw [hfirst, hcount _ (by omega), Nat.add_sub_cancel_left]
    exact .failed (.started (.loaded rfl) rfl) .startError rfl one_pos one_ne_zero hretried rfl
  refine ⟨count (autoRetry - 1 - 1 : Nat), .failed (.started honce rfl) .startError rfl one_pos one_ne_zero ?_ rfl, ?_⟩
  · rw [hagain, hcount _ (by omega)]
  · unfold retryNum
    dsimp only
    rw [if_pos one_ne_zero, if_pos ⟨hA', by simp only [count]; omega⟩]
    simp only [count, fresh]
    omega

theorem delay_exponential (hb : 0 < r.backoffTime) (he : r.backoffType = some 'e') {t : Task}
    (hn : 0 < retryNum autoRetry t) (rand : Nat) : delay autoRetry r t rand =
      (doubled ((retryNum autoRetry t).toNat - 1) r.backoffTime >>= randMod rand) := by
  rw [delay, if_pos hb, if_pos hn, he]
  rfl

theorem delay_of_not_pos {t : Task} (hn : ¬ 0 < retryNum autoRetry t) (rand : Nat) : delay autoRetry r t rand = .ok 0 := by
  rw [delay, if_neg hn, ite_self]

/-- A back-off time that is drawn from four times its value may be more than twice its value. -/
theorem not_sound_auto (hA : 3 ≤ autoRetry) (hone : r.retryNum = 1) (hb : 0 < r.backoffTime)
    (hfit : r.backoffTime < 2 ^ 31) (he : r.backoffType = some 'e') : ¬ Sound autoRetry r := by
  intro hs
  obtain ⟨t, ht, hthree⟩ := exists_executed_auto hA
  obtain ⟨d, hd, -, hle⟩ := hs 2 t (hone ▸ ht) (2 * r.backoffTime + 1).toNat
  rw [delay_exponential hb he (by omega), hthree] at hd
  by_cases hover : r.backoffTime * 2 ^ 2 < 2 ^ 31
  · have hquad : doubled ((3 : Int).toNat - 1) r.backoffTime = .ok (r.backoffTime * 2 ^ 2) := doubled_of_lt hb hover
    have hmod : Int.tmod (2 * r.backoffTime + 1).toNat (r.backoffTime * 2 ^ 2) = 2 * r.backoffTime + 1 := by
      rw [Int.toNat_of_nonneg (by omega), Int.tmod_eq_of_lt (by omega) (by omega)]
    have hrand : randMod (2 * r.backoffTime + 1).toNat (r.backoffTime * 2 ^ 2) = .ok (2 * r.backoffTime + 1) := by
      rw [randMod, if_neg (by omega), hmod]
    rw [hquad] at hd
    cases hrand.symm.trans hd
    omega
  · have hquad : doubled ((3 : Int).toNat - 1) r.backoffTime = .error .overflow :=
      doubled_of_le hb hfit (not_lt.mp hover)
    rw [hquad] at hd
    cases hd

/-- The shift for the last attempt. -/
theorem not_sound_own (hone : r.retryNum ≠ 1) (hb : 0 < r.backoffTime) (hfit : r.backoffTime < 2 ^ 31)
    (he : r.backoffType = some 'e') (hover : 2 ^ 31 ≤ r.backoffTime * 2 ^ (r.retryNum.toNat - 2)) :
    ¬ Sound autoRetry r := by
  intro hs
  have hn : 2 < r.retryNum := by
    by_contra hle
    have hzero : r.retryNum.toNat - 2 = 0 := by omega
    rw [hzero, pow_zero, mul_one] at hover
    omega
  have hone' : 1 < r.retryNum := by omega
  obtain ⟨t, ht⟩ := exists_executed hone' autoRetry (r.retryNum.toNat - 1) (by omega)
  have hk := retryNum_eq ht (.inl hone)
  obtain ⟨d, hd, -⟩ := hs _ t ht 0
  have hlast : (retryNum autoRetry t).toNat - 1 = r.retryNum.toNat - 2 := by omega
  rw [delay_exponential hb he (by omega), hlast, doubled_of_le hb hfit hover] at hd
  cases hd

/-- No attempt finds a counter that is beyond the bound. -/
theorem exists_delay {k : Nat} {t : Task} (ht : Executed autoRetry r.retryNum .waiting k t) (hb : 0 < r.backoffTime)
    (he : r.backoffType = some 'e') (hbound : Bounded autoRetry r) (rand : Nat) :
    ∃ d, delay autoRetry r t rand = .ok d ∧ 0 ≤ d ∧ d ≤ r.backoffTime * 2 ^ (k - 1) := by
  by_cases hpos : 0 < retryNum autoRetry t
  · rw [delay_exponential hb he hpos]
    by_cases hown : r.retryNum ≠ 1 ∨ autoRetry = 0
    · have hk := retryNum_eq ht hown
      obtain ⟨-, -, hnone, hsome⟩ := ht.own hown
      rcases le_or_gt r.retryNum 0 with hle | hn
      · obtain ⟨rfl, -⟩ := hnone hle rfl
        omega
      · obtain ⟨hres, hsum⟩ := hsome hn
        simp only at hsum
        have hone : r.retryNum ≠ 1 := by omega
        have hlast : (retryNum autoRetry t).toNat - 1 = k - 1 := by omega
        have hmono : r.backoffTime * 2 ^ (k - 1) ≤ r.backoffTime * 2 ^ (r.retryNum.toNat - 2) :=
          mul_le_mul_of_nonneg_left (pow_le_pow_right₀ (by decide) (by omega)) (le_of_lt hb)
        rw [Bounded, if_neg hone] at hbound
        rw [hlast]
        exact randMod_doubled hb (lt_of_le_of_lt hmono hbound) rand
    · push Not at hown
      rw [Bounded, if_pos hown.1] at hbound
      have hk := retryNum_le_one (hown.1 ▸ ht) hbound
      have hzero : (retryNum autoRetry t).toNat - 1 = 0 := by omega
      rw [hzero]
      obtain ⟨d, hd, hnn, hdle⟩ := randMod_of_pos hb rand
      exact ⟨d, hd, hnn, hdle.trans (le_mul_of_one_le_right (le_of_lt hb) (one_le_pow₀ (by decide)))⟩
  · exact ⟨0, delay_of_not_pos hpos rand, le_refl 0, mul_nonneg (le_of_lt hb) (pow_nonneg (by decide) _)⟩

/--
The delays are sound exactly if the back-off time is not doubled, or if it is not doubled too often: the automatic retries
double it twice for their second attempt.
-/
theorem sound_iff {base : Int} {s : Option (List Char)} (h : readOnError base s = .ok r) (hb : 0 < r.backoffTime) :
    Sound autoRetry r ↔ (r.backoffType = some 'e' → Bounded autoRetry r) := by
  have hle (n : Nat) : r.backoffTime ≤ r.backoffTime * 2 ^ n :=
    le_mul_of_one_le_right (le_of_lt hb) (one_le_pow₀ (by decide))
  have hfit (he : r.backoffType = some 'e') : r.backoffTime < 2 ^ 31 := by
    have hhigh : r.backoffTime < (((2 ^ 32 : Nat) : Int) + 1) / 2 := toInt32_backoffTime h he ▸ Int.bmod_lt (by decide)
    omega
  constructor
  · intro hs he
    unfold Bounded
    split_ifs with hone
    · by_contra hA
      exact not_sound_auto (by omega) hone hb (hfit he) he hs
    · by_contra hover
      exact not_sound_own hone hb (hfit he) he (not_lt.mp hover) hs
  · intro hbound k t ht rand
    by_cases he : r.backoffType = some 'e'
    · exact exists_delay ht hb he (hbound he) rand
    · unfold delay
      split_ifs with hn
      · split
        · next he' => exact absurd he' he
        · obtain ⟨d, hd, hnn, hdle⟩ := randMod_of_pos hb rand
          exact ⟨d, hd, hnn, hdle.trans (hle _)⟩
        · exact ⟨_, rfl, le_of_lt hb, hle _⟩
      · exact ⟨0, rfl, le_refl 0, (le_of_lt hb).trans (hle _)⟩

/-- A task with a single attempt of its own. -/
def retryOnceRequest : LoadedWorkflow :=
  loadRequest [requestTask "A" (.other "oph_a") [] 1] (by
    simp only [List.forall_mem_cons, List.not_mem_nil, false_implies, implies_true, and_true]
    exact requestTask_fresh ..)

/-- Each attempt ends with an error of its start. -/
def startErrors : List Event :=
  [.handle 0 { exec := .plain }, .external { jobid := 1, status := .startError, taskIndex := 0 } {},
    .handle 1 { exec := .plain }, .external { jobid := 1, status := .startError, taskIndex := 0 } {}]

/-- What sound delays mean for a run: that of a task which is about to be executed is bounded by its executions so far. -/
theorem delay_of_run (hsound : Sound autoRetry r) {wf₀ : OphidiaWorkflow.Workflow} (h₀ : wf₀.Submittable)
    (tasksIndexes : List Nat) (es : List Event) {i : Nat} (hr : (wf₀.tasks i).retryNum = r.retryNum)
    (hs : (wf₀.tasks i).status = .unknown) (hm : (wf₀.tasks i).isMarkedForAutoRetry = false)
    (hes : Lib.Along (Sys.step autoRetry) (NotifiedOnce i) (wf₀.submit tasksIndexes) es)
    (hl : Lib.Along (Sys.step autoRetry) (LightNotified i) (wf₀.submit tasksIndexes) es) {wf : OphidiaWorkflow.Workflow}
    (hwf : ((wf₀.submit tasksIndexes).run autoRetry es).wf = wf) (hwait : (wf.tasks i).status = .unknown)
    (hlight : (wf.tasks i).lightTasksNum = 0) (rand : Nat) :
    ∃ d, delay autoRetry r (wf.tasks i) rand = .ok d ∧ 0 ≤ d ∧ d ≤ r.backoffTime * 2 ^ (wf.attempts i - 1) := by
  have hcounted := executed_of_run autoRetry h₀ tasksIndexes es hs hm hes hl
  rw [hwf, hr] at hcounted
  exact hsound _ _ (hcounted.waiting hwait hlight) rand

/-- The task fails to start twice: the counter that the engine reads is 3 before its second automatic retry. -/
example : checkAccepted retryOnceRequest (fun wf₀ =>
    let wf := ((wf₀.submit wf₀.initialTasks).run 3 startErrors).wf
    decide ((wf.tasks 0).status = .unknown ∧ wf.attempts 0 = 2 ∧ retryNum 3 (wf.tasks 0) = 3)) = true := by
  decide +kernel

/-- Three retries after 5 seconds, doubled for each. -/
theorem sound_iff_five : (readOnError 0 (some "repeat 3 5 e".toList) = .ok ⟨4, 5, some 'e'⟩ ∧ (0 : Int) < 5) ∧
    (Sound 3 ⟨4, 5, some 'e'⟩ ↔ (some 'e' = some 'e' → Bounded 3 ⟨4, 5, some 'e'⟩)) :=
  ⟨⟨by decide +kernel, by decide⟩,
    @sound_iff 3 _ 0 (some "repeat 3 5 e".toList) (by decide +kernel) (by decide)⟩

/-- The back-off time of two seconds is doubled thirty times. -/
theorem not_sound_thirty : ¬ ∀ (autoRetry : Nat) (base : Int) (s : Option (List Char)) (r : Retry),
    readOnError base s = .ok r → 0 < r.backoffTime → Sound autoRetry r := by
  intro h
  have hr : readOnError 0 (some "repeat 31 2 e".toList) = .ok ⟨32, 2, some 'e'⟩ := by decide +kernel
  exact not_sound_own (by decide) (by decide) (by decide) rfl (by decide) (h 0 0 _ _ hr (by decide))

end OphidiaWorkflow.Backoff
