import Mathlib.Order.Basic

/-! Job statuses of the OphidiaDB, ordered by their codes. -/
namespace OphidiaWorkflow

/-- `enum oph__oph_odb_job_status`, in the order of its codes. -/
inductive JobStatus
  | unknown | pending | wait | running | start | setEnv | init | distribute | execute | reduce | destroy | unsetEnv
  | completed | error | pendingError | runningError | startError | setEnvError | initError | distributeError
  | executeError | reduceError | destroyError | unsetEnvError | skipped | aborted | unselected | expired
  deriving DecidableEq, Repr, Inhabited

namespace JobStatus

def code : JobStatus → Nat
  | unknown => 0 | pending => 1 | wait => 2 | running => 3 | start => 4 | setEnv => 5 | init => 6 | distribute => 7
  | execute => 8 | reduce => 9 | destroy => 10 | unsetEnv => 11 | completed => 12 | error => 13 | pendingError => 14
  | runningError => 15 | startError => 16 | setEnvError => 17 | initError => 18 | distributeError => 19
  | executeError => 20 | reduceError => 21 | destroyError => 22 | unsetEnvError => 23 | skipped => 24 | aborted => 25
  | unselected => 26 | expired => 27

instance : LT JobStatus := ⟨fun a b => a.code < b.code⟩
instance : LE JobStatus := ⟨fun a b => a.code ≤ b.code⟩
instance (a b : JobStatus) : Decidable (a < b) := inferInstanceAs (Decidable (a.code < b.code))
instance (a b : JobStatus) : Decidable (a ≤ b) := inferInstanceAs (Decidable (a.code ≤ b.code))

theorem lt_def {a b : JobStatus} : a < b ↔ a.code < b.code := Iff.rfl
theorem le_def {a b : JobStatus} : a ≤ b ↔ a.code ≤ b.code := Iff.rfl

/-- From `COMPLETED` on a task is over: the counters of the workflow no longer wait for it. -/
def Terminal (s : JobStatus) : Prop := completed ≤ s

instance (s : JobStatus) : Decidable s.Terminal := inferInstanceAs (Decidable (completed ≤ s))

theorem not_terminal_iff {s : JobStatus} : ¬ s.Terminal ↔ s < completed := Nat.not_le

theorem terminal_iff_not_lt {s : JobStatus} : s.Terminal ↔ ¬ s < completed := Nat.not_lt.symm

@[simp] theorem not_terminal_unknown : ¬ unknown.Terminal := by decide
@[simp] theorem terminal_completed : completed.Terminal := by decide

end JobStatus
end OphidiaWorkflow
