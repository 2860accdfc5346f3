import OphidiaWorkflow.Flow.Iteration

/-!
The variables with the numbers of iterations of the serial loops that are running. Only flow control operators change
the variables of a workflow and the stack of its loops.
-/
namespace OphidiaWorkflow

/-- The variables and the stack of the loops. -/
def Workflow.scopes (wf : Workflow) : (String → Option Var) × List Frame := (wf.vars, wf.stack)

/-! ## What leaves the variables and the stack alone -/

section Scopes

variable (wf : Workflow) (i j : Nat)

@[simp] theorem scopes_modify (f : Task → Task) : (wf.modify i f).scopes = wf.scopes := rfl
@[simp] theorem scopes_setTaskStatus (s : JobStatus) : (wf.setTaskStatus i s).scopes = wf.scopes := rfl
@[simp] theorem scopes_record (e : Entry) : (wf.record e).scopes = wf.scopes := rfl
@[simp] theorem scopes_countEnded : (wf.countEnded i).scopes = wf.scopes := rfl

@[simp] theorem scopes_raiseStatus (s : JobStatus) : (raiseStatus wf s).scopes = wf.scopes := by
  unfold raiseStatus
  split <;> rfl

theorem scopes_setStatus (target : JobStatus) (fuel : Nat) (dependents : List Nat) :
    (setStatus target fuel dependents wf).1.scopes = wf.scopes := by
  induction fuel generalizing dependents wf with
  | zero => rfl
  | succ fuel ih =>
    unfold setStatus
    refine Lib.foldWhile_induct (fun u : Workflow => u.scopes = wf.scopes) rfl fun i _ u h => ?_
    dsimp only
    split_ifs
    · exact h
    · exact h
    · exact (ih _ _).trans h
    · exact (ih _ _).trans h

@[simp] theorem scopes_abortDependents : (abortDependents wf i).1.scopes = wf.scopes := scopes_setStatus wf _ _ _

variable (ophAutoRetry : Nat) (env : ExecEnv) (retry : Bool)

@[simp] theorem scopes_submissionFailed : (submissionFailed wf i).1.scopes = wf.scopes :=
  scopes_abortDependents (wf.setTaskStatus i .error) i

@[simp] theorem scopes_lightFailed : (lightFailed wf i j).1.scopes = wf.scopes := rfl

@[simp] theorem scopes_executeLight : (executeLight env i retry wf j).1.scopes = wf.scopes := by
  unfold executeLight
  dsimp only
  split
  · split <;> rfl
  · split
    · rfl
    · split
      · rfl
      · split <;> rfl

@[simp] theorem scopes_executeLights : (executeLights env i retry wf).1.scopes = wf.scopes :=
  Lib.foldOut_induct (fun (u : Workflow) _ => u.scopes = wf.scopes) rfl fun j _ (u : Workflow) _ h =>
    (scopes_executeLight u i j env retry).trans h

@[simp] theorem scopes_finishMassive (s : JobStatus) : (finishMassive env wf i s).1.scopes = wf.scopes := by
  unfold finishMassive
  split <;> rfl

@[simp] theorem scopes_submitTask (remake : Bool) : (submitTask ophAutoRetry env wf i remake).1.scopes = wf.scopes := by
  unfold submitTask
  split
  · simp
  · dsimp only
    split_ifs <;> simp

@[simp] theorem scopes_submitMassive : (submitMassive ophAutoRetry env wf i).1.scopes = wf.scopes := by
  unfold submitMassive
  dsimp only
  split <;> simp

@[simp] theorem scopes_startTask : (startTask ophAutoRetry env wf i).1.scopes = wf.scopes := by
  unfold startTask
  dsimp only
  split_ifs <;> simp

theorem scopes_execute (tasksIndexes : List Nat) : (execute ophAutoRetry env tasksIndexes wf).1.scopes = wf.scopes := by
  unfold execute
  split
  · refine Lib.foldOut_induct (fun (u : Workflow) _ => u.scopes = wf.scopes) rfl fun i _ u _ h => ?_
    unfold executeTask
    split
    · exact (scopes_startTask u i ophAutoRetry env).trans h
    · exact h
  · rfl

end Scopes

section Notifications

variable (ophAutoRetry : Nat) (env : NotifyEnv) (wf : Workflow) (n : Notification) (status : JobStatus) (i j : Nat)

@[simp] theorem scopes_feedArgument (src dst : Nat) (d : Dep) (st : DepLoop) :
    (feedArgument src dst d st).wf.scopes = st.wf.scopes := by
  have habort : (abortDependents (st.wf.setTaskStatus dst .aborted) dst).1.scopes = st.wf.scopes :=
    scopes_abortDependents _ dst
  rcases feedArgument_wf src dst d st with h | h | h | ⟨object, h⟩
  · rw [h]
  · rw [h]
    exact habort
  · rw [h]
    exact habort
  · rw [h]
    rfl

theorem scopes_releaseDependents : (releaseDependents wf i).wf.scopes = wf.scopes := by
  unfold releaseDependents
  refine Lib.foldWhile_induct (fun st : DepLoop => st.wf.scopes = wf.scopes) rfl fun dst _ st hst => ?_
  unfold satisfyDeps
  split
  · refine Lib.foldWhile_induct (fun st : DepLoop => st.wf.scopes = wf.scopes) hst fun j _ st' hst' => ?_
    have hfeed := (scopes_feedArgument i dst ((st'.wf.tasks dst).deps.getD j default) st').trans hst'
    unfold satisfyDep
    dsimp only
    split_ifs
    · exact hst'
    · exact hfeed
    · exact hfeed
    · exact hfeed
    · exact hfeed
  · exact hst

@[simp] theorem scopes_saveResponse (json : String) : (saveResponse wf i json).scopes = wf.scopes := by
  unfold saveResponse
  split <;> rfl

@[simp] theorem scopes_checkEnd : (checkEnd wf).wf.scopes = wf.scopes := by
  unfold checkEnd
  split_ifs
  · rfl
  · exact scopes_raiseStatus wf _
  · rfl

theorem scopes_accountCompleted (outputs : List (String × String)) :
    (accountCompleted env wf i outputs).wf.scopes = wf.scopes := by
  unfold accountCompleted
  dsimp only
  split_ifs
  · rfl
  · exact scopes_releaseDependents _ i
  · exact (scopes_checkEnd _).trans (scopes_releaseDependents _ i)

theorem scopes_accountContinue : (accountContinue wf i).wf.scopes = wf.scopes := by
  have habort : (abortDependents (wf.countEnded i) i).1.scopes = wf.scopes := scopes_abortDependents _ i
  unfold accountContinue
  dsimp only
  split_ifs
  · exact habort
  · exact (scopes_raiseStatus _ _).trans habort
  · exact habort

theorem scopes_accountRetry : (accountRetry ophAutoRetry wf i).wf.scopes = wf.scopes := by
  unfold accountRetry
  dsimp only
  split_ifs <;> rfl

theorem scopes_account (outputs : List (String × String)) :
    (account ophAutoRetry env n outputs wf status).wf.scopes = wf.scopes := by
  have hskip : ((saveResponse wf n.taskIndex n.outputJson).modify n.taskIndex Task.skip).scopes = wf.scopes :=
    scopes_saveResponse wf _ _
  unfold account
  dsimp only
  split_ifs
  · rfl
  · rfl
  · exact (scopes_accountCompleted env _ _ outputs).trans hskip
  · exact (scopes_accountContinue _ _).trans hskip
  · exact hskip
  · exact (scopes_accountRetry ophAutoRetry _ _).trans hskip

@[simp] theorem scopes_writeLight : (writeLight ophAutoRetry wf n j).scopes = wf.scopes := by
  unfold writeLight lightStartError
  dsimp only
  split
  · exact scopes_raiseStatus _ _
  · rfl

@[simp] theorem scopes_lightOver (outputs : List (String × String)) :
    (lightOver wf i j status outputs).wf.scopes = wf.scopes := by
  unfold lightOver
  dsimp only
  split_ifs <;> rfl

theorem scopes_updateStatus : (updateStatus ophAutoRetry env n wf status).wf.scopes = wf.scopes := by
  unfold updateStatus
  split
  · unfold notifyLight
    dsimp only
    split_ifs <;> simp
  · unfold notifyTask
    dsimp only
    split_ifs <;> simp

theorem scopes_conclude (v : Verdict) : (conclude env i v).1.scopes = v.wf.scopes := by
  unfold conclude finalise
  split_ifs <;> rfl

theorem scopes_notify : (notify ophAutoRetry env n wf).1.scopes = wf.scopes := by
  have hupdate := scopes_updateStatus ophAutoRetry env wf n
  unfold notify
  split
  · rfl
  case h_2 status _ =>
    split_ifs
    · rfl
    · rfl
    · rfl
    · rfl
    · rfl
    · unfold settle
      split
      · exact hupdate status
      · split
        · exact hupdate status
        · exact (scopes_conclude env _ _).trans ((scopes_account ophAutoRetry env _ n _ _).trans (hupdate status))

end Notifications

section FlowControl

variable (wf : Workflow) (i : Nat)

theorem scopes_setStatusOfSelectionBlock (status : JobStatus) (parent : Nat) (skip : Bool) (nk fuel taskIndex : Nat) :
    (setStatusOfSelectionBlock status parent skip nk fuel taskIndex wf).1.scopes = wf.scopes := by
  induction fuel generalizing taskIndex wf with
  | zero => rfl
  | succ fuel ih =>
    unfold setStatusOfSelectionBlock
    refine Lib.foldWhile_induct (fun u : Workflow => u.scopes = wf.scopes) rfl fun k _ u h => ?_
    unfold selectDependent Workflow.countUnselected
    dsimp only
    split_ifs
    · exact h
    · exact h
    · exact h
    · exact h
    · exact h
    · exact (ih _ _).trans h
    · exact (ih _ _).trans h

theorem scopes_skipBranch (skip : Bool) : (skipBranch wf i skip).scopes = wf.scopes :=
  scopes_setStatusOfSelectionBlock wf _ _ _ _ _ _

theorem scopes_ifImpl (answer : Option Bool) : (ifImpl wf i answer).1.scopes = wf.scopes := by
  unfold ifImpl
  split
  · exact scopes_skipBranch wf i _
  · split
    · rfl
    · exact scopes_skipBranch (wf.modify i (Task.setSkipped true)) i _
    · rfl

theorem scopes_elseImpl : (elseImpl wf i).scopes = wf.scopes := by
  unfold elseImpl
  split
  · exact scopes_skipBranch wf i _
  · rfl

theorem scopes_inputAction (target : Option Nat) (action : JobStatus) :
    (inputAction wf target action).scopes = wf.scopes := by
  unfold inputAction
  split
  · rfl
  · split <;> rfl

theorem scopes_newIteration (p : Nat) (frame : Frame) : (newIteration wf p i frame).scopes = wf.scopes := by
  have hreset : (resetBody wf p i frame).scopes = wf.scopes := by
    unfold resetBody resetTask
    dsimp only
    refine Lib.traverse_induct (fun s : Workflow × Nat => s.1.scopes = wf.scopes) (fun s a t hs hv => ?_) _ _ rfl
    unfold resetVisit at hv
    split_ifs at hv
    cases hv
    exact hs
  have hdisable : (disableBody (resetBody wf p i frame) p i).scopes = wf.scopes := by
    refine Lib.traverse_induct (fun u : Workflow => u.scopes = wf.scopes) (fun u a t hu hv => ?_) _ _ hreset
    unfold disableVisit at hv
    split_ifs at hv
    cases hv
    exact hu
  exact hdisable

end FlowControl

/-! ## The numbers of iterations -/

/-- The variable with the number of iterations of a loop over `name` has the value `n`. -/
def Workflow.SizeIs (wf : Workflow) (name : String) (n : Nat) : Prop :=
  (wf.vars (name ++ "_size")).map Var.svalue = some (toString n)

/-- Each serial loop that has been entered and is not over finds its number of iterations among the variables. -/
def SizesRight (wf : Workflow) : Prop := ∀ f ∈ wf.stack, wf.SizeIs f.name f.valuesNum

/-- The last of the values that a list of assignments gives to a variable. -/
def lastAssigned (vars : List (String × Var)) (name : String) : Option Var := vars.reverse.lookup name

/-- A serial loop over the variable `name` can be entered with these arguments. -/
structure ForArgs.Enters (a : ForArgs) (wf : Workflow) (name : String) : Prop where
  key : a.name = some name
  serial : a.parallel = false
  sizesAgree : a.sizesAgree = true
  free : wf.vars name = none

/-- What a flow control operator has to find for the loops to keep their numbers of iterations. -/
def CarefulOperator (env : ServeEnv) (wf : Workflow) (i : Nat) : Prop :=
  match (wf.tasks i).operator with
  | .set | .input =>
    -- no other value is assigned to the size of a loop that is running
    env.jsonFails = false → ∀ f ∈ wf.stack, ∀ v, lastAssigned env.vars (f.name ++ "_size") = some v →
      v.svalue = toString f.valuesNum
  | .for =>
    -- a size that is there already is the right one
    env.jsonFails = false → ∀ a name, env.forArgs = some a → a.Enters wf name →
      ∀ v, wf.vars (name ++ "_size") = some v → v.svalue = toString a.valuesNum
  | .endfor =>
    -- the variable of the loop is not the size of another one, or its next value is the right size
    ∀ f, findFrame wf (wf.tasks i).parent = some f → (wf.vars f.name).isSome → ∀ g ∈ wf.stack,
      g.name ++ "_size" = f.name → f.index + 1 < f.valuesNum ∧
        (loopVar f.caller f.svalues f.ivalues (f.index + 1)).svalue = toString g.valuesNum
  | _ => True

/-- What a step has to find for the loops to keep their numbers of iterations: only flow control operators matter. -/
def Careful (s : Sys) : Event → Prop
  | .external _ _ => True
  | .handle k env => ∀ r, s.todo[k]? = some (.serve r) → r.run = true → r.lightTaskId = none → s.wf.dropped = false →
      CarefulOperator env.serve s.wf r.taskId

instance SizesRight.decidable (wf : Workflow) : Decidable (SizesRight wf) :=
  inferInstanceAs (Decidable (∀ f ∈ wf.stack, (wf.vars (f.name ++ "_size")).map Var.svalue = some (toString f.valuesNum)))

section Sizes

variable {wf wf' : Workflow}

theorem size_ne (name : String) : name ++ "_size" ≠ name := by
  intro h
  have hlen := congrArg String.length h
  rw [String.length_append] at hlen
  have hsize : "_size".length = 5 := rfl
  omega

theorem sizesRight_congr (h : wf'.scopes = wf.scopes) : SizesRight wf' ↔ SizesRight wf := by
  rw [Workflow.scopes, Workflow.scopes, Prod.mk.injEq] at h
  unfold SizesRight Workflow.SizeIs
  rw [h.1, h.2]

@[simp] theorem insertVar_vars_self (wf : Workflow) (name : String) (v : Var) :
    (wf.insertVar name v).vars name = some v := Function.update_self ..

theorem insertVar_vars_of_ne {name other : String} (h : other ≠ name) (wf : Workflow) (v : Var) :
    (wf.insertVar name v).vars other = wf.vars other := Function.update_of_ne h ..

theorem setVars_stack (wf : Workflow) (vars : List (String × Var)) : (setVars wf vars).stack = wf.stack :=
  (setVars_steady wf vars).stack

theorem setVars_vars (wf : Workflow) (vars : List (String × Var)) (name : String) :
    (setVars wf vars).vars name = (lastAssigned vars name).or (wf.vars name) := by
  unfold setVars lastAssigned
  induction vars generalizing wf with
  | nil => rfl
  | cons p l ih =>
    rw [List.foldl_cons, ih, List.reverse_cons, List.lookup_append, Option.or_assoc]
    congr 1
    rw [List.lookup_cons, List.lookup_nil]
    by_cases hp : name = p.1
    · rw [hp, insertVar_vars_self, beq_self_eq_true]
      rfl
    · rw [insertVar_vars_of_ne hp, beq_false_of_ne hp]
      rfl

/-- Assignments leave the sizes right if they assign no other value to them. -/
theorem sizesRight_setVars_iff (h : SizesRight wf) (vars : List (String × Var)) :
    SizesRight (setVars wf vars) ↔ ∀ f ∈ wf.stack, ∀ v, lastAssigned vars (f.name ++ "_size") = some v →
      v.svalue = toString f.valuesNum := by
  unfold SizesRight Workflow.SizeIs
  rw [setVars_stack]
  refine forall₂_congr fun f hf => ?_
  have hold := h f hf
  rw [setVars_vars]
  cases hv : lastAssigned vars (f.name ++ "_size") with
  | none =>
    refine ⟨fun _ v hv' => ?_, fun _ => hold⟩
    cases hv'
  | some v =>
    refine ⟨fun hnew v' hv' => ?_, fun hv' => congrArg some (hv' v rfl)⟩
    cases hv'
    exact Option.some.inj hnew

/-- A wait adds variables only. -/
theorem waitImpl_keeps (wf : Workflow) (i : Nat) (vars : List (String × Var)) (name : String)
    (h : (wf.vars name).isSome) : (waitImpl wf i vars).vars name = wf.vars name := by
  have hvars : (vars.foldl (fun wf p => if (wf.vars p.1).isSome then wf else wf.insertVar p.1 p.2) wf).vars name =
      wf.vars name := by
    induction vars generalizing wf with
    | nil => rfl
    | cons p l ih =>
      have hfirst : (if (wf.vars p.1).isSome then wf else wf.insertVar p.1 p.2).vars name = wf.vars name := by
        split_ifs with hp
        · rfl
        · refine insertVar_vars_of_ne ?_ wf p.2
          rintro rfl
          exact hp h
      rw [List.foldl_cons, ih _ (by rwa [hfirst]), hfirst]
  unfold waitImpl raiseStatus
  dsimp only
  split
  · exact hvars
  · exact hvars

theorem SizeIs.isSome {name : String} {n : Nat} (h : wf.SizeIs name n) : (wf.vars (name ++ "_size")).isSome := by
  rw [← Option.isSome_map (f := Var.svalue), h]
  rfl

theorem sizesRight_waitImpl (h : SizesRight wf) (i : Nat) (vars : List (String × Var)) :
    SizesRight (waitImpl wf i vars) := by
  intro f hf
  rw [(waitImpl_steady wf i vars).stack] at hf
  have hold := h f hf
  unfold Workflow.SizeIs at hold ⊢
  rw [waitImpl_keeps wf i vars _ (SizeIs.isSome hold)]
  exact hold

/-! ### Loops -/

theorem insertSize_stack (wf : Workflow) (name : String) (n : Nat) : (insertSize wf name n).stack = wf.stack := by
  unfold insertSize
  split <;> rfl

/-- A size that is there already is kept, whatever it is. -/
theorem insertSize_of_isSome {name : String} (h : (wf.vars (name ++ "_size")).isSome) (n : Nat) :
    insertSize wf name n = wf := if_pos h

theorem insertSize_keeps {name other : String} (h : (wf.vars other).isSome ∨ other = name) (n : Nat) :
    (insertSize wf name n).vars other = wf.vars other := by
  unfold insertSize
  split_ifs with hs
  · rfl
  · refine insertVar_vars_of_ne ?_ wf _
    rintro rfl
    rcases h with h | h
    · exact hs h
    · exact size_ne name h

theorem sizesRight_insertSize (h : SizesRight wf) (name : String) (n : Nat) : SizesRight (insertSize wf name n) := by
  intro f hf
  rw [insertSize_stack] at hf
  have hold := h f hf
  unfold Workflow.SizeIs at hold ⊢
  rwa [insertSize_keeps (.inl (SizeIs.isSome hold))]

theorem insertSize_sizeIs_iff (name : String) (n : Nat) :
    (insertSize wf name n).SizeIs name n ↔
      ∀ v, wf.vars (name ++ "_size") = some v → v.svalue = toString n := by
  unfold Workflow.SizeIs
  cases hv : wf.vars (name ++ "_size") with
  | none =>
    have hnew :
        insertSize wf name n = wf.insertVar (name ++ "_size") { caller := -1, svalue := toString n, ivalue := 1 } :=
      if_neg (by simp [hv])
    rw [hnew, insertVar_vars_self]
    refine ⟨fun _ v hv' => ?_, fun _ => rfl⟩
    cases hv'
  | some v =>
    rw [insertSize_of_isSome (by rw [hv]; rfl), hv]
    refine ⟨fun h v' hv' => ?_, fun h => congrArg some (h v rfl)⟩
    cases hv'
    exact Option.some.inj h

/-- A loop that is entered has its size right, and the others keep theirs. -/
theorem sizesRight_enter_iff (h : SizesRight wf) {name : String} (hname : wf.vars name = none) (i n : Nat) (v : Var)
    (svalues : Option (List String)) (ivalues : Option (List Int)) :
    SizesRight (push ((insertSize wf name n).insertVar name v) i name svalues ivalues n) ↔
      (insertSize wf name n).SizeIs name n := by
  have hkeeps {other : String} (ho : (wf.vars other).isSome ∨ other = name ++ "_size") (m : Nat) :
      (push ((insertSize wf name n).insertVar name v) i name svalues ivalues n).vars other =
        (insertSize wf name n).vars other := by
    refine insertVar_vars_of_ne ?_ _ _
    rintro rfl
    rcases ho with ho | ho
    · rw [hname] at ho
      cases ho
    · exact size_ne other ho.symm
  have hsizes := sizesRight_insertSize h name n
  unfold SizesRight
  rw [show (push ((insertSize wf name n).insertVar name v) i name svalues ivalues n).stack =
    { caller := i, index := 0, tasks := fun k => ((insertSize wf name n).tasks k).snapshot, name := name,
      svalues := svalues, ivalues := ivalues, valuesNum := n } :: (insertSize wf name n).stack from rfl,
    List.forall_mem_cons]
  unfold Workflow.SizeIs
  rw [hkeeps (.inr rfl) n, and_iff_left_iff_imp]
  intro _ f hf
  rw [hkeeps (.inl ?_) n]
  · exact hsizes f hf
  · rw [insertSize_stack] at hf
    exact SizeIs.isSome (h f hf)

theorem forImpl_of_enters {a : ForArgs} {name : String} (h : a.Enters wf name) (i : Nat) :
    forImpl wf i (some a) = (push ((insertSize wf name a.valuesNum).insertVar name (loopVar i a.svalues a.ivalues 0)) i
      name a.svalues a.ivalues a.valuesNum, true) := by
  have hfree : (insertSize wf name a.valuesNum).vars name = none := (insertSize_keeps (.inr rfl) _).trans h.free
  simp only [forImpl, h.key, h.serial, h.sizesAgree, hfree, Bool.false_eq_true, ↓reduceIte, Bool.not_true,
    Option.isSome_none]

/-- A loop that is not entered has added its size at most. -/
theorem forImpl_of_not_enters {args : Option ForArgs} (h : ∀ a name, args = some a → ¬ a.Enters wf name) (i : Nat) :
    (forImpl wf i args).1 = wf ∨ ∃ name n, (forImpl wf i args).1 = insertSize wf name n := by
  unfold forImpl
  split
  · exact .inl rfl
  case h_2 a =>
    split
    · exact .inl rfl
    case h_2 name hn =>
      have hvar : (insertSize wf name a.valuesNum).vars name = wf.vars name := insertSize_keeps (.inr rfl) _
      dsimp only
      split_ifs with hp hs hv
      · exact .inl rfl
      · exact .inl rfl
      · exact .inr ⟨name, a.valuesNum, rfl⟩
      · refine absurd ⟨hn, ?_, ?_, ?_⟩ (h a name rfl)
        · simpa using hp
        · simpa using hs
        · rw [hvar] at hv
          simpa using hv

theorem sizesRight_forImpl_iff (h : SizesRight wf) (i : Nat) (args : Option ForArgs) :
    SizesRight (forImpl wf i args).1 ↔ ∀ a name, args = some a → a.Enters wf name →
      ∀ v, wf.vars (name ++ "_size") = some v → v.svalue = toString a.valuesNum := by
  by_cases hen : ∃ a name, args = some a ∧ a.Enters wf name
  · obtain ⟨a, name, rfl, he⟩ := hen
    rw [forImpl_of_enters he, sizesRight_enter_iff h he.free, insertSize_sizeIs_iff]
    constructor
    · rintro hv a' name' ha he'
      cases ha
      cases he.key.symm.trans he'.key
      exact hv
    · intro hall
      exact hall a name rfl he
  · have hnot : ∀ a name, args = some a → ¬ a.Enters wf name := fun a name ha he => hen ⟨a, name, ha, he⟩
    refine ⟨fun _ a name ha he => absurd he (hnot a name ha), fun _ => ?_⟩
    rcases forImpl_of_not_enters hnot i with hsame | ⟨name, n, hsize⟩
    · rwa [hsame]
    · rw [hsize]
      exact sizesRight_insertSize h name n

/-- What the size of a loop depends on, and the task that names it. -/
def Frame.label (f : Frame) : Nat × String × Nat := (f.caller, f.name, f.valuesNum)

theorem sizesRight_iff_labels : SizesRight wf ↔ ∀ l ∈ wf.stack.map Frame.label, wf.SizeIs l.2.1 l.2.2 := by
  rw [List.forall_mem_map]
  rfl

theorem nextIndex_labels (stack : List Frame) (caller : Nat) :
    (nextIndex stack caller).map Frame.label = stack.map Frame.label := by
  induction stack with
  | nil => rfl
  | cons f l ih =>
    unfold nextIndex
    split
    · rfl
    · rw [List.map_cons, List.map_cons, ih]

theorem sizesRight_nextIndex (h : SizesRight wf) (caller : Nat) :
    SizesRight { wf with stack := nextIndex wf.stack caller } := by
  rw [sizesRight_iff_labels] at h ⊢
  rwa [nextIndex_labels]

/-- One variable gets another value, or none. -/
theorem sizeIs_update_iff {name other : String} {n : Nat} {v : Option Var} (h : wf.SizeIs other n)
    (hv : wf'.vars = Function.update wf.vars name v) :
    wf'.SizeIs other n ↔ (other ++ "_size" = name → v.map Var.svalue = some (toString n)) := by
  unfold Workflow.SizeIs at h ⊢
  rw [hv]
  by_cases hname : other ++ "_size" = name
  · rw [hname, Function.update_self]
    exact ⟨fun hs _ => hs, fun hs => hs rfl⟩
  · rw [Function.update_of_ne hname]
    exact ⟨fun _ hs => absurd hs hname, fun _ => h⟩

theorem sizesRight_rebind_iff (h : SizesRight wf) (f : Frame) :
    SizesRight (rebind wf f) ↔ ∀ g ∈ wf.stack, g.name ++ "_size" = f.name →
      (loopVar f.caller f.svalues f.ivalues (f.index + 1)).svalue = toString g.valuesNum := by
  have hvars : (rebind wf f).vars =
      Function.update wf.vars f.name (some (loopVar f.caller f.svalues f.ivalues (f.index + 1))) :=
    Function.update_idem ..
  have hlabels : (rebind wf f).stack.map Frame.label = wf.stack.map Frame.label := nextIndex_labels ..
  rw [sizesRight_iff_labels, hlabels, List.forall_mem_map]
  refine forall₂_congr fun g hg => ?_
  refine (sizeIs_update_iff (h g hg) hvars).trans (imp_congr_right fun _ => ?_)
  rw [Option.map_some, Option.some_inj]

/-- Only the first element that is looked for is erased. -/
theorem mem_eraseP_of_ne {α : Type} {p : α → Bool} {l : List α} {a b : α} (ha : l.find? p = some a) (hb : b ∈ l)
    (hne : b ≠ a) : b ∈ l.eraseP p := by
  obtain ⟨hp, before, after, rfl, hbefore⟩ := List.find?_eq_some_iff_append.mp ha
  rw [List.eraseP_append_right _ fun c hc => by simpa using hbefore c hc, List.eraseP_cons_of_pos hp]
  rw [List.mem_append, List.mem_cons] at hb
  rw [List.mem_append]
  rcases hb with hb | rfl | hb
  · exact .inl hb
  · exact absurd rfl hne
  · exact .inr hb

theorem leaveLoop_labels (wf : Workflow) (i : Nat) (f : Frame) :
    (leaveLoop wf i f).stack.map Frame.label = (wf.stack.eraseP fun g => g.caller == f.caller).map Frame.label := by
  have herase (l : List Frame) : (l.eraseP fun g => g.caller == f.caller).map Frame.label =
      (l.map Frame.label).eraseP fun g => g.1 == f.caller := by
    rw [List.eraseP_map]
    rfl
  rw [herase, ← nextIndex_labels wf.stack f.caller, ← herase]
  rfl

theorem sizesRight_leaveLoop_iff (h : SizesRight wf) {i : Nat} {p : Int} {f : Frame} (hf : findFrame wf p = some f) :
    SizesRight (leaveLoop wf i f) ↔ ∀ g ∈ wf.stack, g.name ++ "_size" ≠ f.name := by
  have hvars : (leaveLoop wf i f).vars = Function.update wf.vars f.name none := rfl
  have hfind : wf.stack.find? (fun g => g.caller == f.caller) = some f := by
    obtain ⟨-, hcaller⟩ := findFrame_mem hf
    rw [← hf, findFrame]
    congr 1
    funext g
    rw [← hcaller, Bool.eq_iff_iff, beq_iff_eq, beq_iff_eq, Int.natCast_inj]
  rw [sizesRight_iff_labels, leaveLoop_labels, List.forall_mem_map]
  constructor
  · intro hall g hg hname
    have hne : g ≠ f := by
      rintro rfl
      exact size_ne _ hname
    have hsize := (sizeIs_update_iff (h g hg) hvars).mp (hall g (mem_eraseP_of_ne hfind hg hne))
    cases hsize hname
  · intro hall g hg
    have hmem := List.mem_of_mem_eraseP hg
    exact (sizeIs_update_iff (h g hmem) hvars).mpr fun hname => absurd hname (hall g hmem)

theorem sizesRight_endforImpl_iff (h : SizesRight wf) (i : Nat) :
    SizesRight (endforImpl wf i).1 ↔ ∀ f, findFrame wf (wf.tasks i).parent = some f → (wf.vars f.name).isSome →
      ∀ g ∈ wf.stack, g.name ++ "_size" = f.name → f.index + 1 < f.valuesNum ∧
        (loopVar f.caller f.svalues f.ivalues (f.index + 1)).svalue = toString g.valuesNum := by
  unfold endforImpl
  split
  case h_1 hf =>
    refine ⟨fun _ f hf' => ?_, fun _ => h⟩
    rw [hf] at hf'
    cases hf'
  case h_2 f hf =>
    have hone {P : Frame → Prop} : (∀ f', findFrame wf (wf.tasks i).parent = some f' → P f') ↔ P f := by
      refine ⟨fun hall => hall f hf, fun hp f' hf' => ?_⟩
      cases hf.symm.trans hf'
      exact hp
    rw [hone]
    split_ifs with hv hmore
    · refine ⟨fun _ hv' => ?_, fun _ => sizesRight_nextIndex h _⟩
      rw [Option.isNone_iff_eq_none] at hv
      rw [hv] at hv'
      cases hv'
    · rw [sizesRight_congr (scopes_newIteration _ i f.caller f), sizesRight_rebind_iff h]
      simp only [hmore, true_and]
      rw [Bool.not_eq_true, Option.isNone_eq_false_iff] at hv
      exact ⟨fun hall _ => hall, fun hall => hall hv⟩
    · rw [sizesRight_leaveLoop_iff h hf]
      simp only [hmore, false_and]
      rw [Bool.not_eq_true, Option.isNone_eq_false_iff] at hv
      exact ⟨fun hall _ => hall, fun hall => hall hv⟩

end Sizes

section Runs

variable {wf : Workflow}

theorem sizesRight_serveOperator_iff (h : SizesRight wf) (env : ServeEnv) (r : Request) :
    SizesRight (serveOperator env wf r).1 ↔
      (r.lightTaskId = none → wf.dropped = false → CarefulOperator env wf r.taskId) := by
  unfold serveOperator CarefulOperator
  dsimp only
  split
  case isTrue hout =>
    refine ⟨fun _ hl hd => ?_, fun _ => h⟩
    simp [hl, hd] at hout
  case isFalse hin =>
    rw [Bool.and_eq_true, not_and, Bool.not_eq_true, Bool.or_eq_false_iff, Option.isSome_eq_false_iff,
      Option.isNone_iff_eq_none] at hin
    have hserved {P : Prop} (hop : (wf.tasks r.taskId).operator.isFlowControl = true) :
        (r.lightTaskId = none → wf.dropped = false → P) ↔ P :=
      ⟨fun hp => hp (hin hop).1 (hin hop).2, fun hp _ _ => hp⟩
    have hall {P : Prop} (hp : P) : P ↔ (r.lightTaskId = none → wf.dropped = false → True) :=
      ⟨fun _ _ _ => trivial, fun _ => hp⟩
    cases hop : (wf.tasks r.taskId).operator with
    | other _ => exact hall h
    | set =>
      rw [hserved (by rw [hop]; rfl)]
      dsimp only
      split_ifs with hj
      · exact ⟨fun _ hj' => absurd (hj.symm.trans hj') Bool.noConfusion, fun _ => h⟩
      · rw [Bool.not_eq_true] at hj
        rw [forall_prop_of_true hj]
        exact sizesRight_setVars_iff h env.vars
    | input =>
      rw [hserved (by rw [hop]; rfl)]
      dsimp only
      split_ifs with hj ha
      · exact ⟨fun _ hj' => absurd (hj.symm.trans hj') Bool.noConfusion, fun _ => h⟩
      · rw [Bool.not_eq_true] at hj
        rw [forall_prop_of_true hj]
        exact sizesRight_setVars_iff h env.vars
      · rw [Bool.not_eq_true] at hj
        rw [forall_prop_of_true hj, sizesRight_congr (scopes_inputAction _ _ _)]
        exact sizesRight_setVars_iff h env.vars
    | wait =>
      dsimp only
      split_ifs
      · exact hall h
      · exact hall (sizesRight_waitImpl h _ _)
    | «for» =>
      rw [hserved (by rw [hop]; rfl)]
      dsimp only
      split_ifs with hj
      · exact ⟨fun _ hj' => absurd (hj.symm.trans hj') Bool.noConfusion, fun _ => h⟩
      · rw [Bool.not_eq_true] at hj
        rw [forall_prop_of_true hj]
        exact sizesRight_forImpl_iff h _ _
    | endfor =>
      rw [hserved (by rw [hop]; rfl), ← sizesRight_endforImpl_iff h]
      dsimp only
      split
      case h_1 heq => rw [heq]
      case h_2 heq => rw [heq]
      case h_3 heq => rw [heq]
    | «if» =>
      dsimp only
      split_ifs
      · exact hall h
      · exact hall ((sizesRight_congr (scopes_ifImpl wf _ _)).mpr h)
    | elseif =>
      dsimp only
      split_ifs
      · exact hall h
      · exact hall ((sizesRight_congr (scopes_ifImpl wf _ _)).mpr h)
    | «else» =>
      dsimp only
      split_ifs
      · exact hall h
      · exact hall ((sizesRight_congr (scopes_elseImpl wf _)).mpr h)
    | endif => exact hall h

theorem sizesRight_serve_iff (h : SizesRight wf) (env : ServeEnv) (r : Request) :
    SizesRight (serve env r wf).1 ↔
      (r.run = true → r.lightTaskId = none → wf.dropped = false → CarefulOperator env wf r.taskId) := by
  rw [← sizesRight_serveOperator_iff h]
  unfold serve
  split
  case isTrue hrun =>
    refine ⟨fun _ hrun' => ?_, fun _ => h⟩
    rw [hrun'] at hrun
    cases hrun
  case isFalse hrun =>
    rw [Bool.not_eq_true, Bool.not_eq_false'] at hrun
    rw [forall_prop_of_true hrun]
    generalize serveOperator env wf r = res
    obtain ⟨wf', target, served⟩ := res
    cases served with
    | ok => rfl
    | noResponse e =>
      dsimp only
      split <;> rfl
    | failed =>
      dsimp only
      split <;> rfl

/-- A step keeps the sizes right exactly if it is careful. -/
theorem sizesRight_step_iff (ophAutoRetry : Nat) (s : Sys) (e : Event) (h : SizesRight s.wf) :
    SizesRight (s.step ophAutoRetry e).wf ↔ Careful s e := by
  have hnotify (env : NotifyEnv) (n : Notification) : SizesRight (notify ophAutoRetry env n s.wf).1 :=
    (sizesRight_congr (scopes_notify ophAutoRetry env s.wf n)).mpr h
  cases e with
  | external n env => exact ⟨fun _ => trivial, fun _ => hnotify env n⟩
  | handle k env =>
    have hserve {t : Todo} (hk : s.todo[k]? = some t) (ht : ∀ r, t ≠ .serve r) : Careful s (.handle k env) := by
      intro r hr
      cases hk.symm.trans hr
      exact absurd rfl (ht r)
    cases hk : s.todo[k]? with
    | none =>
      rw [Sys.step_handle_none ophAutoRetry hk]
      refine ⟨fun _ r hr => ?_, fun _ => h⟩
      rw [hk] at hr
      cases hr
    | some t =>
      rw [Sys.step_handle_some ophAutoRetry hk]
      cases t with
      | execute l =>
        exact ⟨fun _ => hserve hk (by rintro r ⟨⟩),
          fun _ => (sizesRight_congr (scopes_execute s.wf ophAutoRetry env.exec l)).mpr h⟩
      | serve r =>
        refine (sizesRight_serve_iff h env.serve r).trans ⟨fun hall r' hr' => ?_, fun hall => hall r hk⟩
        cases hk.symm.trans hr'
        exact hall
      | special n => exact ⟨fun _ => hserve hk (by rintro r ⟨⟩), fun _ => hnotify env.notify n⟩
      | notify n => exact ⟨fun _ => hserve hk (by rintro r ⟨⟩), fun _ => hnotify env.notify n⟩

/--
Along a run every serial loop that is entered has its number of iterations among the variables until it ends exactly if
the steps are careful: when a loop is entered, in particular, the variable has to be absent or to have the right value.
-/
theorem sizesRight_run_iff {wf₀ : Workflow} (h₀ : wf₀.Submittable) (ophAutoRetry : Nat) (tasksIndexes : List Nat)
    (es : List Event) :
    (∀ es', es' <+: es → SizesRight ((wf₀.submit tasksIndexes).run ophAutoRetry es').wf) ↔
      Lib.Along (Sys.step ophAutoRetry) Careful (wf₀.submit tasksIndexes) es := by
  have hinit : SizesRight (wf₀.submit tasksIndexes).wf := by
    intro f hf
    rw [Workflow.submit, h₀.stack] at hf
    cases hf
  exact Lib.along_iff_of_prefixes (fun s : Sys => SizesRight s.wf) hinit (sizesRight_step_iff ophAutoRetry)

/-- A loop over two values that is the only one over its variable. -/
theorem sizesRight_run_iff_loop :
    ∃ wf₀ : Workflow, wf₀.Submittable ∧
      Lib.Along (Sys.step 0) Careful (wf₀.submit wf₀.initialTasks) (loopRun none) := by
  obtain ⟨wf₀, h₀, hp⟩ := @submittable_of_checkAccepted loopRequest (fun wf₀ =>
    ∀ es' ∈ (loopRun none).inits, SizesRight ((wf₀.submit wf₀.initialTasks).run 0 es').wf) (by decide +kernel)
  refine ⟨wf₀, h₀, (sizesRight_run_iff h₀ 0 wf₀.initialTasks (loopRun none)).mp fun es' hes => ?_⟩
  exact of_decide_eq_true hp es' ((List.mem_inits _ _).mpr hes)

/-- Two loops over the same variable, one after the other. -/
def twoLoops : LoadedWorkflow :=
  loadRequest [requestTask "F" .for [] 1, requestTask "D" .endfor ["F"] 1, requestTask "G" .for ["D"] 1,
      requestTask "E" .endfor ["G"] 1] (by
    simp only [List.forall_mem_cons, List.not_mem_nil, false_implies, implies_true, and_true]
    exact ⟨requestTask_fresh .., requestTask_fresh .., requestTask_fresh .., requestTask_fresh ..⟩)

/-- The first loop has one value, the second one has two. -/
def twoLoopsRun : List Event :=
  [.handle 0 { exec := .plain },
    .handle 0 { exec := .plain, serve := { forArgs := some { twoValues with svalues := some ["x"] } } },
    .handle 0 { exec := .plain }, .handle 0 { exec := .plain }, .handle 0 { exec := .plain },
    .handle 0 { exec := .plain }, .handle 0 { exec := .plain },
    .handle 0 { exec := .plain, serve := { forArgs := some twoValues } }]

/-- The second loop has been entered with two values, and the variable still says one. -/
theorem not_sizesRight_twoLoops :
    ∃ wf₀ wf frame, AtIteration twoLoops twoLoopsRun 3 wf₀ wf frame ∧ frame.valuesNum = 2 ∧
      (wf.vars (frame.name ++ "_size")).map Var.svalue = some "1" ∧ ¬ SizesRight wf := by
  obtain ⟨wf₀, wf, frame, h, hp⟩ := @atIteration_of_check twoLoops twoLoopsRun 3 (fun wf frame =>
    frame.valuesNum = 2 ∧ (wf.vars (frame.name ++ "_size")).map Var.svalue = some "1" ∧ ¬ SizesRight wf)
    (by decide +kernel)
  exact ⟨wf₀, wf, frame, h, of_decide_eq_true hp⟩

end Runs

end OphidiaWorkflow
