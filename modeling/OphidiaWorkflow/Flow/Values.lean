import OphidiaWorkflow.Lib.Loops
import OphidiaWorkflow.Text.Substitute

/-!
The values of a loop: `oph_for_impl` with `oph_check_input_response`, which run a loop one iteration after the other,
and `oph_workflow_parallel_fco`, which unrolls it before the workflow starts.

Texts are C strings, one character for each byte.
-/
namespace OphidiaWorkflow.Values

open Lib

/-- `strcasecmp` -/
def sameKey (a b : List Char) : Bool := a.map Char.toLower = b.map Char.toLower

/-- The count of the values, made with `strchr`: a `|` starts another value unless the text ends there. -/
def countItems : List Char → Nat
  | [] => 1
  | [_] => 1
  | c :: d :: s => if c = '|' then countItems (d :: s) + 1 else countItems (d :: s)

/-- The arguments of the task and what both implementations ask of the rest of the program. The arguments are those left
by the pre-parsing of `oph_workflow_parallel_fco`, which comes before both: it writes the files that `input` or `src_path`
stands for into `values`. -/
structure LoopTask where
  arguments : List (List Char × List Char)
  scope : Scope := {}
  fuel : Nat := 0
  /-- `oph_extract_from_json`, on the responses of the tasks it depends on. -/
  extract : List Char → Option (List Char) := fun _ => none
  /-- The evaluation of the expressions `EVAL(...)` in a value. -/
  evaluate : List Char → List Char := id
  /-- `oph_subset_parse` and the loop that fills `ivalues`. -/
  counter : List Char → Nat → Option (List Int) := fun _ _ => none
  /-- The number of tasks between the head of the loop and its end. -/
  repliedNum : Nat := 1

/-- The values of the variables of the workflow. -/
abbrev LoopVars := List Char → Option (List Char)

/-- What becomes of the task; `undefined` if a null pointer is copied or a freed block is used. -/
inductive LoopOutcome
  | rejected
  | undefined
  | accepted (values : List (List Char)) (vars : LoopVars)

/-- The value of the first argument `key` that is neither empty nor `-`. -/
def givenArgument (args : List (List Char × List Char)) (key : List Char) : Option (List Char) :=
  (args.find? fun a => sameKey a.1 key && a.2 ≠ [] && a.2 ≠ ['-']).map Prod.snd

/-- The value of the first argument `key`. -/
def nameArgument (args : List (List Char × List Char)) : Option (List Char) :=
  (args.find? fun a => sameKey a.1 "key".toList).map Prod.snd

/-- The check of the name stops at the first character that no identifier has, and refuses the separators only. -/
def checkName : Bool → List Char → Bool
  | _, [] => true
  | first, c :: s =>
    if c = '_' || c.isAlpha || (!first && c.isDigit) then checkName false s else c ∉ separators

/-- The text into which a reference to several values is expanded: `hh` is the length of the last piece only. -/
def expandedValue (done : List (List Char)) (v : List Char) : List Char :=
  let p := done.foldl (fun p s => (p.1.take p.2 ++ s ++ ['|'], s.length + 1)) (([], 0) : List Char × Nat)
  p.1.take p.2 ++ v

/-- The pieces are written behind each other's ends, `size` bytes are there for them. -/
def fitsInto (size : Nat) (done : List (List Char)) (v : List Char) : Bool :=
  let p := done.foldl (fun p s => (p.1 && p.2 + s.length + 2 ≤ size, s.length + 1)) ((true, 0) : Bool × Nat)
  p.1 && p.2 + v.length + 1 ≤ size

inductive Scanned
  | values (l : List (List Char))
  | expansion (text : List Char)
  | undefined
  deriving DecidableEq, Repr

/-- The loop over the tokens in `oph_check_input_response`; `room` is the length of the argument. -/
def scanValues (extract : List Char → Option (List Char)) (room : Nat) :
    List (List Char) → List (List Char) → Scanned
  | done, [] => .values done
  | done, tok :: toks =>
    match extract (tok.take maxString) with
    | none => scanValues extract room (done ++ [tok.take maxString]) toks
    | some v =>
      if '|' ∉ v then scanValues extract room (done ++ [v]) toks
      -- with a token left, the loop goes on with the array it has freed
      else if toks = [] ∧ fitsInto (1 + room + v.length) done v then .expansion (expandedValue done v) else .undefined

/-- How `oph_check_input_response` ends. -/
inductive Checked
  | error
  | undefined
  | values (l : List (List Char))
  deriving DecidableEq, Repr

def Checked.list : Checked → Option (List (List Char))
  | values l => some l
  | _ => none

/-- The passes over the values. -/
def expandValues (extract : List Char → Option (List Char)) (evaluate : List Char → List Char) (room : Nat) :
    Nat → List Char → Option Checked
  | 0, _ => none
  | fuel + 1, s =>
    match scanValues extract room [] (tokens '|' s) with
    | .undefined => some .undefined
    | .expansion s => expandValues extract evaluate room fuel s
    | .values l => some (if l.length < countItems s then .error else .values (l.map evaluate))

/-- `oph_check_input_response` -/
def checkInputResponse (extract : List Char → Option (List Char)) (evaluate : List Char → List Char) (fuel : Nat)
    (arg : List Char) : Option Checked :=
  if arg = [] then some (.values []) else expandValues extract evaluate arg.length fuel arg

/-- `oph_workflow_var_substitute` on an argument. -/
def substArgument (t : LoopTask) (a : List Char × List Char) : Option (List Char × List Char) :=
  match varSubstitute t.scope (some a.1) t.fuel { text := a.2 } with
  | some (.ok s) => some (a.1, s)
  | _ => none

/-- The values of the index: those given, else the counters, else one iteration. -/
def loopValues (svalues : Option (List (List Char))) (ivalues : Option (List Int)) : List (List Char) :=
  match svalues, ivalues with
  | some l, _ => l
  | none, some (i :: l) => (i :: l).map decimal
  | none, _ => [decimal 1]

/-- The counters, if they are given. -/
def loopCounters (t : LoopTask) (svalues : Option (List (List Char))) (counter : Option (List Char)) :
    Option (Option (List Int)) :=
  match counter with
  | none => some none
  | some c => (t.counter c (svalues.elim 0 List.length)).map some

/-- The part that is the same in both: the counters, the name, and the sizes of the two lists. -/
def loopPlan (t : LoopTask) (name : Option (List Char)) (svalues : Option (List (List Char)))
    (counter : Option (List Char)) : Option (List Char × List (List Char)) := do
  let ivalues ← loopCounters t svalues counter
  let name ← name.filter (checkName true)
  guard (svalues.all fun l => ivalues.all fun is => is = [] || l = [] || is.length = l.length)
  some (name, loopValues svalues ivalues)

/-- The name of the variable that holds the size of the loop. -/
def sizeKey (name : List Char) : List Char := name ++ "_size".toList

/-- A variable is added unless it is there. -/
def addVar (vars : LoopVars) (key value : List Char) : LoopVars :=
  if (vars key).isSome then vars else Function.update vars key (some value)

/-- `oph_for_impl`, for a task that is not parallel. -/
def forImpl (t : LoopTask) (vars : LoopVars) : LoopOutcome :=
  match t.arguments.mapM (substArgument t) with
  | none => .rejected
  | some args =>
    match (givenArgument args "values".toList).map (checkInputResponse t.extract t.evaluate (t.fuel + 1)) with
    | some none => .undefined
    | some (some .undefined) => .undefined
    | some (some .error) => .rejected
    | svalues =>
      match loopPlan t (nameArgument args) (svalues.join.bind Checked.list) (givenArgument args "counter".toList) with
      | none => .rejected
      | some (name, values) =>
        -- the index cannot be stored if the workflow has a variable of that name
        if (addVar vars (sizeKey name) (decimal values.length) name).isSome then .rejected
        else .accepted values (addVar (addVar vars (sizeKey name) (decimal values.length)) name (values.headD []))

/-- `sizeof(oph_workflow_var)`: two integers and a pointer, aligned to eight bytes. -/
def varSize : Nat := 24

/-- The values in `oph_workflow_parallel_fco`: `strndup` is called on the null pointer once the tokens run out. -/
def parallelValues (s : List Char) : Option (List (List Char)) :=
  if (tokens '|' s).length < countItems s then none else some ((tokens '|' s).map (List.take maxString))

/-- The size of a parallel loop is stored only if there are tasks to copy. -/
def parallelVars (t : LoopTask) (vars : LoopVars) (name : List Char) (n : Nat) : LoopVars :=
  if t.repliedNum = 0 then vars
  -- the size of the structure, not that of the buffer, bounds the name
  else addVar vars ((sizeKey name).take (varSize - 1)) (decimal n)

/-- `oph_workflow_parallel_fco` on a parallel loop, from the end of the pre-parsing; the index goes to the tables of the
inner tasks, not to `vars`. -/
def parallelFor (t : LoopTask) (vars : LoopVars) : LoopOutcome :=
  match (givenArgument t.arguments "values".toList).map parallelValues with
  | some none => .undefined
  | svalues =>
    match loopPlan t (nameArgument t.arguments) svalues.join (givenArgument t.arguments "counter".toList) with
    | none => .rejected
    | some (name, values) => .accepted values (parallelVars t vars name values.length)

/-- The key, the values and the counter are what they say: no variables, references or expressions in them. -/
structure LoopTask.Plain (t : LoopTask) : Prop where
  noVariables : ∀ a ∈ t.arguments,
    sameKey a.1 "key".toList ∨ sameKey a.1 "values".toList ∨ sameKey a.1 "counter".toList → '@' ∉ a.2 ∧ '&' ∉ a.2
  noReferences : ∀ v ∈ givenArgument t.arguments "values".toList, ∀ tok ∈ tokens '|' v,
    t.extract (tok.take maxString) = none
  noExpressions : ∀ v ∈ givenArgument t.arguments "values".toList, ∀ tok ∈ tokens '|' v,
    t.evaluate (tok.take maxString) = tok.take maxString

/-- Both reject the task, or both run it over the same values and leave their number in the workflow. -/
def LoopsAgree (t : LoopTask) (vars : LoopVars) : Prop :=
  (forImpl t vars = .rejected ∧ parallelFor t vars = .rejected) ∨
    ∃ name values vars₁ vars₂, nameArgument t.arguments = some name ∧ forImpl t vars = .accepted values vars₁ ∧
      parallelFor t vars = .accepted values vars₂ ∧ vars₁ (sizeKey name) = some (decimal values.length) ∧
      vars₂ (sizeKey name) = some (decimal values.length)

/-- The text does not start with `|` and has no two of them in a row. -/
def Separated (s : List Char) : Prop := ('|' :: s).IsChain fun a b => a ≠ '|' ∨ b ≠ '|'

/-- The values of the task, as they stand between the separators. -/
def LoopTask.items (t : LoopTask) : Option (List (List Char)) :=
  (givenArgument t.arguments "values".toList).map fun v => (tokens '|' v).map (List.take maxString)

/-- What both make of the values. -/
def LoopTask.plan (t : LoopTask) : Option (List Char × List (List Char)) :=
  loopPlan t (nameArgument t.arguments) t.items (givenArgument t.arguments "counter".toList)

/--
No value is empty and, if the key, the counter and the sizes are right, the substitution fails on no argument, the
workflow has no variable with the name of the index, and that of the size is there with its value or can be added by
both.
-/
def LoopTask.Regular (t : LoopTask) (vars : LoopVars) : Prop :=
  (∀ v ∈ givenArgument t.arguments "values".toList, Separated v) ∧
    ∀ name values, t.plan = some (name, values) →
      (∀ a ∈ t.arguments, (substArgument t a).isSome) ∧ vars name = none ∧
        (vars (sizeKey name) = some (decimal values.length) ∨
          (vars (sizeKey name) = none ∧ t.repliedNum ≠ 0 ∧ (sizeKey name).length < varSize))

section Items

variable {c x : Char} {s : List Char}

/-- The number of values after the first piece. -/
def restItems (c : Char) (s : List Char) : Nat := ((s.splitOn c).tail.filter fun t => !t.isEmpty).length

theorem length_tokens_cons_of_ne (h : x ≠ c) : (tokens c (x :: s)).length = restItems c s + 1 := by
  rw [tokens, restItems, List.splitOn, List.splitOn, List.splitOnP_cons_eq_if_modifyHead,
    if_neg (by simpa using h)]
  cases hs : s.splitOnP (· == c) with
  | nil => exact absurd hs (List.splitOnP_ne_nil _ _)
  | cons u us => rfl

theorem restItems_cons_self (c : Char) (s : List Char) : restItems c (c :: s) = (tokens c s).length := by
  rw [tokens, restItems, List.splitOn, List.splitOn, List.splitOnP_cons_eq_if_modifyHead,
    if_pos (beq_self_eq_true c)]
  rfl

theorem restItems_cons_of_ne (h : x ≠ c) : restItems c (x :: s) = restItems c s := by
  rw [restItems, restItems, List.splitOn, List.splitOn, List.splitOnP_cons_eq_if_modifyHead,
    if_neg (by simpa using h)]
  cases hs : s.splitOnP (· == c) with
  | nil => rfl
  | cons u us => rfl

/-- There are at most as many values as counted, and as many exactly if none is empty; the second part is about a text
that goes on after a character of a value. -/
theorem length_tokens_spec (d : Char) (s : List Char) :
    ((tokens '|' (d :: s)).length ≤ countItems (d :: s) ∧
      ((tokens '|' (d :: s)).length = countItems (d :: s) ↔ Separated (d :: s))) ∧
    (restItems '|' (d :: s) + 1 ≤ countItems (d :: s) ∧
      (restItems '|' (d :: s) + 1 = countItems (d :: s) ↔ (d :: s).IsChain fun a b => a ≠ '|' ∨ b ≠ '|')) := by
  induction s generalizing d with
  | nil =>
    by_cases hd : d = '|'
    · subst hd
      rw [tokens_cons_self, restItems_cons_self, show tokens '|' [] = [] from rfl]
      simp [countItems, Separated]
    · rw [length_tokens_cons_of_ne hd, restItems_cons_of_ne hd, show restItems '|' [] = 0 from rfl]
      simp [countItems, Separated, hd]
  | cons e s ih =>
    obtain ⟨⟨hle, heq⟩, hrle, hreq⟩ := ih e
    by_cases hd : d = '|'
    · subst hd
      rw [tokens_cons_self, restItems_cons_self, countItems, if_pos rfl]
      refine ⟨⟨by omega, iff_of_false (by omega) ?_⟩, by omega, ?_⟩
      · intro hs
        have hhead := (List.isChain_cons_cons.mp hs).1
        simp at hhead
      · rw [Nat.add_right_cancel_iff, heq]
        exact Iff.rfl
    · have hchain : Separated (d :: e :: s) ↔ (d :: e :: s).IsChain fun a b => a ≠ '|' ∨ b ≠ '|' := by
        rw [Separated, List.isChain_cons_cons]
        simp [hd]
      have htail : ((d :: e :: s).IsChain fun a b => a ≠ '|' ∨ b ≠ '|') ↔
          (e :: s).IsChain fun a b => a ≠ '|' ∨ b ≠ '|' := by
        rw [List.isChain_cons_cons]
        simp [hd]
      rw [length_tokens_cons_of_ne hd, restItems_cons_of_ne hd, countItems, if_neg hd, hchain, htail]
      exact ⟨⟨hrle, hreq⟩, hrle, hreq⟩

theorem length_tokens_lt_iff (h : s ≠ []) : (tokens '|' s).length < countItems s ↔ ¬ Separated s := by
  cases s with
  | nil => exact absurd rfl h
  | cons d s =>
    obtain ⟨⟨hle, heq⟩, -⟩ := length_tokens_spec d s
    rw [← heq]
    omega

end Items

section Agreement

variable {t : LoopTask} {vars : LoopVars} {name : List Char} {values : List (List Char)}

theorem substArgument_of_no_prefix {a : List Char × List Char} (h : '@' ∉ a.2 ∧ '&' ∉ a.2) :
    substArgument t a = some a := by
  rw [substArgument, varSubstitute_of_no_prefix h]

theorem fst_of_substArgument {a b : List Char × List Char} (h : substArgument t a = some b) : b.1 = a.1 := by
  unfold substArgument at h
  split at h
  · cases h
    rfl
  · cases h

theorem find?_of_subst {p : List Char × List Char → Bool} {R : List Char → Prop} {l l' : List (List Char × List Char)}
    (hp : ∀ a, p a = true → R a.1) (hl : ∀ a ∈ l, R a.1 → substArgument t a = some a)
    (h : List.Forall₂ (fun a b => substArgument t a = some b) l l') : l'.find? p = l.find? p := by
  induction h with
  | nil => rfl
  | @cons a b _ _ hab _ ih =>
    rw [List.find?_cons, List.find?_cons, ih fun x hx => hl x (List.mem_cons_of_mem _ hx)]
    by_cases hR : R a.1
    · have hself := hl a List.mem_cons_self hR
      rw [hab] at hself
      rw [Option.some.inj hself]
    · have ha : p a = false := Bool.eq_false_iff.mpr fun hpa => hR (hp a hpa)
      have hb : p b = false := Bool.eq_false_iff.mpr fun hpb => hR (fst_of_substArgument hab ▸ hp b hpb)
      rw [ha, hb]

/-- The keys of the arguments that a loop is about. -/
def LoopKey (k : List Char) : Prop :=
  sameKey k "key".toList ∨ sameKey k "values".toList ∨ sameKey k "counter".toList

theorem givenArgument_ne_nil {args : List (List Char × List Char)} {k v : List Char}
    (h : givenArgument args k = some v) : v ≠ [] := by
  obtain ⟨a, ha, rfl⟩ := Option.map_eq_some_iff.mp h
  have hp := List.find?_some ha
  simp only [Bool.and_eq_true, decide_eq_true_iff] at hp
  exact hp.1.2

theorem LoopTask.Plain.arguments (h : t.Plain) {l : List (List Char × List Char)}
    (hl : t.arguments.mapM (substArgument t) = some l) :
    nameArgument l = nameArgument t.arguments ∧
      givenArgument l "values".toList = givenArgument t.arguments "values".toList ∧
      givenArgument l "counter".toList = givenArgument t.arguments "counter".toList := by
  have hself (a : List Char × List Char) (ha : a ∈ t.arguments) (hk : LoopKey a.1) : substArgument t a = some a :=
    substArgument_of_no_prefix (h.noVariables a ha hk)
  have hl := mapM_eq_some_iff.mp hl
  have hname : ∀ a : List Char × List Char, sameKey a.1 "key".toList = true → LoopKey a.1 := fun a ha => .inl ha
  unfold nameArgument givenArgument
  refine ⟨congrArg _ (find?_of_subst hname hself hl), congrArg _ (find?_of_subst (fun a ha => ?_) hself hl),
    congrArg _ (find?_of_subst (fun a ha => ?_) hself hl)⟩
  · rw [Bool.and_eq_true, Bool.and_eq_true] at ha
    exact .inr (.inl ha.1.1)
  · rw [Bool.and_eq_true, Bool.and_eq_true] at ha
    exact .inr (.inr ha.1.1)

theorem scanValues_of_no_reference {extract : List Char → Option (List Char)} {room : Nat} {toks : List (List Char)}
    (h : ∀ tok ∈ toks, extract (tok.take maxString) = none) (done : List (List Char)) :
    scanValues extract room done toks = .values (done ++ toks.map (List.take maxString)) := by
  induction toks generalizing done with
  | nil => rw [scanValues, List.map_nil, List.append_nil]
  | cons tok toks ih =>
    rw [scanValues, h tok List.mem_cons_self]
    show scanValues extract room (done ++ [tok.take maxString]) toks = _
    rw [ih fun tok htok => h tok (List.mem_cons_of_mem _ htok), List.append_assoc]
    rfl

theorem LoopTask.Plain.checkInputResponse (h : t.Plain) {v : List Char}
    (hv : givenArgument t.arguments "values".toList = some v) (fuel : Nat) :
    checkInputResponse t.extract t.evaluate (fuel + 1) v =
      some (if (tokens '|' v).length < countItems v then .error else .values ((tokens '|' v).map (List.take maxString))) := by
  rw [Values.checkInputResponse, if_neg (givenArgument_ne_nil hv), expandValues,
    scanValues_of_no_reference (h.noReferences v hv)]
  show some (if ([] ++ (tokens '|' v).map (List.take maxString)).length < countItems v then _ else _) = _
  rw [List.nil_append, List.length_map, List.map_map]
  congr 3
  exact List.map_congr_left fun tok htok => h.noExpressions v hv tok htok

theorem LoopTask.Plain.forImpl_eq (h : t.Plain)
    (hs : ∀ v ∈ givenArgument t.arguments "values".toList, Separated v) :
    forImpl t vars = if (t.arguments.mapM (substArgument t)).isSome then
      match t.plan with
      | none => .rejected
      | some (name, values) =>
        if (addVar vars (sizeKey name) (decimal values.length) name).isSome then .rejected
        else .accepted values (addVar (addVar vars (sizeKey name) (decimal values.length)) name (values.headD []))
      else .rejected := by
  unfold forImpl
  cases hl : t.arguments.mapM (substArgument t) with
  | none => rfl
  | some l =>
    obtain ⟨hname, hvalues, hcounter⟩ := h.arguments hl
    simp only [hname, hvalues, hcounter, Option.isSome_some, if_true]
    unfold LoopTask.plan LoopTask.items
    cases hv : givenArgument t.arguments "values".toList with
    | none => rfl
    | some v =>
      have hlt : ¬ (tokens '|' v).length < countItems v := by
        rw [length_tokens_lt_iff (givenArgument_ne_nil hv), not_not]
        exact hs v hv
      rw [Option.map_some, h.checkInputResponse hv, if_neg hlt]
      rfl

theorem parallelFor_eq (hs : ∀ v ∈ givenArgument t.arguments "values".toList, Separated v) :
    parallelFor t vars = match t.plan with
      | none => .rejected
      | some (name, values) => .accepted values (parallelVars t vars name values.length) := by
  unfold parallelFor LoopTask.plan LoopTask.items
  cases hv : givenArgument t.arguments "values".toList with
  | none => rfl
  | some v =>
    have hlt : ¬ (tokens '|' v).length < countItems v := by
      rw [length_tokens_lt_iff (givenArgument_ne_nil hv), not_not]
      exact hs v hv
    rw [Option.map_some, parallelValues, if_neg hlt]
    rfl

/-- With an empty value the parallel implementation copies the null pointer. -/
theorem parallelFor_of_not_separated {v : List Char} (hv : givenArgument t.arguments "values".toList = some v)
    (hs : ¬ Separated v) : parallelFor t vars = .undefined := by
  unfold parallelFor
  rw [hv, Option.map_some, parallelValues, if_pos ((length_tokens_lt_iff (givenArgument_ne_nil hv)).mpr hs)]

theorem name_of_plan (h : t.plan = some (name, values)) : nameArgument t.arguments = some name := by
  unfold LoopTask.plan loopPlan at h
  obtain ⟨ivalues, -, h⟩ := Option.bind_eq_some_iff.mp h
  obtain ⟨n, hn, h⟩ := Option.bind_eq_some_iff.mp h
  obtain ⟨-, -, h⟩ := Option.bind_eq_some_iff.mp h
  cases h
  exact (Option.filter_eq_some_iff.mp hn).1

theorem sizeKey_ne (name : List Char) : sizeKey name ≠ name := by
  intro h
  have := congrArg List.length h
  rw [sizeKey, List.length_append] at this
  have : ("_size".toList).length = 5 := rfl
  omega

theorem addVar_self {key value : List Char} :
    addVar vars key value key = some ((vars key).getD value) := by
  unfold addVar
  cases hk : vars key with
  | none =>
    rw [if_neg (by decide), Function.update_self]
    rfl
  | some v =>
    rw [if_pos (by rfl), hk]
    rfl

theorem addVar_of_ne {key key' value : List Char} (h : key' ≠ key) : addVar vars key value key' = vars key' := by
  unfold addVar
  split
  · rfl
  · rw [Function.update_of_ne h]

theorem take_sizeKey_eq_iff : (sizeKey name).take (varSize - 1) = sizeKey name ↔ (sizeKey name).length < varSize := by
  rw [List.take_eq_self_iff]
  show _ ≤ 23 ↔ _ < 24
  omega

theorem getD_eq_iff {o : Option (List Char)} {n : List Char} :
    some (o.getD n) = some n ↔ o = some n ∨ o = none := by
  cases o with
  | none => simp
  | some m => simp

theorem parallelVars_sizeKey {n : Nat} :
    parallelVars t vars name n (sizeKey name) = some (decimal n) ↔
      vars (sizeKey name) = some (decimal n) ∨
        (vars (sizeKey name) = none ∧ t.repliedNum ≠ 0 ∧ (sizeKey name).length < varSize) := by
  unfold parallelVars
  split
  · next h0 => simp [h0]
  · next h0 =>
    by_cases hfit : (sizeKey name).length < varSize
    · rw [take_sizeKey_eq_iff.mpr hfit, addVar_self, getD_eq_iff]
      simp [h0, hfit]
    · have hne : sizeKey name ≠ (sizeKey name).take (varSize - 1) := fun he => hfit (take_sizeKey_eq_iff.mp he.symm)
      rw [addVar_of_ne hne]
      simp [hfit]

end Agreement

/-- A loop over the values in `v`. -/
def loopOver (v : String) : LoopTask where
  arguments := [("key".toList, "i".toList), ("values".toList, v.toList)]

theorem plain_loopOver {v : String} (h : '@' ∉ v.toList ∧ '&' ∉ v.toList) : (loopOver v).Plain where
  noVariables := by
    intro a ha _
    rcases List.mem_cons.mp ha with rfl | ha
    · decide
    · cases List.mem_singleton.mp ha
      exact h
  noReferences _ _ _ _ := rfl
  noExpressions _ _ _ _ := rfl

end OphidiaWorkflow.Values
