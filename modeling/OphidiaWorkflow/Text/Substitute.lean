import OphidiaWorkflow.Lib.Cut
import OphidiaWorkflow.Lib.Decimal
import OphidiaWorkflow.Setup.FlowControl

/-! `oph_workflow_var_substitute` and `oph_workflow_check_args`: references to variables are replaced by their
values. -/
namespace OphidiaWorkflow

open Lib

/-- `OPH_WORKFLOW_MAX_STRING` -/
def maxString : Nat := 2048

/-- What the substitution reads of the workflow, on behalf of one task or light task. -/
structure Scope where
  taskVars : String → Option Var := fun _ => none
  vars : String → Option Var := fun _ => none
  isChildOf : Int → Bool := fun _ => false
  markerid : Int := 0
  ncores : Int := 0
  nhosts : Int := 0
  arguments : List Argument := []

/-- The scope of task `i`. -/
def Workflow.scope (wf : Workflow) (i : Nat) (ncores nhosts : Int) : Scope where
  taskVars := (wf.tasks i).vars
  vars := wf.vars
  isChildOf caller := OphidiaWorkflow.isChildOf wf i (wf.tasksNum + 1) caller.toNat
  markerid := (wf.tasks i).markerid
  ncores := ncores
  nhosts := nhosts
  arguments := (wf.tasks i).arguments

/-- `undefined`: a null or uninitialised variable is read, or a buffer is left. -/
inductive SubstError
  | badVariable | undefined
  deriving DecidableEq, Repr

/-- `OPH_WORKFLOW_SEPARATORS` -/
def separators : List Char := [';', '=', '|', ',', ':', '@', '&', '{', '}']

/-- The loop of `oph_workflow_check_args` on the arguments; `j` is the index of the first one. -/
def checkArguments (key : List Char) (currentArg : Option (List Char)) :
    Nat → List Argument → Except SubstError (Option (List Char × Int))
  | _, [] => .ok none
  | j, a :: as =>
    if currentArg = some (a.key.toList.take (maxString - 1)) then checkArguments key currentArg (j + 1) as
    -- the upper case is written over as many characters as the key has
    else if maxString ≤ a.key.length then .error .undefined
    else if key = a.key.toList.map Char.toUpper then
      match a.value with
      | none => .error .undefined
      | some v => .ok (some (v.toList, j))
    else checkArguments key currentArg (j + 1) as

/-- `oph_workflow_check_args`: a value and the index of its argument, `-1` for the known parameters. -/
def checkArgs (sc : Scope) (key : List Char) (currentArg : Option (List Char)) :
    Except SubstError (Option (List Char × Int)) :=
  if key = "OPH_MARKER_ID".toList then .ok (some (decimal sc.markerid, -1))
  else if key = "NCORES".toList then .ok (some (decimal sc.ncores, -1))
  else if key = "NHOST".toList then .ok (some (decimal sc.nhosts, -1))
  else checkArguments key currentArg 0 sc.arguments

/-- A character of a name: any but the separators in brackets, else a character of an identifier. -/
def nameChar (bracket first : Bool) (c : Char) : Bool :=
  c ∉ separators && (bracket || c = '_' || c.isAlpha || (!first && c.isDigit))

/-- The name after a prefix: whether it is in brackets, its text, and what follows. -/
def scanName (s : List Char) : Bool × List Char × List Char :=
  match s with
  | '{' :: s => (true, s.takeWhile (nameChar true false), s.dropWhile (nameChar true false))
  | c :: s =>
    if nameChar false true c then (false, c :: s.takeWhile (nameChar false false), s.dropWhile (nameChar false false))
    else (false, [], c :: s)
  | [] => (false, [], [])

/-- A reference found in a text: what stands before it, its prefix, its name, and what follows the name. -/
structure Reference where
  before : List Char
  sign : Char
  bracket : Bool
  name : List Char
  rest : List Char
  deriving DecidableEq, Repr

/-- The `do` loop: a name that is followed by a prefix gives way to the reference that starts there. -/
def embedded : Nat → List Char → Char → List Char → Reference
  | 0, before, sign, s => ⟨before, sign, (scanName s).1, (scanName s).2.1, (scanName s).2.2⟩
  | fuel + 1, before, sign, s =>
    match scanName s with
    | (bracket, name, c :: rest) =>
      if c = '@' ∨ c = '&' then
        embedded fuel (before ++ sign :: ((if bracket then ['{'] else []) ++ name)) c rest
      else ⟨before, sign, bracket, name, c :: rest⟩
    | (bracket, name, []) => ⟨before, sign, bracket, name, []⟩

/-- The first `@` from `skipUntil` on, else the first `&` of the whole text, and the reference it leads to. -/
def findReference (skipUntil : Nat) (s : List Char) : Option Reference :=
  match cutAt '@' (s.drop skipUntil) with
  | some (before, rest) => some (embedded s.length (s.take skipUntil ++ before) '@' rest)
  | none => (cutAt '&' s).map fun p => embedded s.length p.1 '&' p.2

/-- The key of the pair that holds the reference, from the last `;` before it to the next `=`. -/
def currentKey (r : Reference) : Option (List Char) :=
  let pair := (r.before.reverse.takeWhile (· ≠ ';')).reverse
  (cutAt '=' (pair ++ r.sign :: ((if r.bracket then ['{'] else []) ++ r.name ++ r.rest))).map Prod.fst

/-- The local variables that survive a round: the text, `skip_until`, and `index` (`none` before it is first set). -/
structure SubstState where
  text : List Char
  skipUntil : Nat := 0
  index : Option Int := none
  deriving DecidableEq, Repr

/-- What the name of a reference denotes: `return_error`, with what is put in its place. -/
inductive Denoted
  | var (v : Var)
  /-- `return_error < 0`: an argument, or nothing at all for an empty name. -/
  | argument (value : Option (List Char))
  | unknown
  deriving DecidableEq, Repr

/-- The lookup of a name; the second component is `index` afterwards. -/
def lookupName (sc : Scope) (skipArg : Option (List Char)) (r : Reference) (index : Option Int) :
    Except SubstError (Denoted × Option Int) :=
  if r.bracket && r.rest.head? != some '}' then .ok (.unknown, index)
  else if r.name = [] then .ok (.argument none, index)
  else
    match sc.taskVars (String.ofList r.name) with
    | some v => .ok (.var v, index)
    | none =>
      match (sc.vars (String.ofList r.name)).filter fun v => v.caller < 0 || sc.isChildOf v.caller with
      | some v => .ok (.var v, index)
      | none =>
        match checkArgs sc r.name (skipArg.or (currentKey r)) with
        | .error e => .error e
        | .ok (some (value, j)) => .ok (.argument (some value), some j)
        | .ok none => .ok (.unknown, some (-1))

/-- The text after the reference is replaced by `value`. -/
def Reference.replace (r : Reference) (value : List Char) : List Char :=
  r.before ++ value ++ (if r.bracket then r.rest.drop 1 else r.rest)

/-- One round of the `while` loop, on the reference it found. -/
def substRound (sc : Scope) (skipArg : Option (List Char)) (st : SubstState) (r : Reference) :
    Except SubstError SubstState :=
  match lookupName sc skipArg r st.index with
  | .error e => .error e
  | .ok (d, index) =>
    match d with
    | .unknown =>
      if r.sign = '@' then .ok { st with skipUntil := max st.skipUntil (r.before.length + 1), index := index }
      else .error .badVariable
    | .var v =>
      .ok { st with text := r.replace (if r.sign = '&' then decimal v.ivalue else v.svalue.toList),
                    index := index }
    | .argument value =>
      if r.sign = '&' then
        match index with
        | none => .error .undefined
        | some j =>
          if j < 0 then .error .badVariable else .ok { st with text := r.replace (decimal j), index := index }
      else
        match value with
        | none => .error .undefined
        | some value => .ok { st with text := r.replace value, index := index }

/-- `oph_workflow_var_substitute`, at most `fuel` rounds of it; `none` if they are not enough. -/
def varSubstitute (sc : Scope) (skipArg : Option (List Char)) :
    Nat → SubstState → Option (Except SubstError (List Char))
  | fuel, st =>
    -- a replacement before `skip_until` may have left it behind the end of the text
    if st.text.length < st.skipUntil then some (.error .undefined)
    else
      match findReference st.skipUntil st.text with
      | none => some (.ok st.text)
      | some r =>
        match fuel with
        | 0 => none
        | fuel + 1 =>
          match substRound sc skipArg st r with
          | .error e => some (.error e)
          | .ok st => varSubstitute sc skipArg fuel st

theorem findReference_eq_none {s : List Char} (h : '@' ∉ s ∧ '&' ∉ s) (n : Nat) : findReference n s = none := by
  have hd : '@' ∉ s.drop n := fun hm => h.1 (List.mem_of_mem_drop hm)
  rw [findReference, cutAt_eq_none hd, cutAt_eq_none h.2, Option.map_none]

theorem varSubstitute_of_no_prefix {s : List Char} (h : '@' ∉ s ∧ '&' ∉ s) (sc : Scope)
    (skipArg : Option (List Char)) (fuel : Nat) : varSubstitute sc skipArg fuel { text := s } = some (.ok s) := by
  rw [varSubstitute, if_neg (Nat.not_lt_zero _), findReference_eq_none h]

end OphidiaWorkflow
