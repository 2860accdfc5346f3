import OphidiaWorkflow.Request.Reload
import OphidiaWorkflow.Text.Query

/-!
`oph_workflow_command_to_json`: a command `key=value;key=value;...` becomes a request with one task, for
`oph_workflow_load`.
-/
namespace OphidiaWorkflow.Request

open Json Lib

/-- `OPH_MAX_STRING_SIZE` and `OPH_MAX_PROGRAM_SIZE` -/
def maxStringSize : Nat := 4096
def maxProgramSize : Nat := 1048576

/-- `undefined`: a null character is written behind a buffer. -/
inductive CommandError
  | exit (code : ExitCode)
  | undefined
  deriving DecidableEq, Repr

/-- What `snprintf` leaves of a text in a buffer. -/
def snprintf (size : Nat) (s : List Char) : List Char := s.take (size - 1)

/-- `strncat` with what is left of a buffer of `OPH_MAX_PROGRAM_SIZE`, if that is more than one character. -/
def strncat (buffer s : List Char) : Option (List Char) :=
  if maxProgramSize - buffer.length ≤ 1 then some buffer
  else if s.length < maxProgramSize - buffer.length then some (buffer ++ s)
  else none

def operatorKey : List Char := "operator".toList

/-- The keys that become members of the request: `OPH_ARG_NCORES`, `OPH_ARG_MODE`, `OPH_ARG_SESSIONID` and
`OPH_ARG_CALLBACK_URL`. -/
def headerKeys : List (List Char) :=
  ["ncores".toList, "exec_mode".toList, "sessionid".toList, "callback_url".toList]

/-- `"key":"value",` -/
def headerText (p : List Char × List Char) : List Char := inQuotes p.1 ++ ':' :: (inQuotes p.2 ++ [','])

/-- `key=value` -/
def pairText (p : List Char × List Char) : List Char := p.1 ++ '=' :: p.2

/-- What stands before the arguments. -/
def argumentsOpening : List Char := ",\"arguments\":[".toList

/-- `operator`, `header` and `arguments`. -/
structure Buffers where
  operator : Option (List Char) := none
  header : List Char := []
  arguments : List Char := []

/-- One round of the loop over the arguments of the command. -/
def Buffers.add (b : Buffers) (p : List Char × List Char) : Option Buffers :=
  if p.1 = operatorKey then some { b with operator := some p.2 }
  else if p.1 ∈ headerKeys then
    (strncat b.header (snprintf maxStringSize (headerText p))).map fun header => { b with header }
  else if b.arguments = [] then
    some { b with arguments := snprintf maxProgramSize (argumentsOpening ++ inQuotes (pairText p)) }
  else
    (strncat b.arguments (snprintf maxStringSize (',' :: inQuotes (pairText p)))).map fun arguments =>
      { b with arguments }

/-- The loop over the arguments. -/
def commandLoop : Nat → Pairs → Buffers → Except CommandError Buffers
  | 0, _, b => .ok b
  | _ + 1, [], _ => .error (.exit .genericError)
  | n + 1, p :: args, b => (b.add p).elim (.error .undefined) (commandLoop n args)

/-- `BASIC_JSON_STRING` -/
def basicJson (name header task operator arguments : List Char) : List Char :=
  "\x7b  \"name\":\"".toList ++ (name ++ ("\",  \"author\":\"Ophidia Server\",  \"abstract\":\"".toList ++
    ("This workflow is automatically generated by Ophidia Server.\",  ".toList ++ (header ++
    ("  \"tasks\":[           \x7b               \"name\":\"".toList ++ (task ++
    ("\",               \"operator\":\"".toList ++ (operator ++ ("\"               ".toList ++ (arguments ++
    "           \x7d          ]\x7d".toList))))))))))

/-- `oph_workflow_command_to_json` -/
def commandToJson (command : List Char) : Except CommandError (List Char) :=
  match parseQueryArgs command with
  | none => .error (.exit .badParamError)
  | some (args, counter) =>
    match commandLoop counter args {} with
    | .error e => .error e
    | .ok b =>
      match b.operator with
      | none => .error (.exit .badParamError)
      | some operator =>
        match if b.arguments = [] then some [] else strncat b.arguments [']'] with
        | none => .error .undefined
        | some arguments => .ok (snprintf maxProgramSize (basicJson operator b.header operator operator arguments))

/-! ## The request for a command -/

/-- The operator of the command: the last one counts. -/
def operatorOf (ps : Pairs) : Option (List Char) := (values operatorKey ps).getLast?

/-- The pairs that become settings of the workflow. -/
def settingsOf (ps : Pairs) : Pairs := ps.filter fun p => p.1 ∈ headerKeys

/-- The pairs that become arguments of the task. -/
def argumentsOf (ps : Pairs) : Pairs := ps.filter fun p => p.1 ≠ operatorKey ∧ p.1 ∉ headerKeys

/-- The arguments as they are printed, without the closing bracket. -/
def openArguments : Pairs → List Char
  | [] => []
  | p :: as => argumentsOpening ++ (inQuotes (pairText p) ++ as.flatMap fun q => ',' :: inQuotes (pairText q))

/-- The request for a command, if no buffer is too small. -/
def requestText (op : List Char) (ps : Pairs) : List Char :=
  basicJson op ((settingsOf ps).flatMap headerText) op op
    (if argumentsOf ps = [] then [] else openArguments (argumentsOf ps) ++ [']'])

/-- The pieces of the request fit the buffers. -/
structure Fits (op : List Char) (ps : Pairs) : Prop where
  settings : ∀ p ∈ settingsOf ps, (headerText p).length < maxStringSize
  arguments : ∀ p ∈ (argumentsOf ps).tail, (inQuotes (pairText p)).length + 1 < maxStringSize
  request : (requestText op ps).length < maxProgramSize

/-- The texts of the request are read as they stand. -/
structure Readable (op : List Char) (ps : Pairs) : Prop where
  operator : Verbatim op
  settings : ∀ p ∈ settingsOf ps, Verbatim p.2
  arguments : ∀ p ∈ argumentsOf ps, Verbatim (pairText p)

/-- The entry of the only task. -/
def taskJson (op : List Char) (as : Pairs) : Json :=
  object ([("name", string op), ("operator", string op)] ++
    if as = [] then [] else [("arguments", array (as.map fun p => string (pairText p)))])

/-- The texts of the request, apart from those of the task. -/
def headerPairs (op : List Char) (ps : Pairs) : Pairs :=
  ("name".toList, op) :: ("author".toList, "Ophidia Server".toList) ::
    ("abstract".toList, "This workflow is automatically generated by Ophidia Server.".toList) :: settingsOf ps

/-- What the request says. -/
def commandJson (op : List Char) (ps : Pairs) : Json :=
  object ((headerPairs op ps).map (fun p => (String.ofList p.1, string p.2)) ++
    [("tasks", array [taskJson op (argumentsOf ps)])])

section Buffers

variable {op buffer s command : List Char} {p : List Char × List Char} {ps pre as bs : Pairs} {size n : Nat}

theorem snprintf_eq (h : s.length < size) : snprintf size s = s := List.take_of_length_le (by omega)

theorem strncat_eq (h : buffer.length + s.length < maxProgramSize) : strncat buffer s = some (buffer ++ s) := by
  unfold strncat
  split
  · have hs : s = [] := List.eq_nil_of_length_eq_zero (by omega)
    rw [hs, List.append_nil]
  · rw [if_pos (by omega)]

/-- The buffers after the loop. -/
def buffersOf (ps : Pairs) : Buffers :=
  ⟨operatorOf ps, (settingsOf ps).flatMap headerText, openArguments (argumentsOf ps)⟩

theorem operatorOf_concat (pre : Pairs) (p : List Char × List Char) :
    operatorOf (pre ++ [p]) = if p.1 = operatorKey then some p.2 else operatorOf pre := by
  unfold operatorOf
  rw [values_append]
  split
  · next h => rw [values_cons_self h, values_nil, List.getLast?_concat]
  · next h => rw [values_cons_ne h, values_nil, List.append_nil]

theorem settingsOf_append (pre ps : Pairs) : settingsOf (pre ++ ps) = settingsOf pre ++ settingsOf ps :=
  List.filter_append ..

theorem argumentsOf_append (pre ps : Pairs) : argumentsOf (pre ++ ps) = argumentsOf pre ++ argumentsOf ps :=
  List.filter_append ..

theorem openArguments_append (h : as ≠ []) (bs : Pairs) :
    openArguments (as ++ bs) = openArguments as ++ bs.flatMap fun q => ',' :: inQuotes (pairText q) := by
  cases as with
  | nil => exact absurd rfl h
  | cons p as => simp only [List.cons_append, openArguments, List.flatMap_append, List.append_assoc]

theorem openArguments_ne_nil (h : as ≠ []) : openArguments as ≠ [] := by
  cases as with
  | nil => exact absurd rfl h
  | cons p as => exact List.cons_ne_nil _ _

theorem operatorKey_not_mem : operatorKey ∉ headerKeys := by decide

/-- What the next pair adds still fits. -/
structure Room (pre : Pairs) (p : List Char × List Char) : Prop where
  setting : ∀ q ∈ settingsOf [p], (headerText q).length < maxStringSize
  argument : argumentsOf pre ≠ [] → ∀ q ∈ argumentsOf [p], (inQuotes (pairText q)).length + 1 < maxStringSize
  header : ((settingsOf (pre ++ [p])).flatMap headerText).length < maxProgramSize
  arguments : (openArguments (argumentsOf (pre ++ [p]))).length < maxProgramSize

theorem add_buffersOf (h : Room pre p) : (buffersOf pre).add p = some (buffersOf (pre ++ [p])) := by
  have hheader := h.header
  have harguments := h.arguments
  have hnext : buffersOf (pre ++ [p]) = ⟨if p.1 = operatorKey then some p.2 else operatorOf pre,
      (settingsOf pre ++ settingsOf [p]).flatMap headerText, openArguments (argumentsOf pre ++ argumentsOf [p])⟩ := by
    rw [buffersOf, operatorOf_concat, settingsOf_append, argumentsOf_append]
  rw [settingsOf_append] at hheader
  rw [argumentsOf_append] at harguments
  rw [hnext, Buffers.add]
  by_cases hop : p.1 = operatorKey
  · have hs : settingsOf [p] = [] := List.filter_eq_nil_iff.mpr (by simp [hop, operatorKey_not_mem])
    have ha : argumentsOf [p] = [] := List.filter_eq_nil_iff.mpr (by simp [hop])
    rw [if_pos hop, if_pos hop, hs, ha, List.append_nil, List.append_nil]
    rfl
  rw [if_neg hop, if_neg hop]
  by_cases hk : p.1 ∈ headerKeys
  · have hs : settingsOf [p] = [p] := List.filter_eq_self.mpr (by simp [hk])
    have ha : argumentsOf [p] = [] := List.filter_eq_nil_iff.mpr (by simp [hk])
    rw [hs, List.flatMap_append, List.flatMap_singleton, List.length_append] at hheader
    have hpiece := h.setting p (by rw [hs]; exact List.mem_singleton_self p)
    have hcat : strncat (buffersOf pre).header (headerText p) = some ((buffersOf pre).header ++ headerText p) :=
      strncat_eq hheader
    rw [if_pos hk, hs, ha, List.append_nil, List.flatMap_append, List.flatMap_singleton, snprintf_eq hpiece, hcat]
    rfl
  have hs : settingsOf [p] = [] := List.filter_eq_nil_iff.mpr (by simp [hk])
  have ha : argumentsOf [p] = [p] := List.filter_eq_self.mpr (by simp [hk, hop])
  rw [ha] at harguments
  rw [if_neg hk, hs, ha, List.append_nil]
  by_cases hnil : argumentsOf pre = []
  · have hempty : (buffersOf pre).arguments = [] := by rw [buffersOf, hnil, openArguments]
    rw [hnil, List.nil_append, openArguments, List.flatMap_nil, List.append_nil] at harguments
    rw [if_pos hempty, snprintf_eq harguments, hnil, List.nil_append, openArguments, List.flatMap_nil, List.append_nil]
    rfl
  · have hempty : (buffersOf pre).arguments ≠ [] := openArguments_ne_nil hnil
    rw [openArguments_append hnil, List.length_append, List.flatMap_singleton] at harguments
    have hpiece := h.argument hnil p (by rw [ha]; exact List.mem_singleton_self p)
    have hcat : strncat (buffersOf pre).arguments (',' :: inQuotes (pairText p)) =
        some ((buffersOf pre).arguments ++ ',' :: inQuotes (pairText p)) := strncat_eq harguments
    rw [if_neg hempty, snprintf_eq (by rw [List.length_cons]; exact hpiece), hcat, openArguments_append hnil,
      List.flatMap_singleton]
    rfl

theorem length_openArguments_le (as bs : Pairs) : (openArguments as).length ≤ (openArguments (as ++ bs)).length := by
  by_cases h : as = []
  · rw [h]
    exact Nat.zero_le _
  · rw [openArguments_append h, List.length_append]
    exact Nat.le_add_right _ _

theorem commandLoop_eq (hs : ∀ q ∈ settingsOf (pre ++ ps), (headerText q).length < maxStringSize)
    (ha : ∀ q ∈ (argumentsOf (pre ++ ps)).tail, (inQuotes (pairText q)).length + 1 < maxStringSize)
    (hheader : ((settingsOf (pre ++ ps)).flatMap headerText).length < maxProgramSize)
    (harguments : (openArguments (argumentsOf (pre ++ ps))).length < maxProgramSize) :
    commandLoop ps.length ps (buffersOf pre) = .ok (buffersOf (pre ++ ps)) := by
  induction ps generalizing pre with
  | nil =>
    rw [List.append_nil]
    rfl
  | cons p ps ih =>
    rw [List.append_cons] at hs ha hheader harguments ⊢
    have hroom : Room pre p := by
      constructor
      · intro q hq
        apply hs
        rw [settingsOf_append, settingsOf_append]
        exact List.mem_append_left _ (List.mem_append_right _ hq)
      · intro hne q hq
        apply ha
        rw [argumentsOf_append, argumentsOf_append, List.append_assoc, List.tail_append_of_ne_nil hne]
        exact List.mem_append_right _ (List.mem_append_left _ hq)
      · rw [settingsOf_append, List.flatMap_append, List.length_append] at hheader
        omega
      · rw [argumentsOf_append] at harguments
        exact Nat.lt_of_le_of_lt (length_openArguments_le _ _) harguments
    rw [List.length_cons, commandLoop, add_buffersOf hroom, Option.elim_some]
    exact ih hs ha hheader harguments

theorem length_le_basicJson (name header task operator arguments : List Char) :
    header.length + arguments.length ≤ (basicJson name header task operator arguments).length := by
  unfold basicJson
  iterate 11 rw [List.length_append]
  omega

theorem commandToJson_eq (hparse : parseQueryArgs command = some (ps, n)) (hop : operatorOf ps = some op)
    (h : Fits op ps) : commandToJson command = .ok (requestText op ps) := by
  obtain rfl : n = ps.length := by
    rw [parseQueryArgs_eq] at hparse
    obtain ⟨qs, -, hqs⟩ := Option.map_eq_some_iff.mp hparse
    cases hqs
    rfl
  have hlen := h.request
  have hle := Nat.lt_of_le_of_lt (length_le_basicJson _ _ _ _ _) hlen
  have hopen : (openArguments (argumentsOf ps)).length < maxProgramSize := by
    by_cases hnil : argumentsOf ps = []
    · rw [hnil]
      exact (by decide : 0 < maxProgramSize)
    · rw [if_neg hnil, List.length_append] at hle
      omega
  have hloop : commandLoop ps.length ps {} = .ok (buffersOf ps) :=
    @commandLoop_eq ps [] h.settings h.arguments (by rw [List.nil_append]; omega) hopen
  have hclose : (if (buffersOf ps).arguments = [] then some [] else strncat (buffersOf ps).arguments [']']) =
      some (if argumentsOf ps = [] then [] else openArguments (argumentsOf ps) ++ [']']) := by
    by_cases hnil : argumentsOf ps = []
    · rw [if_pos hnil, if_pos (by rw [buffersOf, hnil, openArguments])]
    · rw [if_neg hnil, List.length_append] at hle
      have hempty : (buffersOf ps).arguments ≠ [] := openArguments_ne_nil hnil
      rw [if_neg hnil, if_neg hempty]
      exact strncat_eq (by dsimp only [buffersOf]; omega)
  unfold commandToJson
  rw [hparse]
  dsimp only
  rw [hloop]
  dsimp only
  have hoperator : (buffersOf ps).operator = some op := hop
  rw [hoperator]
  dsimp only
  rw [hclose]
  exact congrArg Except.ok (snprintf_eq hlen)

end Buffers

section Written

variable {op t : List Char} {p : List Char × List Char} {ps as : Pairs} {ms : List (String × Json)}

theorem writtenMembers_header {k v : List Char} (hk : Verbatim k) (hv : Verbatim v) (ht : WrittenMembers t ms) :
    WrittenMembers (headerText (k, v) ++ t) ((String.ofList k, string v) :: ms) := by
  have hcons := WrittenMembers.cons hk (.text hv) blanks_nil ht
  rw [headerText]
  simpa only [List.append_assoc, List.cons_append, List.nil_append] using hcons

theorem writtenMembers_headers (h : ∀ p ∈ ps, Verbatim p.1 ∧ Verbatim p.2) (ht : WrittenMembers t ms) :
    WrittenMembers (ps.flatMap headerText ++ t) (ps.map (fun p => (String.ofList p.1, string p.2)) ++ ms) := by
  induction ps with
  | nil => exact ht
  | cons p ps ih =>
    obtain ⟨hp, hps⟩ := List.forall_mem_cons.mp h
    rw [List.flatMap_cons, List.append_assoc]
    exact writtenMembers_header hp.1 hp.2 (ih hps)

theorem writtenItems_arguments (h : ∀ q ∈ p :: as, Verbatim (pairText q)) :
    WrittenItems (inQuotes (pairText p) ++ ((as.flatMap fun q => ',' :: inQuotes (pairText q)) ++ [']']))
      ((p :: as).map fun q => string (pairText q)) := by
  induction as generalizing p with
  | nil => exact WrittenItems.last (.text (h p List.mem_cons_self)) blanks_nil
  | cons q as ih =>
    obtain ⟨hp, has⟩ := List.forall_mem_cons.mp h
    have hcons := WrittenItems.cons (.text hp) (ih has)
    rw [List.flatMap_cons, List.map_cons]
    simpa only [List.append_assoc, List.cons_append] using hcons

def indent (n : Nat) : List Char := List.replicate n ' '

theorem blanks_indent (n : Nat) : Blanks (indent n) := by
  intro c hc
  rw [List.eq_of_mem_replicate hc]
  rfl

theorem argumentsOpening_eq : argumentsOpening = ',' :: (inQuotes "arguments".toList ++ [':', '[']) := by decide

/-- What is printed between the braces of the task, with the second one. -/
def taskText (op arguments : List Char) : List Char :=
  indent 15 ++ (headerText ("name".toList, op) ++ (indent 15 ++ (inQuotes "operator".toList ++ ':' :: (inQuotes op ++
    (indent 15 ++ (arguments ++ (indent 11 ++ ['\x7d'])))))))

theorem writtenMembers_task (hop : Verbatim op) (has : ∀ p ∈ as, Verbatim (pairText p)) :
    WrittenMembers (taskText op (if as = [] then [] else openArguments as ++ [']']))
      ([("name", string op), ("operator", string op)] ++
        if as = [] then [] else [("arguments", array (as.map fun p => string (pairText p)))]) := by
  have hname : Verbatim "name".toList := verbatim_of_plain (by decide)
  have hoperator : Verbatim "operator".toList := verbatim_of_plain (by decide)
  have harguments : Verbatim "arguments".toList := verbatim_of_plain (by decide)
  refine .blanks (blanks_indent 15) (writtenMembers_header hname hop (.blanks (blanks_indent 15) ?_))
  cases as with
  | nil => exact WrittenMembers.last hoperator (.text hop) (b := indent 26) (blanks_indent 26)
  | cons p as =>
    have hmember := WrittenMembers.cons hoperator (.text hop) (blanks_indent 15)
      (WrittenMembers.last harguments (.array (writtenItems_arguments has)) (blanks_indent 11))
    rw [if_neg (List.cons_ne_nil p as), if_neg (List.cons_ne_nil p as), openArguments, argumentsOpening_eq]
    change WrittenMembers _ [("operator", string op), ("arguments", _)]
    simpa only [List.append_assoc, List.cons_append, List.nil_append, String.ofList_toList] using hmember

/-- The pieces of a request with its members, whatever their keys and values are. -/
theorem pieces_eq {op header arguments a₁ a₂ a₃ a₄ a₅ a₆ a₇ name author abstract tasks operator v₂ v₃ : List Char}
    (h₁ : a₁ = '\x7b' :: (indent 2 ++ (inQuotes name ++ [':', '"'])))
    (h₂ : a₂ = '"' :: ',' :: (indent 2 ++ (inQuotes author ++ ':' :: (inQuotes v₂ ++ ',' :: (indent 2 ++
      (inQuotes abstract ++ [':', '"']))))))
    (h₃ : a₃ = v₃ ++ '"' :: ',' :: indent 2)
    (h₄ : a₄ = indent 2 ++ (inQuotes tasks ++ ':' :: '[' :: (indent 11 ++ '\x7b' :: (indent 15 ++
      (inQuotes name ++ [':', '"'])))))
    (h₅ : a₅ = '"' :: ',' :: (indent 15 ++ (inQuotes operator ++ [':', '"'])))
    (h₆ : a₆ = '"' :: indent 15) (h₇ : a₇ = indent 11 ++ '\x7d' :: (indent 10 ++ [']', '\x7d'])) :
    a₁ ++ (op ++ (a₂ ++ (a₃ ++ (header ++ (a₄ ++ (op ++ (a₅ ++ (op ++ (a₆ ++ (arguments ++ a₇)))))))))) =
      '\x7b' :: (indent 2 ++ (headerText (name, op) ++ (indent 2 ++ (headerText (author, v₂) ++ (indent 2 ++
        (headerText (abstract, v₃) ++ (indent 2 ++ (header ++ (indent 2 ++ (inQuotes tasks ++ ':' :: ('[' ::
        ((indent 11 ++ '\x7b' :: (indent 15 ++ (headerText (name, op) ++ (indent 15 ++ (inQuotes operator ++ ':' ::
          (inQuotes op ++ (indent 15 ++ (arguments ++ (indent 11 ++ ['\x7d'])))))))) ++ (indent 10 ++ [']'])) ++
        ([] ++ ['\x7d']))))))))))))) := by
  rw [h₁, h₂, h₃, h₄, h₅, h₆, h₇]
  simp only [headerText, inQuotes, List.append_assoc, List.cons_append, List.nil_append]

theorem basicJson_eq (op header arguments : List Char) :
    basicJson op header op op arguments =
      '\x7b' :: (indent 2 ++ (headerText ("name".toList, op) ++ (indent 2 ++
        (headerText ("author".toList, "Ophidia Server".toList) ++ (indent 2 ++ (headerText ("abstract".toList,
          "This workflow is automatically generated by Ophidia Server.".toList) ++ (indent 2 ++ (header ++ (indent 2 ++
        (inQuotes "tasks".toList ++ ':' :: ('[' :: ((indent 11 ++ '\x7b' :: taskText op arguments) ++
          (indent 10 ++ [']'])) ++ ([] ++ ['\x7d'])))))))))))) := by
  unfold basicJson taskText
  exact pieces_eq (by decide +kernel) (by decide +kernel) (by decide +kernel) (by decide +kernel) (by decide +kernel)
    (by decide +kernel) (by decide +kernel)

theorem verbatim_headerKeys : ∀ k ∈ headerKeys, Verbatim k := by
  intro k hk
  have hplain : ∀ k ∈ headerKeys, k.all (fun c => c ≠ '"' ∧ c ≠ '\\' ∧ 0x20 ≤ c.toNat ∧ c.toNat ≤ 0x7F) = true := by
    decide
  exact verbatim_of_plain (hplain k hk)

theorem written_requestText (h : Readable op ps) :
    ∃ t, requestText op ps = '\x7b' :: t ∧ WrittenMembers t ((headerPairs op ps).map
      (fun p => (String.ofList p.1, string p.2)) ++ [("tasks", array [taskJson op (argumentsOf ps)])]) := by
  have hname : Verbatim "name".toList := verbatim_of_plain (by decide)
  have hauthor : Verbatim "author".toList := verbatim_of_plain (by decide)
  have habstract : Verbatim "abstract".toList := verbatim_of_plain (by decide)
  have htasks : Verbatim "tasks".toList := verbatim_of_plain (by decide)
  have hserver : Verbatim "Ophidia Server".toList := verbatim_of_plain (by decide)
  have htext : Verbatim "This workflow is automatically generated by Ophidia Server.".toList :=
    verbatim_of_plain (by decide)
  refine ⟨_, basicJson_eq op _ _, ?_⟩
  have htask := WrittenValue.object (writtenMembers_task h.operator h.arguments)
  have hitems := WrittenItems.last (.blanks (blanks_indent 11) htask) (blanks_indent 10)
  have hlast := WrittenMembers.blanks (blanks_indent 2) (.last htasks (.array hitems) blanks_nil)
  rw [String.ofList_toList] at hlast
  have hsettings : ∀ p ∈ settingsOf ps, Verbatim p.1 ∧ Verbatim p.2 := fun p hp =>
    ⟨verbatim_headerKeys p.1 (of_decide_eq_true (List.mem_filter.mp hp).2), h.settings p hp⟩
  have hheaders := WrittenMembers.blanks (blanks_indent 2) (writtenMembers_headers hsettings hlast)
  have h₃ := WrittenMembers.blanks (blanks_indent 2) (writtenMembers_header habstract htext hheaders)
  have h₂ := WrittenMembers.blanks (blanks_indent 2) (writtenMembers_header hauthor hserver h₃)
  exact .blanks (blanks_indent 2) (writtenMembers_header hname h.operator h₂)

theorem nested_commandJson (op : List Char) (ps : Pairs) : Nested parserMaxDepth (commandJson op ps) := by
  have harguments : ∀ j ∈ (argumentsOf ps).map (fun p => string (pairText p)), Nested 1 j := by
    intro j hj
    obtain ⟨p, -, rfl⟩ := List.mem_map.mp hj
    exact .string _
  have htask : Nested 3 (taskJson op (argumentsOf ps)) := by
    refine .object fun m hm => ?_
    rcases List.mem_append.mp hm with hm | hm
    · simp only [List.mem_cons, List.not_mem_nil, or_false] at hm
      rcases hm with rfl | rfl <;> exact .string _
    · split at hm
      · cases hm
      · cases List.mem_singleton.mp hm
        exact .array harguments
  have hheader : Nested 5 (commandJson op ps) := by
    unfold commandJson
    refine .object fun m hm => ?_
    rcases List.mem_append.mp hm with hm | hm
    · obtain ⟨p, -, rfl⟩ := List.mem_map.mp hm
      exact .string _
    · cases List.mem_singleton.mp hm
      exact .array (by simpa using htask)
  exact hheader.mono (by decide)

theorem loads_requestText [Jansson] (h : Readable op ps) : loads (requestText op ps) = some (commandJson op ps) := by
  obtain ⟨t, ht, hw⟩ := written_requestText h
  rw [ht, Jansson.loads_written hw (nested_commandJson op ps), commandJson]

theorem load_requestText [Jansson] (h : Readable op ps) (srv : Server) :
    load srv (requestText op ps) = loadJson srv (commandJson op ps) := by
  obtain ⟨t, ht, hw⟩ := written_requestText h
  unfold load
  rw [ht, skipComments_of_clean (WrittenValue.object hw).clean]
  dsimp only
  rw [Jansson.loads_written hw (nested_commandJson op ps), commandJson]

end Written

/-! ## The workflow that is loaded -/

/-- No resource is asked for with a negative amount: of the cores the last amount counts, of the others the first. -/
structure Nonnegative (ps : Pairs) : Prop where
  ncores : ∀ v ∈ (values "ncores".toList ps).getLast?, 0 ≤ readInt v
  nhost : ∀ v ∈ (values "nhost".toList ps).head?, 0 ≤ readInt v
  nthreads : ∀ v ∈ (values "nthreads".toList ps).head?, 0 ≤ readInt v

/-- The workflow for a command. -/
structure LoadedFor (op : List Char) (ps : Pairs) (w : Workflow) : Prop where
  task : ∃ t, w.tasks = [t] ∧ t.operator = op ∧ t.arguments =
    (addPairs [("cwd".toList, rootFolder), ("cdd".toList, rootFolder)] (argumentsOf ps)).map some
  ncores : w.ncores = (values "ncores".toList ps).getLast?.elim 0 readInt
  execMode : w.execMode = nonempty (values "exec_mode".toList ps).getLast?
  sessionid : w.sessionid = nonempty (values "sessionid".toList ps).getLast?
  callbackUrl : w.callbackUrl = nonempty (values "callback_url".toList ps).getLast?

section Loaded

variable {op s : List Char} {k : String} {ps as l : Pairs} {srv : Server} {w : Workflow}

theorem lookup_eq_head? (s : List Char) (l : Pairs) : l.lookup s = (values s l).head? := by
  induction l with
  | nil => rfl
  | cons p l ih =>
    by_cases h : p.1 = s
    · rw [values_cons_self h, List.lookup_cons, beq_iff_eq.mpr h.symm]
      rfl
    · rw [values_cons_ne h, List.lookup_cons, beq_false_of_ne (Ne.symm h)]
      exact ih

theorem lookup_texts (k : String) (l : Pairs) :
    (l.map fun p => (String.ofList p.1, string p.2)).lookup k = (l.lookup k.toList).map string := by
  induction l with
  | nil => rfl
  | cons p l ih =>
    rw [List.map_cons, List.lookup_cons, List.lookup_cons]
    by_cases h : p.1 = k.toList
    · have hk : k = String.ofList p.1 := by rw [h, String.ofList_toList]
      rw [beq_iff_eq.mpr hk, beq_iff_eq.mpr h.symm]
      rfl
    · have hk : k ≠ String.ofList p.1 := by
        rintro rfl
        exact h String.toList_ofList.symm
      rw [beq_false_of_ne hk, beq_false_of_ne (Ne.symm h)]
      exact ih

theorem get?_commandJson (h : k ≠ "tasks") :
    (commandJson op ps).get? k = (values k.toList (headerPairs op ps)).getLast?.map string := by
  rw [commandJson, Json.get?, lookup_reverse_append_singleton, if_neg h, ← List.map_reverse, lookup_texts,
    lookup_eq_head?, values, List.filter_reverse, List.map_reverse, List.head?_reverse]
  rfl

theorem global_commandJson (h : k ∈ globalKeys) :
    global (commandJson op ps) k = (values k.toList (headerPairs op ps)).getLast? := by
  have htasks : "tasks" ∉ globalKeys := by decide
  have hne (k : String) (hk : k ∈ globalKeys) : k ≠ "tasks" := fun he => htasks (he ▸ hk)
  have hget := @get?_commandJson op k ps (hne k h)
  exact (unpack_of_texts (fun k hk => ⟨_, get?_commandJson (hne k hk)⟩) h).trans (getText?_of_get? hget)

theorem values_settingsOf (h : s ∈ headerKeys) : values s (settingsOf ps) = values s ps := by
  rw [values, settingsOf, List.filter_filter, values]
  congr 1
  apply List.filter_congr
  intro p _
  rw [Bool.and_eq_left_iff_imp]
  intro hk
  rw [keyed_eq_true_iff.mp hk]
  exact decide_eq_true h

theorem values_headerPairs (h : s ∉ ["name".toList, "author".toList, "abstract".toList]) :
    values s (headerPairs op ps) = values s (settingsOf ps) := by
  simp only [List.mem_cons, List.not_mem_nil, or_false, not_or] at h
  obtain ⟨hname, hauthor, habstract⟩ := h
  rw [headerPairs, values_cons_ne (Ne.symm hname), values_cons_ne (Ne.symm hauthor), values_cons_ne (Ne.symm habstract)]

theorem values_settingsOf_ne (h : s ∉ headerKeys) : values s (settingsOf ps) = [] := by
  rw [values_eq_nil_iff]
  rintro p hp rfl
  exact h (of_decide_eq_true (List.mem_filter.mp hp).2)

/-- The settings that no command has. -/
theorem global_eq_none (h : k ∈ globalKeys) (hk : k.toList ∉ ["name".toList, "author".toList, "abstract".toList])
    (hs : k.toList ∉ headerKeys) : global (commandJson op ps) k = none := by
  rw [global_commandJson h, values_headerPairs hk, values_settingsOf_ne hs]
  rfl

theorem global_setting (h : k ∈ globalKeys) (hk : k.toList ∉ ["name".toList, "author".toList, "abstract".toList])
    (hs : k.toList ∈ headerKeys) : global (commandJson op ps) k = (values k.toList ps).getLast? := by
  rw [global_commandJson h, values_headerPairs hk, values_settingsOf hs]

theorem global_name : global (commandJson op ps) "name" = some op := by
  have hrest : values "name".toList (("author".toList, "Ophidia Server".toList) :: ("abstract".toList,
      "This workflow is automatically generated by Ophidia Server.".toList) :: settingsOf ps) = [] := by
    rw [values_cons_ne (by decide), values_cons_ne (by decide), values_settingsOf_ne (by decide)]
  have hname : values "name".toList (headerPairs op ps) = op :: [] := by
    rw [← hrest]
    exact values_cons_self rfl
  rw [global_commandJson (by decide), hname]
  rfl

theorem readHeader_commandJson (srv : Server) (op : List Char) (ps : Pairs) :
    ∃ h, readHeader srv (commandJson op ps) = .ok h := by
  have hcheckpoint := @global_eq_none op "checkpoint" ps (by decide) (by decide) (by decide)
  have hrun := @global_eq_none op "run" ps (by decide) (by decide) (by decide)
  have hsave := @global_eq_none op "save" ps (by decide) (by decide) (by decide)
  have hformat := @global_eq_none op "output_format" ps (by decide) (by decide) (by decide)
  have hdirect := @global_eq_none op "direct_output" ps (by decide) (by decide) (by decide)
  unfold readHeader
  rw [global_name, hcheckpoint, hrun, hsave, hformat, hdirect]
  exact ⟨_, rfl⟩

theorem get?_taskJson (op : List Char) (as : Pairs) (k : String) :
    (taskJson op as).get? k =
      if k = "arguments" ∧ as ≠ [] then some (array (as.map fun p => string (pairText p)))
      else if k = "operator" ∨ k = "name" then some (string op) else none := by
  have hfirst : (object [("name", string op), ("operator", string op)]).get? k =
      if k = "operator" ∨ k = "name" then some (string op) else none := by
    show ([("name", string op)] ++ [("operator", string op)]).reverse.lookup k = _
    rw [lookup_reverse_append_singleton]
    show _ = ite _ _ _
    rw [← List.nil_append [("name", string op)], lookup_reverse_append_singleton]
    split
    · next h => rw [if_pos (.inl h)]
    · next h =>
      split
      · next h' => rw [if_pos (.inr h')]
      · next h' =>
        rw [if_neg (not_or.mpr ⟨h, h'⟩)]
        rfl
  unfold taskJson
  cases as with
  | nil =>
    rw [if_pos rfl, List.append_nil, if_neg fun h : k = "arguments" ∧ ([] : Pairs) ≠ [] => h.2 rfl]
    exact hfirst
  | cons p as =>
    rw [if_neg (List.cons_ne_nil p as), Json.get?, lookup_reverse_append_singleton]
    by_cases hk : k = "arguments"
    · rw [if_pos hk, if_pos ⟨hk, List.cons_ne_nil p as⟩]
    · rw [if_neg hk, if_neg fun h : k = "arguments" ∧ p :: as ≠ [] => hk h.1]
      exact hfirst

theorem own_taskJson (h : k ∈ taskKeys) :
    own (taskJson op as) k = if k = "operator" ∨ k = "name" then some op else none := by
  have harguments : "arguments" ∉ taskKeys := by decide
  have hget (k : String) (hk : k ∈ taskKeys) : (taskJson op as).get? k =
      (if k = "operator" ∨ k = "name" then some op else none).map string := by
    rw [get?_taskJson, if_neg fun h : k = "arguments" ∧ as ≠ [] => harguments (h.1 ▸ hk)]
    split <;> rfl
  exact (unpack_of_texts (fun k hk => ⟨_, hget k hk⟩) h).trans (getText?_of_get? (hget k h))

theorem itemsOf_arguments : itemsOf (taskJson op as) "arguments" = as.map fun p => string (pairText p) := by
  rw [itemsOf, get?_taskJson]
  by_cases h : as = []
  · rw [if_neg fun hn : "arguments" = "arguments" ∧ as ≠ [] => hn.2 h, if_neg (by decide), h]
    rfl
  · rw [if_pos ⟨rfl, h⟩]
    rfl

theorem itemsOf_eq_nil (h : k ≠ "arguments") (h' : k ≠ "operator" ∧ k ≠ "name") : itemsOf (taskJson op as) k = [] := by
  rw [itemsOf, get?_taskJson, if_neg fun hn : k = "arguments" ∧ as ≠ [] => h hn.1, if_neg (not_or.mpr h')]
  rfl

/-- The task, before the settings of the workflow are handed down. -/
def commandTask (srv : Server) (op : List Char) (as : Pairs) : Task :=
  { name := op, operator := op, arguments := as.map some, backoffTime := srv.baseBackoff }

theorem reads_commandTask (has : ∀ p ∈ as, '=' ∉ p.1) :
    Reads srv (commandJson op ps) 0 (taskJson op as) (commandTask srv op as) := by
  have hnone {k : String} (h : k ∈ taskKeys) (hk : ¬(k = "operator" ∨ k = "name")) : own (taskJson op as) k = none := by
    rw [own_taskJson h, if_neg hk]
  have htype := hnone (k := "type") (by decide) (by decide)
  have herror := hnone (k := "on_error") (by decide) (by decide)
  have hexit := hnone (k := "on_exit") (by decide) (by decide)
  have hrun := hnone (k := "run") (by decide) (by decide)
  have hsave := hnone (k := "save") (by decide) (by decide)
  have hcheckpoint := hnone (k := "checkpoint") (by decide) (by decide)
  have hglobal {k : String} (h : k ∈ globalKeys) (hk : k.toList ∉ ["name".toList, "author".toList, "abstract".toList])
      (hs : k.toList ∉ headerKeys) : global (commandJson op ps) k = none := global_eq_none h hk hs
  constructor
  case name => rw [own_taskJson (by decide), if_pos (.inr rfl)]; rfl
  case operator => rw [own_taskJson (by decide), if_pos (.inl rfl)]; rfl
  case type => rw [htype]; rfl
  case arguments =>
    rw [itemsOf_arguments, commandTask, List.forall₂_map_left_iff, List.forall₂_map_right_iff, List.forall₂_same]
    intro p hp
    show (cutAt '=' (pairText p)).elim _ _ = _
    rw [pairText, cutAt_append_cons _ (has p hp)]
    rfl
  case deps => rw [itemsOf_eq_nil (by decide) (by decide)]; rfl
  case retry => rw [herror, hglobal (by decide) (by decide) (by decide)]; rfl
  case exitAction => rw [hexit, hglobal (by decide) (by decide) (by decide)]; rfl
  case run => rw [hrun, hglobal (by decide) (by decide) (by decide)]; rfl
  case save => rw [hsave, hglobal (by decide) (by decide) (by decide)]; rfl
  case checkpoint => rw [hcheckpoint, hglobal (by decide) (by decide) (by decide)]; rfl
  case onError => rw [herror]; rfl
  case onExit => rw [hexit]; rfl
  case vars => rw [itemsOf_eq_nil (by decide) (by decide)]; rfl
  case resources => intro r; cases r <;> rfl
  all_goals rfl

theorem values_argumentsOf (h : s ≠ operatorKey) (hs : s ∉ headerKeys) : values s (argumentsOf ps) = values s ps := by
  rw [values, argumentsOf, List.filter_filter, values]
  congr 1
  apply List.filter_congr
  intro p _
  rw [Bool.and_eq_left_iff_imp]
  intro hk
  rw [keyed_eq_true_iff.mp hk]
  exact decide_eq_true ⟨h, hs⟩

theorem values_argumentsOf_setting (hs : s ∈ headerKeys) : values s (argumentsOf ps) = [] := by
  rw [values_eq_nil_iff]
  rintro p hp rfl
  exact (of_decide_eq_true (List.mem_filter.mp hp).2).2 hs

/-- No resource gets a negative amount. -/
theorem share_nonneg (hw : w.ncores = (values "ncores".toList ps).getLast?.elim 0 readInt) (hhosts : w.nhosts = 0)
    (hthreads : w.nthreads = 0) (hn : Nonnegative ps) : ∀ r, 0 ≤ share w (argumentsOf ps) r := by
  have helim {o : Option (List Char)} (ho : ∀ v ∈ o, 0 ≤ readInt v) : 0 ≤ o.elim 0 readInt := by
    cases o with
    | none => exact Int.le_refl 0
    | some v => exact ho v rfl
  intro r
  cases r with
  | ncores =>
    have hv : values Resource.ncores.key (argumentsOf ps) = [] := values_argumentsOf_setting (by decide)
    rw [share_of_values_eq_nil hv]
    show 0 ≤ w.ncores
    rw [hw]
    exact helim hn.ncores
  | nhost =>
    have hv : values Resource.nhost.key (argumentsOf ps) = values "nhost".toList ps :=
      values_argumentsOf (by decide) (by decide)
    rw [share_of_amount_eq_zero (show Resource.nhost.amount w = 0 from hhosts), hv]
    exact helim hn.nhost
  | nthreads =>
    have hv : values Resource.nthreads.key (argumentsOf ps) = values "nthreads".toList ps :=
      values_argumentsOf (by decide) (by decide)
    rw [share_of_amount_eq_zero (show Resource.nthreads.amount w = 0 from hthreads), hv]
    exact helim hn.nthreads

theorem loadJson_commandJson (has : ∀ p ∈ argumentsOf ps, '=' ∉ p.1) (hn : Nonnegative ps) :
    ∃ w, loadJson srv (commandJson op ps) = .ok w ∧ LoadedFor op ps w := by
  obtain ⟨h, hh⟩ := readHeader_commandJson srv op ps
  have heads := heads_of_readHeader hh
  have hncores : h.ncores = (values "ncores".toList ps).getLast?.elim 0 readInt := by
    rw [heads.ncores, global_setting (by decide) (by decide) (by decide)]
  have hhosts : h.nhosts = 0 := by
    rw [heads.nhosts, global_eq_none (by decide) (by decide) (by decide)]
    rfl
  have hthreads : h.nthreads = 0 := by
    rw [heads.nthreads, global_eq_none (by decide) (by decide) (by decide)]
    rfl
  have hreads := @reads_commandTask op ps (argumentsOf ps) srv has
  have harguments : (commandTask srv op (argumentsOf ps)).arguments = (argumentsOf ps).map some := rfl
  have hstages := (stages_eq_ok_iff harguments hreads.resources (normal_of_readHeader hh).amounts
    (.inl hhosts)).mpr ⟨share_nonneg hncores hhosts hthreads hn, rfl⟩
  have htasks : itemsOf (commandJson op ps) "tasks" = [taskJson op (argumentsOf ps)] := by
    rw [itemsOf, commandJson, Json.get?, lookup_reverse_append_singleton, if_pos rfl]
    rfl
  refine ⟨{ h with tasks := [handDown h (argumentsOf ps) (commandTask srv op (argumentsOf ps))] },
    loadJson_eq_ok_iff.mpr ⟨h, hh, ?_, ?_, rfl⟩, ?_⟩
  · rw [htasks]
    exact List.cons_ne_nil _ _
  · rw [htasks]
    exact .cons ⟨_, hreads, hstages⟩ .nil
  · have hremaining : remaining h (argumentsOf ps) = argumentsOf ps := by
      apply remaining_of_values
      intro r hr
      cases r with
      | ncores => exact values_argumentsOf_setting (by decide)
      | nhost => exact absurd hhosts hr
      | nthreads => exact absurd hthreads hr
    have hsettings : h.settings [] = [("cwd".toList, rootFolder), ("cdd".toList, rootFolder)] := by
      rw [Workflow.settings, heads.project, heads.cwd, heads.cdd, heads.cube,
        global_eq_none (k := "project") (by decide) (by decide) (by decide),
        global_eq_none (k := "cwd") (by decide) (by decide) (by decide),
        global_eq_none (k := "cdd") (by decide) (by decide) (by decide),
        global_eq_none (k := "cube") (by decide) (by decide) (by decide)]
      rfl
    constructor
    · refine ⟨_, rfl, rfl, ?_⟩
      show (addPairs (h.settings []) (remaining h (argumentsOf ps))).map some = _
      rw [hsettings, hremaining]
    · exact hncores
    · exact heads.execMode.trans (congrArg nonempty (global_setting (by decide) (by decide) (by decide)))
    · exact heads.sessionid.trans (congrArg nonempty (global_setting (by decide) (by decide) (by decide)))
    · exact heads.callbackUrl.trans (congrArg nonempty (global_setting (by decide) (by decide) (by decide)))

/-- A command becomes a request that says what the command does, and loads into a workflow with one task: it has the
operator, and the other pairs of the command as its arguments, followed by those that the loader adds. -/
theorem command_loads [Jansson] {command : List Char} {n : Nat} (hparse : parseQueryArgs command = some (ps, n))
    (hop : operatorOf ps = some op) (hfit : Fits op ps) (hread : Readable op ps) (hn : Nonnegative ps) (srv : Server) :
    ∃ s w, commandToJson command = .ok s ∧ loads s = some (commandJson op ps) ∧ load srv s = .ok w ∧
      LoadedFor op ps w := by
  have hkeys : ∀ p ∈ argumentsOf ps, '=' ∉ p.1 := by
    rw [parseQueryArgs_eq] at hparse
    obtain ⟨qs, hqs, he⟩ := Option.map_eq_some_iff.mp hparse
    cases he
    intro p hp
    have hclosed := (closed_of_parseQuery hqs).2 p (List.mem_of_mem_filter hp)
    exact of_decide_eq_true (Bool.and_eq_true_iff.mp hclosed).1
  obtain ⟨w, hw, hloaded⟩ := @loadJson_commandJson op ps srv hkeys hn
  exact ⟨requestText op ps, w, commandToJson_eq hparse hop hfit, loads_requestText hread,
    (load_requestText hread srv).trans hw, hloaded⟩

end Loaded

/-- A command with settings of the workflow, a value with `=` and `//`, and a `cwd` of its own. -/
def sampleCommand : Pairs :=
  [("operator".toList, "oph_apply".toList), ("ncores".toList, "4".toList), ("query".toList, "a=b//c".toList),
    ("cwd".toList, "/home".toList), ("sessionid".toList, "s/1".toList), ("nhost".toList, "2".toList)]

theorem command_loads_sample : ∃ s w, commandToJson (renderPairs sampleCommand) = .ok s ∧
    loads s = some (commandJson "oph_apply".toList sampleCommand) ∧ load {} s = .ok w ∧
    LoadedFor "oph_apply".toList sampleCommand w := by
  have hplain {s : List Char} (h : s.all (fun c => c ≠ '"' ∧ c ≠ '\\' ∧ 0x20 ≤ c.toNat ∧ c.toNat ≤ 0x7F) = true) :
      Verbatim s := verbatim_of_plain h
  have hsettings : settingsOf sampleCommand = [("ncores".toList, "4".toList), ("sessionid".toList, "s/1".toList)] := by
    decide +kernel
  have harguments : argumentsOf sampleCommand =
      [("query".toList, "a=b//c".toList), ("cwd".toList, "/home".toList), ("nhost".toList, "2".toList)] := by
    decide +kernel
  refine command_loads (n := 6) (by decide +kernel) (by decide +kernel) ⟨by decide +kernel, by decide +kernel,
    by decide +kernel⟩ ⟨hplain (by decide +kernel), ?_, ?_⟩ ⟨by decide +kernel, by decide +kernel, by decide +kernel⟩ {}
  · rw [hsettings]
    simp only [List.forall_mem_cons]
    exact ⟨hplain (by decide +kernel), hplain (by decide +kernel), fun p hp => absurd hp List.not_mem_nil⟩
  · rw [harguments]
    simp only [List.forall_mem_cons]
    exact ⟨hplain (by decide +kernel), hplain (by decide +kernel), hplain (by decide +kernel),
      fun p hp => absurd hp List.not_mem_nil⟩

/-- The request for the command is well formed and loads into a workflow with one task: it has the operator of the
command, and the other pairs as its arguments. -/
def Converts [Jansson] (srv : Server) (command : List Char) : Prop :=
  ∀ ps n op, parseQueryArgs command = some (ps, n) → operatorOf ps = some op → Fits op ps →
    ∃ s w t, commandToJson command = .ok s ∧ (loads s).isSome ∧ load srv s = .ok w ∧ w.tasks = [t] ∧ t.operator = op ∧
      t.arguments = (argumentsOf ps).map some

/-- The only pair is the operator. -/
def bareCommand : Pairs := [("operator".toList, "oph_list".toList)]

/-- The value closes the list of the arguments and gives another operator. -/
def injectedCommand : Pairs :=
  [("operator".toList, "oph_list".toList), ("x".toList, "\"],\"operator\":\"oph_delete\",\"y\":[\"".toList)]

theorem fits_bareCommand : Fits "oph_list".toList bareCommand :=
  ⟨by decide +kernel, by decide +kernel, by decide +kernel⟩

theorem fits_injectedCommand : Fits "oph_list".toList injectedCommand :=
  ⟨by decide +kernel, by decide +kernel, by decide +kernel⟩

/-- A command that becomes a workflow for which the test fails for one of its tasks is not converted. -/
theorem not_converts_of_check {ps : Pairs} {op : List Char} {n : Nat} (test : Task → Bool)
    (hparse : parseQueryArgs (renderPairs ps) = some (ps, n)) (hop : operatorOf ps = some op) (hfit : Fits op ps)
    (hload : (((commandToJson (renderPairs ps)).toOption.bind fun s => (load {} s).toOption).all fun w =>
      w.tasks.any fun t => !test t) = true)
    (htest : ∀ t : Task, t.operator = op → t.arguments = (argumentsOf ps).map some → test t = true) :
    ¬Converts {} (renderPairs ps) := by
  intro h
  obtain ⟨s, w, t, hs, -, hw, hts, ht, has⟩ := h ps n op hparse hop hfit
  have htask := htest t ht has
  rw [hs] at hload
  simp only [Except.toOption, Option.bind_some, hw, Option.all_some, hts, List.any_cons, List.any_nil, Bool.or_false,
    htask, Bool.not_true] at hload
  cases hload

/-- The loader adds arguments of its own; and a quote in a value ends the text, so that the command runs another
operator. -/
theorem not_converts : ¬Converts {} (renderPairs bareCommand) ∧ ¬Converts {} (renderPairs injectedCommand) := by
  constructor
  · apply not_converts_of_check (fun t => t.arguments = []) (n := 1) (by decide +kernel) (by decide +kernel)
      fits_bareCommand (by decide +kernel)
    intro t _ ht
    have hnone : argumentsOf bareCommand = [] := by decide +kernel
    rw [hnone] at ht
    exact decide_eq_true ht
  · apply not_converts_of_check (fun t => t.operator = "oph_list".toList) (n := 2) (by decide +kernel)
      (by decide +kernel) fits_injectedCommand (by decide +kernel)
    intro t ht _
    exact decide_eq_true ht

end OphidiaWorkflow.Request
