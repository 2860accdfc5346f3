import OphidiaWorkflow.Lib.Lines
import OphidiaWorkflow.Text.Submission

/-!
The files of the users and of the sessions: `oph_save_user`, `oph_save_session` and `oph_load_file`, with `oph_get_arg`
and `oph_set_arg` on the list of arguments that they keep.

Opening, reading and writing a file succeed, and a file holds no null character.
-/
namespace OphidiaWorkflow.Auth.Files

open Lib

/-- `OPH_MAX_STRING_SIZE` -/
def maxStringSize : Nat := 4096

/-- What `snprintf` leaves of a text in a buffer of `OPH_MAX_STRING_SIZE`. -/
def printed (s : List Char) : List Char := s.take (maxStringSize - 1)

/-- `oph_argument`: the key and the value. -/
abbrev Arg := List Char × List Char

/-- `strncasecmp` with `OPH_MAX_STRING_SIZE` -/
def sameKey (a b : List Char) : Bool :=
  (a.take maxStringSize).map Char.toLower = (b.take maxStringSize).map Char.toLower

/-- `oph_get_arg` -/
def getArg (key : List Char) : List Arg → Option (List Char)
  | [] => none
  | p :: args => if sameKey p.1 key then some (p.2.take maxStringSize) else getArg key args

/-- `oph_set_arg`. The argument with the key is written again, or a new one is linked at the end. -/
def setArg (key value : List Char) : List Arg → List Arg
  | [] => [(key.take maxStringSize, value.take maxStringSize)]
  | p :: args =>
    if sameKey p.1 key then (key.take maxStringSize, value.take maxStringSize) :: args else p :: setArg key value args

/-- `OPH_SERVER_OK` and the errors of these functions. -/
inductive Code
  | ok | nullPointer | error | systemError | ioError | wrongParameter
  deriving DecidableEq, Repr

/-- The contents of the files. -/
abbrev Disk := List Char → Option (List Char)

/-- `fopen` for writing, and what `fprintf` writes for each argument. -/
def writeArgs (name : List Char) (args : List Arg) (d : Disk) : Disk :=
  fun s => if s = name then some (args.flatMap fun p => p.1 ++ '=' :: (p.2 ++ ['\n'])) else d s

/-- The loop of `oph_load_file`: the arguments so far, and the code. Each round reads a character at least. -/
def loadLines : Nat → List Char → List Arg → List Arg × Code
  | 0, _, args => (args, .ok)
  | fuel + 1, s, args =>
    match fgets maxStringSize s with
    | none => (args, .ok)
    | some (buffer, s) =>
      let buffer := if buffer.getLast? = some '\n' then buffer.dropLast else buffer
      if buffer = [] then loadLines fuel s args
      else
        match cutAt '=' buffer with
        | none => (args, .ioError)
        | some p => loadLines fuel s (args ++ [p])

/-- `oph_load_file` -/
def loadFile (d : Disk) (filename : List Char) : List Arg × Code :=
  match d filename with
  | none => ([], .wrongParameter)
  | some s => loadLines s.length s []

/-- `OPH_USER_FILE` -/
def userFile (location userid : List Char) : List Char :=
  printed (location ++ "/users/".toList ++ userid ++ "/user.dat".toList)

/-- `oph_save_user` -/
def saveUser (location userid : List Char) (args : List Arg) (d : Disk) : Code × Disk :=
  if args = [] then (.nullPointer, d) else (.ok, writeArgs (userFile location userid) args d)

/-- `DT_REG` and `DT_LNK` -/
inductive SaveType
  | reg | lnk
  deriving DecidableEq, Repr

/-- What `oph_save_session` asks of the system. -/
structure System where
  webServer : Option String
  location : List Char
  /-- The folder named after the day of the time, made by `localtime_r` and `strftime`. -/
  folder : List Char → Option (List Char)
  /-- `readlink` -/
  link : List Char → Option (List Char)

def creationTime : List Char := "OPH_CREATION_TIME".toList

/-- The file of `oph_save_session`. -/
def sessionFile (sys : System) (userid : List Char) (sessionid : String) (args : List Arg) (type : SaveType) :
    Except Code (List Char) :=
  match sessionCode sys.webServer sessionid with
  | none => .error .error
  | some code =>
    match type with
    | .reg =>
      match getArg creationTime args with
      | none => .error .error
      | some time =>
        match sys.folder time with
        | none => .error .systemError
        | some dirname => .ok (printed (dirname ++ '/' :: code ++ ".session".toList))
    | .lnk =>
      match sys.link (printed (sys.location ++ "/users/".toList ++ userid ++ "/sessions/".toList ++ code ++
          ".session".toList)) with
      | none => .error .ioError
      | some filename => if maxStringSize ≤ filename.length then .error .ioError else .ok filename

/-- `oph_save_session`, with the file it has written. -/
def saveSession (sys : System) (userid : List Char) (sessionid : String) (args : List Arg) (type : SaveType)
    (d : Disk) :
    Except Code (List Char × Disk) :=
  if args = [] then .error .nullPointer
  else (sessionFile sys userid sessionid args type).map fun name => (name, writeArgs name args d)

/-- An argument that stands in a line of its own. -/
structure Storable (p : Arg) : Prop where
  ne_nil : p.1 ≠ []
  separator : '=' ∉ p.1
  key_line : '\n' ∉ p.1
  value_line : '\n' ∉ p.2
  short : (p.1 ++ '=' :: p.2).length < maxStringSize - 1

/-- The arguments are saved unless there are none, and what is loaded from the file that was written are the
arguments. -/
structure Reloads (args : List Arg) : Prop where
  saved : ∀ location userid d, (saveUser location userid args d).1 = .ok ↔ args ≠ []
  user : ∀ location userid d d', saveUser location userid args d = (.ok, d') →
    loadFile d' (userFile location userid) = (args, .ok)
  session : ∀ sys userid sessionid type d name d', saveSession sys userid sessionid args type d = .ok (name, d') →
    loadFile d' name = (args, .ok)

/-- Only the argument with the key has changed, or a new one stands at the end. -/
structure Changes (key value : List Char) (args args' : List Arg) : Prop where
  list : args' =
    if args.any fun p => sameKey p.1 key then args.map fun p => if sameKey p.1 key then (key, value) else p
    else args ++ [(key, value)]
  get : ∀ k, getArg k args' = if sameKey key k then some value else getArg k args

variable {p q : Arg} {args : List Arg} {key value k : List Char}

theorem Storable.length_lt (h : Storable p) : p.1.length < maxStringSize ∧ p.2.length < maxStringSize := by
  have hs := h.short
  rw [List.length_append, List.length_cons] at hs
  omega

theorem Storable.take_eq (h : Storable p) : (p.1.take maxStringSize, p.2.take maxStringSize) = p := by
  obtain ⟨h1, h2⟩ := h.length_lt
  rw [List.take_of_length_le (Nat.le_of_lt h1), List.take_of_length_le (Nat.le_of_lt h2)]

/-- The text that is written for the arguments. -/
def linesOf (args : List Arg) : List Char := args.flatMap fun p => p.1 ++ '=' :: (p.2 ++ ['\n'])

theorem linesOf_cons (p : Arg) (args : List Arg) :
    linesOf (p :: args) = (p.1 ++ '=' :: p.2) ++ '\n' :: linesOf args := by
  simp only [linesOf, List.flatMap_cons, List.append_assoc, List.cons_append, List.nil_append]

theorem length_le_linesOf (args : List Arg) : args.length ≤ (linesOf args).length := by
  induction args with
  | nil => exact Nat.le_refl _
  | cons p args ih =>
    rw [linesOf_cons, List.length_append, List.length_cons, List.length_cons]
    omega

/-- The line of an argument is read whole, and cut where the key ends. -/
theorem loadLines_cons (h : Storable p) (fuel : Nat) (args acc : List Arg) :
    loadLines (fuel + 1) (linesOf (p :: args)) acc = loadLines fuel (linesOf args) (acc ++ [p]) := by
  have hline : '\n' ∉ p.1 ++ '=' :: p.2 := by
    intro hm
    rcases List.mem_append.mp hm with hm | hm
    · exact h.key_line hm
    · rcases List.mem_cons.mp hm with hm | hm
      · cases hm
      · exact h.value_line hm
  have hshort : (p.1 ++ '=' :: p.2).length + 1 < maxStringSize := Nat.add_lt_of_lt_sub h.short
  rw [loadLines, linesOf_cons, fgets_append hline hshort]
  dsimp only
  rw [List.getLast?_concat, if_pos rfl, List.dropLast_concat, if_neg (by simp), cutAt_append_cons _ h.separator]

theorem loadLines_linesOf (h : ∀ p ∈ args, Storable p) {fuel : Nat} (hf : args.length ≤ fuel) (acc : List Arg) :
    loadLines fuel (linesOf args) acc = (acc ++ args, .ok) := by
  induction args generalizing fuel acc with
  | nil =>
    rw [List.append_nil]
    cases fuel with
    | zero => rfl
    | succ fuel => rfl
  | cons p args ih =>
    obtain ⟨hp, h⟩ := List.forall_mem_cons.mp h
    cases fuel with
    | zero => cases hf
    | succ fuel =>
      rw [loadLines_cons hp, ih h (Nat.le_of_succ_le_succ hf), List.append_assoc]
      rfl

theorem loadFile_writeArgs (h : ∀ p ∈ args, Storable p) (name : List Char) (d : Disk) :
    loadFile (writeArgs name args d) name = (args, .ok) := by
  have hread : writeArgs name args d name = some (linesOf args) := if_pos rfl
  rw [loadFile, hread]
  exact loadLines_linesOf h (length_le_linesOf args) []

theorem reloads_of_storable (h : ∀ p ∈ args, Storable p) : Reloads args where
  saved location userid d := by
    unfold saveUser
    by_cases hne : args = []
    · rw [if_pos hne]
      exact iff_of_false Code.noConfusion fun hn => hn hne
    · rw [if_neg hne]
      exact iff_of_true rfl hne
  user location userid d d' hs := by
    unfold saveUser at hs
    by_cases hne : args = []
    · rw [if_pos hne] at hs
      cases hs
    · rw [if_neg hne] at hs
      cases hs
      exact loadFile_writeArgs h _ d
  session sys userid sessionid type d name d' hs := by
    unfold saveSession at hs
    by_cases hne : args = []
    · rw [if_pos hne] at hs
      cases hs
    · rw [if_neg hne] at hs
      cases hf : sessionFile sys userid sessionid args type with
      | error e =>
        rw [hf] at hs
        cases hs
      | ok name =>
        rw [hf] at hs
        cases hs
        exact loadFile_writeArgs h name d

theorem mem_setArg (hq : q ∈ setArg key value args) :
    q ∈ args ∨ q = (key.take maxStringSize, value.take maxStringSize) := by
  induction args with
  | nil => exact .inr (List.mem_singleton.mp hq)
  | cons p args ih =>
    rw [setArg] at hq
    split at hq
    · rcases List.mem_cons.mp hq with rfl | hq
      · exact .inr rfl
      · exact .inl (List.mem_cons_of_mem _ hq)
    · rcases List.mem_cons.mp hq with rfl | hq
      · exact .inl List.mem_cons_self
      · exact (ih hq).imp_left (List.mem_cons_of_mem _)

theorem sameKey_symm {a b : List Char} : sameKey a b = sameKey b a := decide_eq_decide.mpr eq_comm

theorem sameKey_trans {a b c : List Char} (hab : sameKey a b = true) : sameKey a c = sameKey b c := by
  unfold sameKey at hab ⊢
  rw [of_decide_eq_true hab]

/-- If no key comes twice, the argument that is written again is the only one with the key. -/
theorem setArg_eq (hs : Storable (key, value)) (hd : args.Pairwise fun p q => sameKey p.1 q.1 = false) :
    setArg key value args =
      if args.any fun p => sameKey p.1 key then args.map fun p => if sameKey p.1 key then (key, value) else p
      else args ++ [(key, value)] := by
  have hkv : (key.take maxStringSize, value.take maxStringSize) = (key, value) := hs.take_eq
  induction args with
  | nil => exact congrArg (fun p => [p]) hkv
  | cons p args ih =>
    obtain ⟨hp, hd⟩ := List.pairwise_cons.mp hd
    rw [setArg, hkv, ih hd, List.any_cons]
    by_cases hsame : sameKey p.1 key = true
    · have hothers : ∀ q ∈ args, sameKey q.1 key = false := by
        intro q hq
        rw [sameKey_symm, ← sameKey_trans hsame]
        exact hp q hq
      rw [if_pos hsame, hsame, Bool.true_or, if_pos rfl, List.map_cons, if_pos hsame]
      refine congrArg (List.cons _) (Eq.symm ?_)
      refine (List.map_congr_left fun q hq => ?_).trans (List.map_id _)
      rw [hothers q hq]
      rfl
    · have hfalse : sameKey p.1 key = false := Bool.eq_false_iff.mpr hsame
      rw [if_neg hsame, hfalse, Bool.false_or, List.map_cons, if_neg hsame]
      split
      · rfl
      · rfl

theorem getArg_setArg (hs : Storable (key, value)) (k : List Char) :
    getArg k (setArg key value args) = if sameKey key k then some value else getArg k args := by
  obtain ⟨hkey, hvalue⟩ : key.take maxStringSize = key ∧ value.take maxStringSize = value := Prod.mk.inj hs.take_eq
  induction args with
  | nil =>
    rw [setArg, hkey, hvalue]
    show (if sameKey key k then some (value.take maxStringSize) else none) = if sameKey key k then some value else none
    rw [hvalue]
  | cons p args ih =>
    rw [setArg]
    by_cases hsame : sameKey p.1 key = true
    · rw [if_pos hsame, hkey, hvalue, getArg, hvalue, getArg, sameKey_trans hsame]
      split
      · rfl
      · rfl
    · rw [if_neg hsame, getArg, getArg, ih]
      by_cases hk : sameKey key k = true
      · have hp : ¬ sameKey p.1 k = true := by
          rwa [sameKey_symm, ← sameKey_trans hk, sameKey_symm]
        rw [if_neg hp, if_pos hk, if_pos hk]
      · rw [if_neg hk, if_neg hk]

/-- The data of a user, with a value that has a separator and an empty one. -/
def sampleArgs : List Arg :=
  [("PASSWORD".toList, "*a=b".toList), ("LAST_SESSION_ID".toList, []), ("MAX_CORES".toList, "16".toList)]

theorem storable_sampleArgs : ∀ p ∈ ("max_cores".toList, "8".toList) :: sampleArgs, Storable p := by
  unfold sampleArgs
  simp only [List.forall_mem_cons]
  refine ⟨?_, ?_, ?_, ?_, fun p hp => absurd hp List.not_mem_nil⟩ <;>
    exact ⟨by decide, by decide, by decide, by decide, by decide⟩

end OphidiaWorkflow.Auth.Files
