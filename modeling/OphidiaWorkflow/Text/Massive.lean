import Mathlib.Data.List.DropRight
import Mathlib.Data.List.Enum
import OphidiaWorkflow.Lib.Cut

/-!
The objects of a massive operation: `_oph_mf_parse_query` splits its input into filters `[...]` and names, separated by
pipes, and asks `_oph_mf_parse_KV` for the objects of each filter.

What `_oph_mf_parse_KV` answers is a parameter: by the number of the call and the text that it is given. An entry of
`measure_name` that is not written is `none`. After an error the outputs are empty.
-/
namespace OphidiaWorkflow.Massive

open Lib

/-- `OPH_SERVER_OK`, `OPH_SERVER_ERROR` and `OPH_SERVER_NO_RESPONSE` -/
def serverOk : Nat := 0
def serverError : Nat := 3
def serverNoResponse : Nat := 8

/-- An entry of `measure_name`, which may be null. -/
abbrev Measure := Option (List Char)

/-- An answer of `_oph_mf_parse_KV`. -/
structure Reply where
  code : Nat
  objects : List (List Char)
  measures : Option (List Measure)
  running : Int
  length_measures : ∀ ms, measures = some ms → ms.length = objects.length

/-- `datacube_inputs`, `measure_name` and `running` so far; `counter` is the number of the objects. -/
structure Found where
  objects : List (List Char)
  measures : Option (List (Option Measure))
  running : Int
  deriving DecidableEq, Repr

/-- `undefined`: the text is left. -/
inductive QueryError
  | code (n : Nat)
  | undefined
  deriving DecidableEq, Repr

/-- What `_oph_mf_parse_query` returns, with its outputs. -/
structure Query extends Found where
  code : Nat
  counter : Nat
  deriving DecidableEq, Repr

/-- Whether spaces are kept after the character: `=` starts a value, and `:` ends it. -/
def keeps (keep : Bool) (c : Char) : Bool := if c = ':' then false else if c = '=' then true else keep

/-- The copy into `tmp`. -/
def skipSpaces : Bool → List Char → List Char
  | _, [] => []
  | keep, c :: s => if keeps keep c ∨ c ≠ ' ' then c :: skipSpaces (keeps keep c) s else skipSpaces (keeps keep c) s

/-- `_task_string`: the text between the brackets, with one `;` at its end. -/
def taskString (content : List Char) : List Char := content.rdropWhile (· = ';') ++ [';']

/-- The entries that are written for the objects of an answer, if there is a list of measures. -/
def Reply.written (r : Reply) : List (Option Measure) :=
  r.measures.elim (List.replicate r.objects.length none) fun ms => ms.map some

/-- The objects of an answer follow those found so far; `none`: `running` differs. -/
def Found.add (a : Found) (r : Reply) : Option Found :=
  if r.objects = [] then some a
  else if a.objects = [] then some ⟨r.objects, r.measures.map fun ms => ms.map some, r.running⟩
  else if a.running ≠ r.running then none
  else some ⟨a.objects ++ r.objects, a.measures.map fun ms => ms ++ r.written, a.running⟩

/-- What an answer does to `result` and the lists. -/
def takeReply (s : Nat × Found) (r : Reply) : Except QueryError (Nat × Found) :=
  if r.code = serverNoResponse then .ok (r.code, s.2)
  else if r.code ≠ serverOk then .error (.code r.code)
  else
    match s.2.add r with
    | none => .error (.code serverError)
    | some a => .ok (r.code, a)

/-- The loop over the filters; each takes a character of the text at least. -/
def filterLoop (kv : Nat → List Char → Reply) : Nat → Nat → List Char → Nat × Found → Except QueryError (Nat × Found)
  | 0, _, _, s => .ok s
  | fuel + 1, k, text, s =>
    match cutAt '[' text with
    | none => .ok s
    | some (_, rest) =>
      match cutAt ']' rest with
      | none => .error (.code serverError)
      | some (content, rest) =>
        match takeReply s (kv k (taskString content)) with
        | .error e => .error e
        | .ok s => filterLoop kv fuel (k + 1) rest s

/-- The check for pipes; `inside` is `bracket`. -/
def hasPipe : Bool → List Char → Bool
  | _, [] => false
  | false, c :: s => if c = '|' then true else hasPipe (c = '[') s
  | true, c :: s => hasPipe (c ≠ ']') s

/-- The loop that puts spaces for the pipes in brackets; `none`: it leaves the text. -/
def blankPipes : Bool → List Char → Option (List Char)
  | false, [] => some []
  | true, [] => none
  | false, c :: s => (blankPipes (c = '[') s).map fun t => c :: t
  | true, c :: s => (blankPipes (c ≠ ']') s).map fun t => (if c = '|' then ' ' else c) :: t

/-- There is no bracket before the next pipe. -/
def explicit (text : List Char) : Bool :=
  match cutAt '[' text with
  | none => true
  | some (before, _) => before.contains '|'

/-- The `while` loop that counts the names after the pipes. -/
def countAfter : List Char → Nat
  | [] => 0
  | c :: s => (if c = '|' ∧ explicit s then 1 else 0) + countAfter s

/-- `counter_` -/
def countNames (text : List Char) : Nat := (if explicit text then 1 else 0) + countAfter text

/-- From pipe to pipe, to the next text that starts with a name. -/
def nextExplicit : List Char → Option (List Char)
  | [] => none
  | c :: s => if c = '|' ∧ explicit s then some s else nextExplicit s

/-- The inner loop of the extraction; `none` is the error in counting. -/
def skipFilters (text : List Char) : Option (List Char) := if explicit text then some text else nextExplicit text

/-- The loop that extracts the names. -/
def extract : Nat → List Char → Option (List (List Char))
  | 0, _ => some []
  | n + 1, text =>
    (skipFilters text).bind fun text =>
      match cutAt '|' text with
      | none => (extract n text).map fun names => text :: names
      | some (name, rest) => (extract n rest).map fun names => name :: names

/-- The lists with room for the names. -/
def Found.addNames (a : Found) (names : List (List Char)) : Found :=
  ⟨a.objects ++ names, a.measures.map fun ms => ms ++ List.replicate names.length none, a.running⟩

/-- The first bracket is never closed. -/
def unclosed (text : List Char) : Bool := (cutAt '[' text).any fun p => !p.2.contains ']'

/-- `_oph_mf_parse_query` -/
def parseQuery (kv : Nat → List Char → Reply) (input : List Char) : Except QueryError Query :=
  let tmp := skipSpaces false input
  match filterLoop kv tmp.length 0 tmp (serverOk, ⟨[], none, -1⟩) with
  | .error e => .error e
  | .ok (result, a) =>
    if !hasPipe false input then .ok ⟨a, result, a.objects.length⟩
    else if unclosed tmp then .error (.code serverError)
    else
      match blankPipes false tmp with
      | none => .error .undefined
      | some text =>
        match extract (countNames text) text with
        | none => .error (.code serverError)
        | some names => .ok ⟨a.addNames names, serverOk, a.objects.length + countNames text⟩

inductive Piece
  | filter (content : List Char)
  | name (name : List Char)
  deriving DecidableEq, Repr

namespace Piece

/-- A piece, for the two delimiters of a filter. -/
def text (delimiters : Char × Char) : Piece → List Char
  | filter content => delimiters.1 :: (content ++ [delimiters.2])
  | name n => n

/-- A filter ends at its delimiter; a name is not empty and has no character with a meaning. -/
def Proper (delimiters : Char × Char) : Piece → Prop
  | filter content => delimiters.2 ∉ content
  | name n => n ≠ [] ∧ ∀ c ∈ [delimiters.1, delimiters.2, '|', ' ', '=', ':'], c ∉ n

/-- The names among the pieces. -/
def names : List Piece → List (List Char)
  | [] => []
  | filter _ :: ps => names ps
  | name n :: ps => n :: names ps

/-- What a text does to `result`. -/
def keepsAfter (keep : Bool) (s : List Char) : Bool := s.foldl keeps keep

/-- The texts that are passed for the filters. -/
def taskStrings : Bool → List Piece → List (List Char)
  | _, [] => []
  | keep, filter content :: ps => taskString (skipSpaces keep content) :: taskStrings (keepsAfter keep content) ps
  | keep, name _ :: ps => taskStrings keep ps

/-- The pieces, separated by pipes. -/
def joined (delimiters : Char × Char) (ps : List Piece) : List Char := ['|'].intercalate (ps.map (text delimiters))

end Piece

/-- The answers for the texts, from the call `k` on. -/
def repliesFrom (kv : Nat → List Char → Reply) : Nat → List (List Char) → List Reply
  | _, [] => []
  | k, t :: ts => kv k t :: repliesFrom kv (k + 1) ts

/-- The answers for the filters. -/
def replies (kv : Nat → List Char → Reply) (ps : List Piece) : List Reply :=
  repliesFrom kv 0 (Piece.taskStrings false ps)

/-- A list of objects, which may be empty. -/
def Reply.Lists (r : Reply) : Prop := r.code = serverOk ∨ r.code = serverNoResponse ∧ r.objects = []

/-- The objects of the filters in their order, and then the names in theirs. -/
structure Query.Gathers (kv : Nat → List Char → Reply) (ps : List Piece) (q : Query) : Prop where
  code : q.code = serverOk
  objects : q.objects = (replies kv ps).flatMap Reply.objects ++ Piece.names ps
  counter : q.counter = q.objects.length

/-- If there is a list of measures, it has an entry that is written for each object. -/
def Found.Measured (a : Found) : Prop := ∀ ms, a.measures = some ms → ms.length = a.objects.length ∧ none ∉ ms

section Replies

variable {a : Found} {r : Reply} {rs : List Reply} {running : Int} {s : Nat × Found}

/-- With the same `running` the objects are added. -/
theorem Found.add_eq (hr : r.running = running) (ha : a.objects ≠ [] → a.running = running) :
    ∃ a', a.add r = some a' ∧ a'.objects = a.objects ++ r.objects ∧ (a'.objects ≠ [] → a'.running = running) ∧
      ((r.objects ≠ [] → r.measures ≠ none) → a.Measured → a'.Measured) := by
  unfold Found.add
  split
  · next hempty => exact ⟨a, rfl, by rw [hempty, List.append_nil], ha, fun _ h => h⟩
  · next hobjects =>
    split
    · next hfirst =>
      refine ⟨_, rfl, by rw [hfirst, List.nil_append], fun _ => hr, fun hm _ ms hms => ?_⟩
      obtain ⟨ms', hms', rfl⟩ := Option.map_eq_some_iff.mp hms
      refine ⟨(List.length_map _).trans (r.length_measures ms' hms'), fun hnone => ?_⟩
      obtain ⟨m, -, hm⟩ := List.mem_map.mp hnone
      cases hm
    · next hmore =>
      rw [if_neg (not_not.mpr ((ha hmore).trans hr.symm))]
      refine ⟨_, rfl, rfl, fun _ => ha hmore, fun hm hmeasured ms hms => ?_⟩
      obtain ⟨ms₀, hms₀, rfl⟩ := Option.map_eq_some_iff.mp hms
      obtain ⟨hlength, hwritten⟩ := hmeasured ms₀ hms₀
      obtain ⟨ms', hms'⟩ := Option.ne_none_iff_exists'.mp (hm hobjects)
      have hnew : r.written = ms'.map some := by rw [Reply.written, hms', Option.elim_some]
      rw [hnew]
      refine ⟨?_, fun hnone => ?_⟩
      · rw [List.length_append, List.length_append, List.length_map, hlength, r.length_measures ms' hms']
      · rcases List.mem_append.mp hnone with hnone | hnone
        · exact hwritten hnone
        · obtain ⟨m, -, hm⟩ := List.mem_map.mp hnone
          cases hm

/-- The loop over the filters, by their answers. -/
theorem foldlM_takeReply (hr : ∀ r ∈ rs, r.Lists ∧ r.running = running)
    (ha : s.2.objects ≠ [] → s.2.running = running) :
    ∃ s', rs.foldlM takeReply s = .ok s' ∧ s'.2.objects = s.2.objects ++ rs.flatMap Reply.objects ∧
      ((∀ r ∈ rs, r.objects ≠ [] → r.measures ≠ none) → s.2.Measured → s'.2.Measured) := by
  induction rs generalizing s with
  | nil => exact ⟨s, rfl, by rw [List.flatMap_nil, List.append_nil], fun _ h => h⟩
  | cons r rs ih =>
    obtain ⟨⟨hlists, hrunning⟩, hr⟩ := List.forall_mem_cons.mp hr
    have htake : ∃ s', takeReply s r = .ok s' ∧ s'.2.objects = s.2.objects ++ r.objects ∧
        (s'.2.objects ≠ [] → s'.2.running = running) ∧
        ((r.objects ≠ [] → r.measures ≠ none) → s.2.Measured → s'.2.Measured) := by
      unfold takeReply
      rcases hlists with hok | ⟨hno, hempty⟩
      · obtain ⟨a, hadd, hobjects, hsame, hmeasured⟩ := Found.add_eq hrunning ha
        rw [if_neg (by rw [hok]; decide), if_neg (not_not.mpr hok), hadd]
        exact ⟨_, rfl, hobjects, hsame, hmeasured⟩
      · rw [if_pos hno]
        exact ⟨_, rfl, by rw [hempty, List.append_nil], ha, fun _ h => h⟩
    obtain ⟨s₁, htake, hobjects, hsame, hmeasured⟩ := htake
    obtain ⟨s', hrest, hobjects', hmeasured'⟩ := ih hr hsame
    refine ⟨s', ?_, ?_, fun hm h => ?_⟩
    · rw [List.foldlM_cons, htake]
      exact hrest
    · rw [hobjects', hobjects, List.flatMap_cons, List.append_assoc]
    · obtain ⟨hm, hms⟩ := List.forall_mem_cons.mp hm
      exact hmeasured' hms (hmeasured hm h)

end Replies

namespace Piece

variable {p : Piece} {ps : List Piece} {s t : List Char} {keep : Bool}

@[simp] theorem text_filter (content : List Char) : text ('[', ']') (filter content) = '[' :: (content ++ [']']) := rfl

@[simp] theorem text_name (n : List Char) : text ('[', ']') (name n) = n := rfl

/-- What follows a piece. -/
def tail (ps : List Piece) : List Char := ps.flatMap fun p => '|' :: p.text ('[', ']')

theorem tail_cons (p : Piece) (ps : List Piece) : tail (p :: ps) = '|' :: (p.text ('[', ']') ++ tail ps) := rfl

theorem joined_cons (p : Piece) (ps : List Piece) : joined ('[', ']') (p :: ps) = p.text ('[', ']') ++ tail ps := by
  induction ps generalizing p with
  | nil => rw [joined, List.map_singleton, List.intercalate_singleton, tail, List.flatMap_nil, List.append_nil]
  | cons q ps ih =>
    rw [tail_cons, ← ih, joined, joined, List.map_cons, List.map_cons, List.intercalate_cons_cons, List.append_assoc]
    rfl

/-- The pieces of the copy without spaces. -/
def skip : Bool → List Piece → List Piece
  | _, [] => []
  | keep, filter content :: ps => filter (skipSpaces keep content) :: skip (keepsAfter keep content) ps
  | keep, name n :: ps => name n :: skip keep ps

theorem skipSpaces_append (keep : Bool) (s t : List Char) :
    skipSpaces keep (s ++ t) = skipSpaces keep s ++ skipSpaces (keepsAfter keep s) t := by
  induction s generalizing keep with
  | nil => rfl
  | cons c s ih =>
    rw [List.cons_append, skipSpaces, skipSpaces, ih]
    split <;> rfl

theorem skipSpaces_cons {c : Char} (hc : keeps keep c = keep) (hs : c ≠ ' ') (s : List Char) :
    skipSpaces keep (c :: s) = c :: skipSpaces keep s := by
  rw [skipSpaces, if_pos (.inr hs), hc]

theorem keeps_of_ne {c : Char} (h : c ≠ ':') (h' : c ≠ '=') (keep : Bool) : keeps keep c = keep := by
  rw [keeps, if_neg h, if_neg h']

theorem skipSpaces_plain (h : ∀ c ∈ [' ', '=', ':'], c ∉ s) (keep : Bool) :
    skipSpaces keep s = s ∧ keepsAfter keep s = keep := by
  induction s with
  | nil => exact ⟨rfl, rfl⟩
  | cons c s ih =>
    have hne (x : Char) (hx : x ∈ [' ', '=', ':']) : c ≠ x := fun he => h x hx (he ▸ List.mem_cons_self)
    have hkeeps := keeps_of_ne (hne ':' (by simp)) (hne '=' (by simp)) keep
    obtain ⟨hskip, hafter⟩ := ih fun x hx hm => h x hx (List.mem_cons_of_mem _ hm)
    rw [skipSpaces_cons hkeeps (hne ' ' (by simp)), hskip]
    refine ⟨rfl, ?_⟩
    rw [keepsAfter, List.foldl_cons, hkeeps]
    exact hafter

theorem skipSpaces_text (hp : p.Proper ('[', ']')) (keep : Bool) (t : List Char) (ps : List Piece)
    (ht : ∀ keep, skipSpaces keep t = tail (skip keep ps)) :
    skipSpaces keep (p.text ('[', ']') ++ t) = joined ('[', ']') (skip keep (p :: ps)) := by
  cases p with
  | filter content =>
    rw [skip, joined_cons, text_filter, text_filter, List.cons_append, List.append_assoc, List.singleton_append,
      skipSpaces_cons (keeps_of_ne (by decide) (by decide) keep) (by decide), skipSpaces_append,
      skipSpaces_cons (keeps_of_ne (by decide) (by decide) _) (by decide), ht, List.cons_append, List.append_assoc,
      List.singleton_append]
  | name n =>
    obtain ⟨hskip, hafter⟩ := skipSpaces_plain (s := n) (fun c hc => hp.2 c (by simp at hc ⊢; tauto)) keep
    rw [skip, joined_cons, text_name, skipSpaces_append, hskip, hafter, ht]

theorem skipSpaces_tail (hp : ∀ p ∈ ps, p.Proper ('[', ']')) (keep : Bool) :
    skipSpaces keep (tail ps) = tail (skip keep ps) := by
  induction ps generalizing keep with
  | nil => rfl
  | cons p ps ih =>
    obtain ⟨hhead, hp⟩ := List.forall_mem_cons.mp hp
    rw [tail_cons, skipSpaces_cons (keeps_of_ne (by decide) (by decide) keep) (by decide),
      skipSpaces_text hhead keep _ ps (ih hp)]
    cases p with
    | filter content => rw [skip, joined_cons, tail_cons]
    | name n => rw [skip, joined_cons, tail_cons]

/-- The copy has the same pieces, with fewer spaces in the filters. -/
theorem skipSpaces_joined (hp : ∀ p ∈ ps, p.Proper ('[', ']')) (keep : Bool) :
    skipSpaces keep (joined ('[', ']') ps) = joined ('[', ']') (skip keep ps) := by
  cases ps with
  | nil => rfl
  | cons p ps =>
    obtain ⟨hhead, hp⟩ := List.forall_mem_cons.mp hp
    rw [joined_cons]
    exact skipSpaces_text hhead keep _ ps (skipSpaces_tail hp)

theorem length_skip (keep : Bool) (ps : List Piece) : (skip keep ps).length = ps.length := by
  induction ps generalizing keep with
  | nil => rfl
  | cons p ps ih =>
    cases p with
    | filter content => exact congrArg (· + 1) (ih _)
    | name n => exact congrArg (· + 1) (ih _)

theorem mem_of_mem_skipSpaces {c : Char} (h : c ∈ skipSpaces keep s) : c ∈ s := by
  induction s generalizing keep with
  | nil => cases h
  | cons x s ih =>
    rw [skipSpaces] at h
    split at h
    · rcases List.mem_cons.mp h with rfl | h
      · exact List.mem_cons_self
      · exact List.mem_cons_of_mem _ (ih h)
    · exact List.mem_cons_of_mem _ (ih h)

theorem proper_skip (hp : ∀ p ∈ ps, p.Proper ('[', ']')) (keep : Bool) : ∀ p ∈ skip keep ps, p.Proper ('[', ']') := by
  induction ps generalizing keep with
  | nil => exact hp
  | cons p ps ih =>
    obtain ⟨hhead, hrest⟩ := List.forall_mem_cons.mp hp
    cases p with
    | filter content => exact List.forall_mem_cons.mpr ⟨fun h => hhead (mem_of_mem_skipSpaces h), ih hrest _⟩
    | name n => exact List.forall_mem_cons.mpr ⟨hhead, ih hrest _⟩

theorem names_skip (keep : Bool) (ps : List Piece) : names (skip keep ps) = names ps := by
  induction ps generalizing keep with
  | nil => rfl
  | cons p ps ih =>
    cases p with
    | filter content => exact ih _
    | name n => exact congrArg (n :: ·) (ih _)

/-- The texts of the filters as they stand. -/
def contents : List Piece → List (List Char)
  | [] => []
  | filter content :: ps => taskString content :: contents ps
  | name _ :: ps => contents ps

theorem contents_skip (keep : Bool) (ps : List Piece) : contents (skip keep ps) = taskStrings keep ps := by
  induction ps generalizing keep with
  | nil => rfl
  | cons p ps ih =>
    cases p with
    | filter content => exact congrArg (taskString (skipSpaces keep content) :: ·) (ih _)
    | name n => exact ih _

end Piece

section Filters

variable {kv : Nat → List Char → Reply} {ps : List Piece} {s t : List Char} {c : Char} {fuel k : Nat}

theorem filterLoop_append (h : '[' ∉ s) (fuel k : Nat) (t : List Char) (a : Nat × Found) :
    filterLoop kv fuel k (s ++ t) a = filterLoop kv fuel k t a := by
  cases fuel with
  | zero => rfl
  | succ fuel =>
    rw [filterLoop, filterLoop, cutAt_append h]
    cases cutAt '[' t with
    | none => rfl
    | some p => rfl

theorem filterLoop_tail (hp : ∀ p ∈ ps, p.Proper ('[', ']')) (hf : (Piece.tail ps).length ≤ fuel + 1) (k : Nat)
    (a : Nat × Found) :
    filterLoop kv fuel k (Piece.tail ps) a = (repliesFrom kv k (Piece.contents ps)).foldlM takeReply a := by
  induction ps generalizing fuel k a with
  | nil =>
    cases fuel with
    | zero => rfl
    | succ fuel => rfl
  | cons p ps ih =>
    obtain ⟨hhead, hrest⟩ := List.forall_mem_cons.mp hp
    rw [Piece.tail_cons] at hf ⊢
    cases p with
    | name n =>
      have hbracket : '[' ∉ '|' :: n := by
        rintro (_ | ⟨_, hn⟩)
        exact hhead.2 '[' (by simp) hn
      rw [Piece.text_name, List.length_cons, List.length_append] at hf
      rw [Piece.text_name, ← List.cons_append, filterLoop_append hbracket]
      exact ih hrest (by omega) k a
    | filter content =>
      rw [Piece.text_filter, List.cons_append, List.append_assoc, List.singleton_append] at hf ⊢
      rw [List.length_cons, List.length_cons, List.length_append, List.length_cons] at hf
      obtain ⟨fuel, rfl⟩ : ∃ n, fuel = n + 1 := ⟨fuel - 1, by omega⟩
      have hopen : cutAt '[' ('|' :: '[' :: (content ++ ']' :: Piece.tail ps)) =
          some (['|'], content ++ ']' :: Piece.tail ps) :=
        cutAt_append_cons (b := ['|']) _ (by decide)
      rw [filterLoop, hopen]
      dsimp only
      rw [cutAt_append_cons _ hhead]
      dsimp only
      rw [Piece.contents, repliesFrom, List.foldlM_cons]
      cases takeReply a (kv k (taskString content)) with
      | error e => rfl
      | ok a' => exact ih hrest (by omega) (k + 1) a'

/-- The loop asks for the filters one after the other. -/
theorem filterLoop_joined (hp : ∀ p ∈ ps, p.Proper ('[', ']')) (k : Nat) (a : Nat × Found) :
    filterLoop kv (Piece.joined ('[', ']') ps).length k (Piece.joined ('[', ']') ps) a =
      (repliesFrom kv k (Piece.contents ps)).foldlM takeReply a := by
  cases ps with
  | nil => rfl
  | cons p ps =>
    have htail : Piece.tail (p :: ps) = ['|'] ++ Piece.joined ('[', ']') (p :: ps) := by
      rw [Piece.tail_cons, Piece.joined_cons]
      rfl
    have hlength : (Piece.tail (p :: ps)).length ≤ (Piece.joined ('[', ']') (p :: ps)).length + 1 := by
      rw [htail, List.length_append, List.length_singleton, Nat.add_comm]
    rw [← filterLoop_tail hp hlength, htail, filterLoop_append (by decide)]

theorem unclosed_of_filterLoop {a a' : Nat × Found} (h : filterLoop kv t.length k t a = .ok a') :
    unclosed t = false := by
  unfold unclosed
  cases hcut : cutAt '[' t with
  | none => rfl
  | some p =>
    have hlt := length_lt_of_cutAt hcut
    obtain ⟨fuel, hfuel⟩ : ∃ n, t.length = n + 1 := ⟨t.length - 1, by omega⟩
    rw [hfuel, filterLoop, hcut] at h
    dsimp only at h
    cases hclose : cutAt ']' p.2 with
    | none =>
      rw [hclose] at h
      cases h
    | some q =>
      have hmem : ']' ∈ p.2 := by
        rw [(eq_of_cutAt hclose).1]
        exact List.mem_append_right _ List.mem_cons_self
      simpa using hmem

end Filters

section Pipes

variable {p q : Piece} {ps : List Piece} {s t : List Char} {c : Char}

theorem hasPipe_name (h : '[' ∉ s) (t : List Char) : hasPipe false (s ++ '|' :: t) = true := by
  induction s with
  | nil => rfl
  | cons c s ih =>
    have hc : c ≠ '[' := (List.ne_of_not_mem_cons h).symm
    rw [List.cons_append, hasPipe]
    split
    · rfl
    · rw [decide_eq_false hc]
      exact ih (List.not_mem_of_not_mem_cons h)

theorem hasPipe_filter (h : ']' ∉ s) (t : List Char) : hasPipe true (s ++ ']' :: t) = hasPipe false t := by
  induction s with
  | nil => rfl
  | cons c s ih =>
    have hc : c ≠ ']' := (List.ne_of_not_mem_cons h).symm
    rw [List.cons_append, hasPipe, decide_eq_true hc]
    exact ih (List.not_mem_of_not_mem_cons h)

theorem hasPipe_joined (hp : p.Proper ('[', ']')) (q : Piece) (ps : List Piece) :
    hasPipe false (Piece.joined ('[', ']') (p :: q :: ps)) = true := by
  rw [Piece.joined_cons, Piece.tail_cons]
  cases p with
  | name n => exact hasPipe_name (hp.2 '[' (by simp)) _
  | filter content =>
    rw [Piece.text_filter, List.cons_append, List.append_assoc, List.singleton_append, hasPipe, if_neg (by decide)]
    exact hasPipe_filter hp _

/-- A piece after the pipes in its brackets are gone. -/
def Piece.blank : Piece → Piece
  | .filter content => .filter (content.map fun c => if c = '|' then ' ' else c)
  | .name n => .name n

theorem blankPipes_name (h : '[' ∉ s) (t : List Char) :
    blankPipes false (s ++ t) = (blankPipes false t).map fun t => s ++ t := by
  induction s with
  | nil => exact Option.map_id'.symm
  | cons c s ih =>
    have hc : c ≠ '[' := (List.ne_of_not_mem_cons h).symm
    rw [List.cons_append, blankPipes, decide_eq_false hc, ih (List.not_mem_of_not_mem_cons h), Option.map_map]
    rfl

theorem blankPipes_filter (h : ']' ∉ s) (t : List Char) : blankPipes true (s ++ ']' :: t) =
    (blankPipes false t).map fun t => (s.map fun c => if c = '|' then ' ' else c) ++ ']' :: t := by
  induction s with
  | nil => rfl
  | cons c s ih =>
    have hc : c ≠ ']' := (List.ne_of_not_mem_cons h).symm
    rw [List.cons_append, blankPipes, decide_eq_true hc, ih (List.not_mem_of_not_mem_cons h), Option.map_map]
    rfl

theorem blankPipes_text (hp : p.Proper ('[', ']')) (t : List Char) : blankPipes false (p.text ('[', ']') ++ t) =
    (blankPipes false t).map fun t => p.blank.text ('[', ']') ++ t := by
  cases p with
  | name n => exact blankPipes_name (hp.2 '[' (by simp)) t
  | filter content =>
    have hcontent := blankPipes_filter hp t
    rw [Piece.text_filter, List.cons_append, List.append_assoc, List.singleton_append, blankPipes, decide_eq_true rfl,
      hcontent, Option.map_map, Piece.blank, Piece.text_filter]
    simp only [List.cons_append, List.append_assoc]
    rfl

theorem blankPipes_tail (hp : ∀ p ∈ ps, p.Proper ('[', ']')) :
    blankPipes false (Piece.tail ps) = some (Piece.tail (ps.map Piece.blank)) := by
  induction ps with
  | nil => rfl
  | cons p ps ih =>
    obtain ⟨hhead, hrest⟩ := List.forall_mem_cons.mp hp
    rw [Piece.tail_cons, blankPipes, decide_eq_false (by decide), blankPipes_text hhead, ih hrest]
    rfl

theorem blankPipes_joined (hp : ∀ p ∈ ps, p.Proper ('[', ']')) :
    blankPipes false (Piece.joined ('[', ']') ps) = some (Piece.joined ('[', ']') (ps.map Piece.blank)) := by
  cases ps with
  | nil => rfl
  | cons p ps =>
    obtain ⟨hhead, hrest⟩ := List.forall_mem_cons.mp hp
    rw [Piece.joined_cons, blankPipes_text hhead, blankPipes_tail hrest, List.map_cons, Piece.joined_cons]
    rfl

theorem names_blank (ps : List Piece) : Piece.names (ps.map Piece.blank) = Piece.names ps := by
  induction ps with
  | nil => rfl
  | cons p ps ih =>
    cases p with
    | filter content => exact ih
    | name n => exact congrArg (n :: ·) ih

/-- No pipe is left in the piece, and a name has no bracket. -/
def Piece.Blanked : Piece → Prop
  | .filter content => '|' ∉ content
  | .name n => '[' ∉ n ∧ '|' ∉ n

theorem blanked_blank (hp : p.Proper ('[', ']')) : p.blank.Blanked := by
  cases p with
  | name n => exact ⟨hp.2 '[' (by simp), hp.2 '|' (by simp)⟩
  | filter content =>
    intro hmem
    obtain ⟨c, -, hc⟩ := List.mem_map.mp hmem
    split at hc
    · exact absurd hc (by decide)
    · next hne => exact hne hc

theorem pipe_not_mem_text (hp : p.Blanked) : '|' ∉ p.text ('[', ']') := by
  cases p with
  | name n => exact hp.2
  | filter content =>
    rw [Piece.text_filter, List.mem_cons, List.mem_append, List.mem_singleton]
    rintro (h | h | h)
    · exact absurd h (by decide)
    · exact hp h
    · exact absurd h (by decide)

def Piece.isName : Piece → Bool
  | .filter _ => false
  | .name _ => true

/-- The comparison of the next bracket with the next pipe tells a name from a filter. -/
theorem explicit_text (hp : p.Blanked) (ps : List Piece) :
    explicit (p.text ('[', ']') ++ Piece.tail ps) = p.isName := by
  unfold explicit
  cases p with
  | filter content => rfl
  | name n =>
    rw [Piece.text_name, cutAt_append hp.1]
    cases ps with
    | nil => rfl
    | cons q ps =>
      rw [Piece.tail_cons, cutAt, if_neg (by decide)]
      cases cutAt '[' (q.text ('[', ']') ++ Piece.tail ps) with
      | none => rfl
      | some r => simp [Piece.isName]

theorem countAfter_append (h : '|' ∉ s) (t : List Char) : countAfter (s ++ t) = countAfter t := by
  induction s with
  | nil => rfl
  | cons c s ih =>
    have hc : c ≠ '|' := (List.ne_of_not_mem_cons h).symm
    rw [List.cons_append, countAfter, if_neg fun hn => hc hn.1, Nat.zero_add]
    exact ih (List.not_mem_of_not_mem_cons h)

theorem length_names_cons (p : Piece) (ps : List Piece) :
    (Piece.names (p :: ps)).length = (if p.isName then 1 else 0) + (Piece.names ps).length := by
  cases p with
  | filter content => exact (Nat.zero_add _).symm
  | name n => exact Nat.add_comm _ _

theorem countAfter_tail (hp : ∀ p ∈ ps, p.Blanked) : countAfter (Piece.tail ps) = (Piece.names ps).length := by
  induction ps with
  | nil => rfl
  | cons p ps ih =>
    obtain ⟨hhead, hrest⟩ := List.forall_mem_cons.mp hp
    rw [Piece.tail_cons, countAfter, explicit_text hhead, countAfter_append (pipe_not_mem_text hhead), ih hrest,
      length_names_cons]
    simp

theorem countNames_joined (hp : ∀ r ∈ p :: ps, r.Blanked) :
    countNames (Piece.joined ('[', ']') (p :: ps)) = (Piece.names (p :: ps)).length := by
  obtain ⟨hhead, hrest⟩ := List.forall_mem_cons.mp hp
  rw [Piece.joined_cons, countNames, explicit_text hhead, countAfter_append (pipe_not_mem_text hhead),
    countAfter_tail hrest, length_names_cons]

theorem nextExplicit_append (h : '|' ∉ s) (t : List Char) : nextExplicit (s ++ t) = nextExplicit t := by
  induction s with
  | nil => rfl
  | cons c s ih =>
    have hc : c ≠ '|' := (List.ne_of_not_mem_cons h).symm
    rw [List.cons_append, nextExplicit, if_neg fun hn => hc hn.1]
    exact ih (List.not_mem_of_not_mem_cons h)

theorem skipFilters_filter {content : List Char} (h : '|' ∉ content) (q : Piece) (ps : List Piece) :
    skipFilters (Piece.joined ('[', ']') (.filter content :: q :: ps)) =
      skipFilters (Piece.joined ('[', ']') (q :: ps)) := by
  have hfilter : (Piece.filter content).Blanked := h
  rw [Piece.joined_cons, skipFilters, explicit_text hfilter, Piece.isName, if_neg Bool.false_ne_true,
    nextExplicit_append (pipe_not_mem_text hfilter), Piece.tail_cons, nextExplicit, Piece.joined_cons, skipFilters]
  simp

theorem extract_joined (hp : ∀ r ∈ p :: ps, r.Blanked) :
    extract (Piece.names (p :: ps)).length (Piece.joined ('[', ']') (p :: ps)) = some (Piece.names (p :: ps)) := by
  induction ps generalizing p with
  | nil =>
    obtain ⟨hhead, -⟩ := List.forall_mem_cons.mp hp
    cases p with
    | filter content => rfl
    | name n =>
      have hexplicit := explicit_text hhead []
      have htext : Piece.text ('[', ']') (.name n) ++ Piece.tail [] = n := List.append_nil n
      rw [htext] at hexplicit
      rw [Piece.joined_cons, htext]
      show extract 1 n = some [n]
      rw [extract, skipFilters, hexplicit, Piece.isName, if_pos rfl, Option.bind_some, cutAt_eq_none hhead.2]
      rfl
  | cons q ps ih =>
    obtain ⟨hhead, hrest⟩ := List.forall_mem_cons.mp hp
    have hextract := ih hrest
    cases p with
    | filter content =>
      rw [Piece.names]
      cases hn : (Piece.names (q :: ps)).length with
      | zero => rw [List.length_eq_zero_iff.mp hn, extract]
      | succ n =>
        rw [hn, extract] at hextract
        rw [extract, skipFilters_filter hhead]
        exact hextract
    | name n =>
      have hexplicit := explicit_text hhead (q :: ps)
      rw [Piece.names, List.length_cons, extract, Piece.joined_cons, skipFilters, hexplicit, Piece.isName, if_pos rfl,
        Option.bind_some, Piece.text_name, Piece.tail_cons, cutAt_append_cons _ hhead.2]
      dsimp only
      rw [← Piece.joined_cons, hextract]
      rfl

end Pipes

section Claim

variable {kv : Nat → List Char → Reply} {ps : List Piece} {running : Int}

/-- Two or more pieces: the objects of the filters are returned, and the names after them. If there is no name, and the
filters with objects have their measures, there is a measure for each object. -/
theorem parseQuery_joined (hlen : 2 ≤ ps.length) (hp : ∀ p ∈ ps, p.Proper ('[', ']'))
    (hr : ∀ r ∈ replies kv ps, r.Lists ∧ r.running = running) :
    ∃ q, parseQuery kv (Piece.joined ('[', ']') ps) = .ok q ∧ q.Gathers kv ps ∧
      (Piece.names ps = [] → (∀ r ∈ replies kv ps, r.objects ≠ [] → r.measures ≠ none) → q.Measured) := by
  have htmp := Piece.skipSpaces_joined hp false
  have hskip := Piece.proper_skip hp false
  obtain ⟨s, hfold, hobjects, hmeasured⟩ :=
    foldlM_takeReply (s := (serverOk, ⟨[], none, -1⟩)) hr fun hne => absurd rfl hne
  have hok : filterLoop kv _ 0 _ (serverOk, ⟨[], none, -1⟩) = .ok s := (filterLoop_joined hskip 0 _).trans
    (Piece.contents_skip false ps ▸ hfold)
  have hpipe : hasPipe false (Piece.joined ('[', ']') ps) = true := by
    rcases ps with _ | ⟨p, _ | ⟨q, ps⟩⟩
    · exact absurd hlen (by decide)
    · exact absurd hlen (Nat.not_succ_le_self 1)
    · exact hasPipe_joined (hp p List.mem_cons_self) q ps
  have hblank := blankPipes_joined hskip
  have hnames : Piece.names ((Piece.skip false ps).map Piece.blank) = Piece.names ps :=
    (names_blank _).trans (Piece.names_skip false ps)
  have hblanked : ∀ p ∈ (Piece.skip false ps).map Piece.blank, p.Blanked := by
    intro p hm
    obtain ⟨q, hq, rfl⟩ := List.mem_map.mp hm
    exact blanked_blank (hskip q hq)
  have hne : (Piece.skip false ps).map Piece.blank ≠ [] := by
    intro he
    have hlength := congrArg List.length he
    rw [List.length_map, Piece.length_skip, List.length_nil] at hlength
    omega
  obtain ⟨p, bs, hbs⟩ := List.exists_cons_of_ne_nil hne
  rw [hbs] at hblank hnames hblanked
  have hcount := countNames_joined hblanked
  have hextract := extract_joined hblanked
  rw [hnames] at hcount hextract
  refine ⟨⟨s.2.addNames (Piece.names ps), serverOk, s.2.objects.length + (Piece.names ps).length⟩, ?_,
    ⟨rfl, ?_, ?_⟩, ?_⟩
  · rw [parseQuery]
    rw [htmp, hok]
    dsimp only
    rw [hpipe, if_neg (by decide), unclosed_of_filterLoop hok, if_neg (by decide), hblank]
    dsimp only
    rw [hcount, hextract]
  · show s.2.objects ++ Piece.names ps = _
    rw [hobjects]
    rfl
  · exact List.length_append.symm
  · intro hnone hm ms hms
    obtain ⟨ms', hms', rfl⟩ := Option.map_eq_some_iff.mp hms
    have hstart : Found.Measured ⟨[], none, -1⟩ := fun ms hms => by cases hms
    obtain ⟨hlength, hwritten⟩ := hmeasured hm hstart ms' hms'
    show (ms' ++ List.replicate (Piece.names ps).length none).length = (s.2.objects ++ Piece.names ps).length ∧ _
    rw [hnone, List.append_nil]
    exact ⟨by simpa using hlength, by simpa using hwritten⟩

end Claim

section Samples

def sampleKv : Nat → List Char → Reply
  | 0, _ => ⟨serverOk, ["1/1".toList, "1/2".toList], none, 1, by simp⟩
  | _, _ => ⟨serverNoResponse, [], none, 1, by simp⟩

theorem mem_repliesFrom {kv : Nat → List Char → Reply} {k : Nat} {ts : List (List Char)} {r : Reply}
    (h : r ∈ repliesFrom kv k ts) : ∃ k t, r = kv k t := by
  induction ts generalizing k with
  | nil => cases h
  | cons t ts ih =>
    rcases List.mem_cons.mp h with rfl | h
    · exact ⟨k, t, rfl⟩
    · exact ih h

/-- Filters with spaces, pipes and brackets, the second of which finds nothing. -/
def samplePieces : List Piece :=
  [.filter "level = 1|2;;".toList, .name "2/3".toList, .filter "path=/[x".toList, .name "2/4".toList]

theorem parseQuery_sample : ∃ q, parseQuery sampleKv (Piece.joined ('[', ']') samplePieces) = .ok q ∧
    q.Gathers sampleKv samplePieces ∧ (Piece.names samplePieces = [] →
      (∀ r ∈ replies sampleKv samplePieces, r.objects ≠ [] → r.measures ≠ none) → q.Measured) := by
  have hproper : ∀ p ∈ samplePieces, p.Proper ('[', ']') := by simp [samplePieces, Piece.Proper]
  have hreplies : ∀ r ∈ replies sampleKv samplePieces, r.Lists ∧ r.running = 1 := by
    intro r hr
    obtain ⟨k, t, rfl⟩ := mem_repliesFrom hr
    cases k with
    | zero => exact ⟨.inl rfl, rfl⟩
    | succ k => exact ⟨.inr ⟨rfl, rfl⟩, rfl⟩
  exact parseQuery_joined (by decide) hproper hreplies

/-- The objects and the names are gathered, and there is a measure for each of them. -/
def Complete (delimiters : Char × Char) (kv : Nat → List Char → Reply) (ps : List Piece) : Prop :=
  ∃ q, parseQuery kv (Piece.joined delimiters ps) = .ok q ∧ q.Gathers kv ps ∧ q.Measured

def filterAndName : List Piece := [.filter "path=x".toList, .name "y".toList]

def oneMeasure (_ : Nat) (_ : List Char) : Reply := ⟨serverOk, ["1/1".toList], some [some "tas".toList], 1, by simp⟩

/-- Braces are not the delimiters of a filter; and the measure of a name is not written. -/
theorem not_complete :
    ¬Complete ('{', '}') oneMeasure filterAndName ∧ ¬Complete ('[', ']') oneMeasure filterAndName := by
  constructor
  · rintro ⟨q, hq, hgathers, -⟩
    have hbraces : parseQuery oneMeasure (Piece.joined ('{', '}') filterAndName) =
        .ok ⟨⟨["\x7bpath=x\x7d".toList, "y".toList], none, -1⟩, serverOk, 2⟩ := by decide
    cases hbraces.symm.trans hq
    exact absurd hgathers.objects (by decide)
  · rintro ⟨q, hq, -, hmeasured⟩
    have hname : parseQuery oneMeasure (Piece.joined ('[', ']') filterAndName) =
        .ok ⟨⟨["1/1".toList, "y".toList], some [some (some "tas".toList), none], 1⟩, serverOk, 2⟩ := by decide
    cases hname.symm.trans hq
    exact (hmeasured _ rfl).2 (by decide)

end Samples

end OphidiaWorkflow.Massive
