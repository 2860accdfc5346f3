import OphidiaWorkflow.Lib.Cut
import OphidiaWorkflow.Lib.Decimal
import OphidiaWorkflow.Lib.Heap
import OphidiaWorkflow.Lib.Occurrence

/-!
`oph_read_job_queue`: the answer of the queue command is cut into lines twice, first to count the jobs and then to read
them.

A result `none` stands for a block that is read or freed after it has been freed, and for a null pointer that is
written.
-/
namespace OphidiaWorkflow.Server

open Lib

/-- A call of `strtok_r` with `\n`: the line, what the save pointer has passed, and what is left. The end of the line is
overwritten. -/
def strtokR (s : List Char) : Option (List Char × List Char × List Char) :=
  let blank := s.takeWhile (· = '\n')
  let line := (s.dropWhile (· = '\n')).takeWhile (· ≠ '\n')
  if line = [] then none
  else
    match (s.dropWhile (· = '\n')).dropWhile (· ≠ '\n') with
    | [] => some (line, blank ++ line, [])
    | _ :: left => some (line, blank ++ line ++ [Char.ofNat 0], left)

/-- A text in a block that is being cut: what has been passed, and what is left. -/
structure Cutting where
  heap : Heap (List Char)
  block : Nat
  passed : List Char
  left : List Char

/-- The text of a block up to its end, before it is cut. -/
def Cutting.start (heap : Heap (List Char)) (block : Nat) : Option Cutting :=
  (heap.load block).map fun s => ⟨heap, block, [], s.takeWhile (· ≠ Char.ofNat 0)⟩

/-- The next line; none without a block, a line `none` at the end. -/
def Cutting.next (c : Cutting) : Option (Option (List Char × Cutting)) :=
  (c.heap.load c.block).map fun _ => (strtokR c.left).map fun (line, passed, left) =>
    (line, ⟨c.heap.modify c.block fun _ => c.passed ++ passed ++ left, c.block, c.passed ++ passed, left⟩)

/-- `free` -/
def release (heap : Heap (List Char)) (block : Nat) : Option (Heap (List Char)) :=
  (heap.load block).map fun _ => heap.free block

section Source

variable (mark : List Char)

/-- The first loop: the lines in which the prefix is found are counted. -/
def countLoop : Nat → Cutting → Nat → Option (Cutting × Nat)
  | 0, _, _ => none
  | fuel + 1, c, n => c.next.bind fun found =>
    match found with
    | none => some (c, n)
    | some (line, c) => countLoop fuel c (if mark <:+: line then n + 1 else n)

/-- What the second loop reads of a line with the prefix. Without a blank a null pointer is written. -/
def queueEntry (line : List Char) : Option (Option (Int × List Char)) :=
  match occurrence mark line with
  | none => some none
  | some r => (cutAt ' ' (r.drop mark.length)).map fun p => some (readInt (r.drop mark.length), p.2)

/-- The second loop, with the arrays `list` and `username`. -/
def readLoop : Nat → Cutting → Nat → List Int → List (Option (List Char)) →
    Option (Cutting × List Int × List (Option (List Char)))
  | 0, _, _, _, _ => none
  | fuel + 1, c, i, list, username => c.next.bind fun found =>
    match found with
    | none => some (c, list, username)
    | some (line, c) => (queueEntry mark line).bind fun entry =>
      match entry with
      | none => readLoop fuel c i list username
      | some (id, user) =>
        if i < list.length ∧ i < username.length then
          readLoop fuel c (i + 1) (list.set i id) (username.set i (some user))
        else none

end Source

/-- `RMANAGER_SUCCESS` and `RMANAGER_ERROR` -/
inductive QueueCode
  | success | error
  deriving DecidableEq, Repr

/-- The result with the output arguments. -/
structure QueueAnswer where
  code : QueueCode := .success
  n : Nat := 0
  list : List Int := []
  username : List (Option (List Char)) := []
  deriving DecidableEq, Repr

/-- The surroundings: whether there is a queue command and whether it is run, what it answers, and whether `calloc` has
no block of size 0. -/
structure QueueCommand where
  configured : Bool := true
  submitted : Bool := true
  response : Option (List Char)
  callocNull : Bool := false
  deriving DecidableEq, Repr

/-- `oph_read_job_queue`; `mark` is the port of the server and the prefix of its jobs. -/
def readJobQueue (mark : List Char) (q : QueueCommand) : Option QueueAnswer :=
  if !q.configured then some {}
  else if !q.submitted then some { code := .error }
  else
    match q.response with
    | none => some {}
    | some response => do
      let (c, n) ← countLoop mark (response.length + 1) (← Cutting.start (Heap.empty.alloc response) 0) 0
      let heap ← release c.heap 0
      -- the two allocations of the arrays fail together
      if n = 0 ∧ q.callocNull then (release heap 0).map fun _ => { code := .error, n }
      else
        let (c, list, username) ← readLoop mark (response.length + 1) (← Cutting.start heap 0) 0 (List.replicate n 0)
          (List.replicate n none)
        (release c.heap 0).map fun _ => { n, list, username }

/-- A line of the listing. -/
inductive QueueLine
  | other (text : List Char)
  | job (before : List Char) (id : Int) (user : List Char)
  deriving DecidableEq, Repr

def QueueLine.text (mark : List Char) : QueueLine → List Char
  | other text => text
  | job before id user => before ++ mark ++ decimal id ++ ' ' :: user

/-- The listing that the queue command writes. -/
def listing (mark : List Char) (lines : List QueueLine) : List Char := lines.flatMap fun l => l.text mark ++ ['\n']

/-- The id and the user of a job. -/
def QueueLine.job? : QueueLine → Option (Int × List Char)
  | other _ => none
  | job _ id user => some (id, user)

/-- The answer that a listing stands for. -/
def expectedAnswer (lines : List QueueLine) : QueueAnswer :=
  let jobs := lines.filterMap QueueLine.job?
  { n := jobs.length, list := jobs.map Prod.fst, username := jobs.map fun j => some j.2 }

section Proofs

variable {mark s line passed left : List Char} {c : Cutting} {fuel n : Nat}

/-- The calls are those of `strtok`, which find the pieces of the text one after the other. -/
theorem strtokR_eq (s : List Char) : (strtokR s).map (fun p => (p.1, p.2.2)) = strtok '\n' s := by
  rw [strtokR, strtok]
  have hhead := List.head?_dropWhile_not (· = '\n') s
  cases hs : s.dropWhile (· = '\n') with
  | nil => rfl
  | cons x t =>
    rw [hs] at hhead
    have hx : x ≠ '\n' := by simpa using hhead
    have hline : (x :: t).takeWhile (· ≠ '\n') ≠ [] := by
      rw [List.takeWhile_cons_of_pos (by simpa using hx)]
      exact List.cons_ne_nil _ _
    rw [if_neg hline]
    dsimp only
    cases (x :: t).dropWhile (· ≠ '\n') with
    | nil => rfl
    | cons y left => rfl

theorem strtokR_none (h : strtokR s = none) : tokens '\n' s = [] :=
  tokens_of_strtok_none ((strtokR_eq s).symm.trans (congrArg _ h))

theorem strtokR_some (h : strtokR s = some (line, passed, left)) :
    tokens '\n' s = line :: tokens '\n' left ∧ left.length < s.length :=
  tokens_of_strtok ((strtokR_eq s).symm.trans (congrArg _ h))

/-- While the block is there, a line is cut from what is left, or there is none left. -/
theorem Cutting.next_cases (hload : (c.heap.load c.block).isSome = true) :
    c.next = some none ∧ tokens '\n' c.left = [] ∨
      ∃ line c', c.next = some (some (line, c')) ∧ tokens '\n' c.left = line :: tokens '\n' c'.left ∧
        c'.left.length < c.left.length ∧ c'.block = c.block ∧ (c'.heap.load c'.block).isSome = true := by
  obtain ⟨text, htext⟩ := Option.isSome_iff_exists.mp hload
  rw [next, htext, Option.map_some]
  cases hcut : strtokR c.left with
  | none => exact .inl ⟨rfl, strtokR_none hcut⟩
  | some p =>
    obtain ⟨line, passed, left⟩ := p
    obtain ⟨htokens, hlt⟩ := strtokR_some hcut
    refine .inr ⟨line, _, rfl, htokens, hlt, rfl, ?_⟩
    rw [Heap.load_modify_self, htext]
    rfl

/-- The first loop counts the lines with the prefix. -/
theorem countLoop_eq (mark : List Char) (hload : (c.heap.load c.block).isSome = true) (hfuel : c.left.length < fuel)
    (n : Nat) :
    ∃ c', countLoop mark fuel c n = some (c', n + (tokens '\n' c.left).countP fun l => mark <:+: l) ∧
      c'.block = c.block ∧ (c'.heap.load c'.block).isSome = true := by
  induction fuel generalizing c n with
  | zero => cases hfuel
  | succ fuel ih =>
    rw [countLoop]
    rcases Cutting.next_cases hload with ⟨hnext, hnil⟩ | ⟨line, c₁, hnext, htokens, hlt, hblock, hload₁⟩
    · rw [hnext, hnil]
      exact ⟨c, rfl, rfl, hload⟩
    · obtain ⟨c', hc', hsame, hload'⟩ := ih hload₁ (by omega) (if mark <:+: line then n + 1 else n)
      refine ⟨c', ?_, hsame.trans hblock, hload'⟩
      rw [hnext, Option.bind_some]
      dsimp only
      rw [hc', htokens, List.countP_cons]
      by_cases hmark : mark <:+: line
      · rw [if_pos hmark, if_pos (decide_eq_true hmark)]
        congr 2
        omega
      · rw [if_neg hmark, if_neg (by simpa using hmark)]
        rfl

theorem take_succ_set {α : Type*} {l : List α} {i : Nat} (h : i < l.length) (a : α) :
    (l.set i a).take (i + 1) = l.take i ++ [a] := by
  have hlength : (l.take i).length = i := List.length_take_of_le h.le
  rw [List.set_eq_take_append_cons_drop, if_pos h, List.append_cons]
  exact List.take_left' (by rw [List.length_append, hlength, List.length_singleton])

/-- From the index `i` on, the second loop fills the arrays with what it reads of the lines. -/
theorem readLoop_eq {i : Nat} {list : List Int} {username : List (Option (List Char))}
    {entries : List (Option (Int × List Char))} (hload : (c.heap.load c.block).isSome = true)
    (hfuel : c.left.length < fuel) (hentries : (tokens '\n' c.left).mapM (queueEntry mark) = some entries)
    (hlist : list.length = i + (entries.filterMap id).length) (husername : username.length = list.length) :
    ∃ c', readLoop mark fuel c i list username = some (c', list.take i ++ (entries.filterMap id).map Prod.fst,
      username.take i ++ (entries.filterMap id).map fun e => some e.2) := by
  induction fuel generalizing c i list username entries with
  | zero => cases hfuel
  | succ fuel ih =>
    rw [readLoop]
    rcases Cutting.next_cases hload with ⟨hnext, hnil⟩ | ⟨line, c₁, hnext, htokens, hlt, -, hload₁⟩
    · rw [hnil, List.mapM_nil] at hentries
      obtain rfl := Option.some.inj hentries
      have htake : list.take i = list := List.take_of_length_le hlist.le
      have htake' : username.take i = username := List.take_of_length_le (husername.trans hlist).le
      rw [hnext, htake, htake']
      exact ⟨c, by simp⟩
    · rw [htokens, List.mapM_cons] at hentries
      obtain ⟨e, he, hrest⟩ := Option.bind_eq_some_iff.mp hentries
      obtain ⟨es, hes, hcons⟩ := Option.bind_eq_some_iff.mp hrest
      obtain rfl := Option.some.inj hcons
      rw [hnext, Option.bind_some]
      dsimp only
      rw [he, Option.bind_some]
      -- a line without the prefix leaves the arrays and the index as they are
      cases e with
      | none =>
        have hskip : (none :: es).filterMap id = es.filterMap id := rfl
        rw [hskip] at hlist ⊢
        exact ih hload₁ (by omega) hes hlist husername
      | some e =>
        obtain ⟨n, user⟩ := e
        have htake : (some (n, user) :: es).filterMap id = (n, user) :: es.filterMap id := rfl
        rw [htake, List.length_cons] at hlist
        have hlist' : (list.set i n).length = i + 1 + (es.filterMap id).length := by
          rw [List.length_set]
          omega
        have husername' : (username.set i (some user)).length = (list.set i n).length := by
          rw [List.length_set, List.length_set, husername]
        dsimp only
        rw [if_pos ⟨by omega, by omega⟩]
        obtain ⟨c', hc'⟩ := ih hload₁ (by omega) hes hlist' husername'
        refine ⟨c', ?_⟩
        rw [hc', take_succ_set (by omega), take_succ_set (by omega)]
        simp

/-- Lines as the queue command writes them: the prefix is not found before the one of the job. -/
def QueueLine.WellFormed (mark : List Char) : QueueLine → Prop
  | other text => text ≠ [] ∧ '\n' ∉ text ∧ ¬mark <:+: text
  | job before id user => ¬mark <:+: before ++ mark.dropLast ∧ '\n' ∉ before ∧ '\n' ∉ user ∧ toInt32 id = id

theorem QueueLine.WellFormed.text_mem {l : QueueLine} (h : l.WellFormed mark) (hmark : '\n' ∉ mark) :
    l.text mark ≠ [] ∧ '\n' ∉ l.text mark := by
  cases l with
  | other text => exact ⟨h.1, h.2.1⟩
  | job before id user =>
    refine ⟨List.append_ne_nil_of_right_ne_nil _ (List.cons_ne_nil _ _), ?_⟩
    rw [QueueLine.text, List.mem_append, List.mem_append, List.mem_append, List.mem_cons]
    rintro (((hm | hm) | hm) | hm | hm)
    · exact h.2.1 hm
    · exact hmark hm
    · exact not_mem_decimal id (by decide) (by decide) hm
    · exact absurd hm (by decide)
    · exact h.2.2.1 hm

theorem tokens_listing (hmark : '\n' ∉ mark) {lines : List QueueLine} (h : ∀ l ∈ lines, l.WellFormed mark) :
    tokens '\n' (listing mark lines) = lines.map fun l => l.text mark := by
  induction lines with
  | nil => rfl
  | cons l lines ih =>
    obtain ⟨hl, hlines⟩ := List.forall_mem_cons.mp h
    obtain ⟨hne, hmem⟩ := hl.text_mem hmark
    rw [listing, List.flatMap_cons, List.append_assoc, List.singleton_append, tokens_append_cons hne hmem,
      List.map_cons]
    exact congrArg _ (ih hlines)

/-- Of a line the second loop reads what the line stands for. -/
theorem queueEntry_text {l : QueueLine} (h : l.WellFormed mark) : queueEntry mark (l.text mark) = some l.job? := by
  cases l with
  | other text =>
    have hnone : occurrence mark text = none := occurrence_eq_none_iff.mpr h.2.2
    rw [queueEntry, QueueLine.text, hnone]
    rfl
  | job before id user =>
    have hfound : occurrence mark (QueueLine.text mark (.job before id user)) =
        some (mark ++ (decimal id ++ ' ' :: user)) := by
      have hself := occurrence_append_self h.1
      have hin : mark <:+: before ++ mark := (List.suffix_append _ _).isInfix
      rw [QueueLine.text, List.append_assoc, occurrence_append_left hin, hself]
      rfl
    have hblank : ' ' ∉ decimal id := not_mem_decimal id (by decide) (by decide)
    have hread : readInt (decimal id ++ ' ' :: user) = id := by
      rw [readInt, strtol_append_cons (by decide) (by rw [dropWhile_isSpace_decimal]; exact decimal_ne_nil id),
        strtol_decimal_int32 h.2.2.2, h.2.2.2]
    rw [queueEntry, hfound]
    dsimp only
    rw [List.drop_left, cutAt_append_cons _ hblank, hread]
    rfl

theorem mapM_queueEntry {lines : List QueueLine} (h : ∀ l ∈ lines, l.WellFormed mark) :
    (lines.map fun l => l.text mark).mapM (queueEntry mark) = some (lines.map QueueLine.job?) := by
  induction lines with
  | nil => rfl
  | cons l lines ih =>
    obtain ⟨hl, hlines⟩ := List.forall_mem_cons.mp h
    rw [List.map_cons, List.mapM_cons, queueEntry_text hl, ih hlines]
    rfl

/-- On a listing that is still there, the second loop reads the answer that it stands for. -/
theorem readLoop_listing (hmark : '\n' ∉ mark) {lines : List QueueLine} (h : ∀ l ∈ lines, l.WellFormed mark)
    (hload : (c.heap.load c.block).isSome = true) (hleft : c.left = listing mark lines) (hfuel : c.left.length < fuel) :
    ∃ c', readLoop mark fuel c 0 (List.replicate (expectedAnswer lines).n 0)
      (List.replicate (expectedAnswer lines).n none) =
        some (c', (expectedAnswer lines).list, (expectedAnswer lines).username) := by
  have hentries : (tokens '\n' c.left).mapM (queueEntry mark) = some (lines.map QueueLine.job?) := by
    rw [hleft, tokens_listing hmark h, mapM_queueEntry h]
  have hjobs : (lines.map QueueLine.job?).filterMap id = lines.filterMap QueueLine.job? := by
    rw [List.filterMap_map]
    rfl
  have hlength : (List.replicate (expectedAnswer lines).n (0 : Int)).length =
      0 + ((lines.map QueueLine.job?).filterMap id).length := by
    rw [List.length_replicate, hjobs, Nat.zero_add]
    rfl
  have hsame : (List.replicate (expectedAnswer lines).n (none : Option (List Char))).length =
      (List.replicate (expectedAnswer lines).n (0 : Int)).length := by
    rw [List.length_replicate, List.length_replicate]
  obtain ⟨c', hc'⟩ := readLoop_eq hload hfuel hentries hlength hsame
  refine ⟨c', ?_⟩
  rw [hc', hjobs]
  rfl

/-- The second loop, or an error exit before it, meets a block that has been freed. -/
theorem readJobQueue_eq_none (mark response : List Char) (callocNull : Bool) :
    readJobQueue mark { response := some response, callocNull } = none := by
  have hload : (Heap.empty.alloc response).load 0 = some response := Heap.load_alloc_self .empty response
  have hstart : Cutting.start (Heap.empty.alloc response) 0 =
      some ⟨Heap.empty.alloc response, 0, [], response.takeWhile (· ≠ Char.ofNat 0)⟩ := by
    rw [Cutting.start, hload]
    rfl
  have hfuel : (response.takeWhile (· ≠ Char.ofNat 0)).length < response.length + 1 :=
    Nat.lt_succ_of_le (List.takeWhile_prefix _).length_le
  obtain ⟨c, hcount, hblock, hc⟩ := countLoop_eq mark (c := ⟨_, 0, [], _⟩) (by rw [hload]; rfl) hfuel 0
  have hblock : c.block = 0 := hblock
  rw [hblock] at hc
  obtain ⟨text, htext⟩ := Option.isSome_iff_exists.mp hc
  -- the block is freed after the count, and both exits come back to it
  have hfreed : (c.heap.free 0).load 0 = none := Heap.load_free_self ..
  have hrelease : release c.heap 0 = some (c.heap.free 0) := by
    rw [release, htext]
    rfl
  have hagain : release (c.heap.free 0) 0 = none := by
    rw [release, hfreed]
    rfl
  have hcut : Cutting.start (c.heap.free 0) 0 = none := by
    rw [Cutting.start, hfreed]
    rfl
  show ((Cutting.start (Heap.empty.alloc response) 0).bind fun c =>
    (countLoop mark (response.length + 1) c 0).bind _) = none
  rw [hstart, Option.bind_some, hcount, Option.bind_some]
  dsimp only
  rw [hrelease]
  show (if _ then (release (c.heap.free 0) 0).map _ else (Cutting.start (c.heap.free 0) 0).bind _) = none
  rw [hagain, hcut]
  exact ite_self none

/-- No listing is answered by what it stands for. -/
theorem readJobQueue_ne_expectedAnswer (mark : List Char) (lines : List QueueLine) (callocNull : Bool) :
    readJobQueue mark { response := some (listing mark lines), callocNull } ≠ some (expectedAnswer lines) := by
  rw [readJobQueue_eq_none]
  exact (Option.some_ne_none _).symm

/-- The listing of one job of the server at port 11732. -/
theorem readJobQueue_one : ¬ readJobQueue "11732oph".toList
    { response := some (listing "11732oph".toList [.job "ophidia ".toList 7 "root".toList]) } =
      some (expectedAnswer [.job "ophidia ".toList 7 "root".toList]) := by
  decide +kernel

end Proofs

end OphidiaWorkflow.Server
