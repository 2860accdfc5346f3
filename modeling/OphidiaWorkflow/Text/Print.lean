import Mathlib.Data.List.DropRight
import OphidiaWorkflow.Text.Comments
import OphidiaWorkflow.Text.Parse

/-!
A printer with an indentation of four spaces: what it prints is parsed again.
-/
namespace OphidiaWorkflow.Json

def hexChar (n : Nat) : Char := if n < 10 then Char.ofNat (48 + n) else Char.ofNat (55 + n)

/-- How a character of a text is printed. -/
def escape (c : Char) : List Char :=
  if c = '"' then ['\\', '"']
  else if c = '\\' then ['\\', '\\']
  else if c = '\x08' then ['\\', 'b']
  else if c = '\x0c' then ['\\', 'f']
  else if c = '\n' then ['\\', 'n']
  else if c = '\r' then ['\\', 'r']
  else if c = '\t' then ['\\', 't']
  else if c.toNat < 0x20 then ['\\', 'u', '0', '0', hexChar (c.toNat / 16), hexChar (c.toNat % 16)]
  else [c]

def quoted (s : List Char) : List Char := '"' :: (s.flatMap escape ++ ['"'])

def newline (depth : Nat) : List Char := '\n' :: List.replicate (4 * depth) ' '

mutual

/-- What is printed for a value. Numbers, booleans and `null` are one value here, and no request is written with
them. -/
def dump (depth : Nat) : Json → List Char
  | string s => quoted s
  | array l => '[' :: ((if l.isEmpty then [] else dumpItems (depth + 1) l ++ newline depth) ++ [']'])
  | object ms => '{' :: ((if ms.isEmpty then [] else dumpMembers (depth + 1) ms ++ newline depth) ++ ['}'])
  | other => ['n', 'u', 'l', 'l']

def dumpItems (depth : Nat) : List Json → List Char
  | [] => []
  | j :: l => newline depth ++ dump depth j ++ (if l.isEmpty then [] else ',' :: dumpItems depth l)

def dumpMembers (depth : Nat) : List (String × Json) → List Char
  | [] => []
  | (k, j) :: ms =>
    newline depth ++ quoted k.toList ++ ": ".toList ++ dump depth j ++
      (if ms.isEmpty then [] else ',' :: dumpMembers depth ms)

end

def print (j : Json) : List Char := dump 0 j

section Texts

variable {c : Char} {s rest : List Char} {n : Nat} {ps : List Piece}

/-- The characters that are printed as a backslash and another character. -/
def escaped : List Char := ['"', '\\', '\x08', '\x0c', '\n', '\r', '\t']

theorem escape_cases (c : Char) :
    c ∈ escaped ∨
    (c ∉ escaped ∧ c.toNat < 0x20 ∧
      escape c = ['\\', 'u', '0', '0', hexChar (c.toNat / 16), hexChar (c.toNat % 16)]) ∨
    (c ∉ escaped ∧ ¬ c.toNat < 0x20 ∧ escape c = [c]) := by
  by_cases h : c ∈ escaped
  · exact .inl h
  · right
    have hn := h
    simp only [escaped, List.mem_cons, List.not_mem_nil, or_false, not_or] at hn
    obtain ⟨h₁, h₂, h₃, h₄, h₅, h₆, h₇⟩ := hn
    unfold escape
    simp only [h₁, h₂, h₃, h₄, h₅, h₆, h₇, if_false]
    by_cases hc : c.toNat < 0x20
    · exact .inl ⟨h, hc, if_pos hc⟩
    · exact .inr ⟨h, hc, if_neg hc⟩

/-- What the parser makes of a printed character. -/
def piece (c : Char) : Piece := if c.toNat < 0x20 ∧ c ∉ escaped then .unit c.toNat else .byte c

theorem codeUnit_hexChar : ∀ n < 32, codeUnit '0' '0' (hexChar (n / 16)) (hexChar (n % 16)) = some n := by decide

theorem hexChar_ne : ∀ n < 32, ∀ d ∈ [hexChar (n / 16), hexChar (n % 16)], d ≠ '"' ∧ d ≠ '\\' := by
  have hall : ∀ n < 32, [hexChar (n / 16), hexChar (n % 16)].all (fun d => d != '"' && d != '\\') = true := by decide
  intro n hn d hd
  simpa using List.all_eq_true.mp (hall n hn) d hd

theorem scanText_byte (hc : c ∉ escaped) (hn : ¬ c.toNat < 0x20) (rest : List Char) :
    scanText (c :: rest) = (scanText rest).map fun p => (.byte c :: p.1, p.2) := by
  rw [scanText]
  · exact if_neg hn
  · rintro rfl
    exact hc (by decide)
  · rintro a b c d s rfl
    exact absurd (by decide) hc
  · rintro d s rfl
    exact absurd (by decide) hc

theorem scanText_escape (c : Char) (rest : List Char) :
    scanText (escape c ++ rest) = (scanText rest).map fun p => (piece c :: p.1, p.2) := by
  rcases escape_cases c with h | ⟨h, hc, he⟩ | ⟨h, hc, he⟩
  · simp only [escaped, List.mem_cons, List.not_mem_nil, or_false] at h
    rcases h with rfl | rfl | rfl | rfl | rfl | rfl | rfl <;> rfl
  · rw [he, piece, if_pos ⟨hc, h⟩]
    show scanText ('\\' :: 'u' :: '0' :: '0' :: _ :: _ :: rest) = _
    rw [scanText, codeUnit_hexChar _ hc, Option.bind_some]
  · rw [he, piece, if_neg fun hp => hc hp.1]
    exact scanText_byte h hc rest

theorem decode_unit (hn : isHigh n = false) (hl : isLow n = false) :
    decode (.unit n :: ps) = (decode ps).map (utf8Bytes n ++ ·) := by
  match ps with
  | [] => simp [decode, hn, hl]
  | .byte c :: ps => simp [decode, hn, hl]
  | .unit m :: ps => simp [decode, hn, hl]

theorem decode_piece (c : Char) (ps : List Piece) : decode (piece c :: ps) = (decode ps).map (c :: ·) := by
  unfold piece
  split
  · next h =>
    have hn : isHigh c.toNat = false := by
      unfold isHigh
      simp only [Bool.and_eq_false_iff, decide_eq_false_iff_not]
      omega
    have hl : isLow c.toNat = false := by
      unfold isLow
      simp only [Bool.and_eq_false_iff, decide_eq_false_iff_not]
      omega
    have hb : utf8Bytes c.toNat = [c] := by
      rw [utf8Bytes, if_pos (by omega), Char.ofNat_toNat]
    rw [decode_unit hn hl, hb]
    rfl
  · rfl

theorem decode_map_piece (s : List Char) : decode (s.map piece) = some s := by
  induction s with
  | nil => rfl
  | cons c s ih => rw [List.map_cons, decode_piece, ih, Option.map_some]

theorem scanText_flatMap_escape (s rest : List Char) :
    scanText (s.flatMap escape ++ '"' :: rest) = some (s.map piece, rest) := by
  induction s with
  | nil => rfl
  | cons c s ih => rw [List.flatMap_cons, List.append_assoc, scanText_escape, ih, Option.map_some, List.map_cons]

theorem parseText_flatMap_escape (h : isText s = true) (rest : List Char) :
    parseText (s.flatMap escape ++ '"' :: rest) = some (s, rest) := by
  rw [parseText, scanText_flatMap_escape, Option.bind_some, decode_map_piece, Option.filter_some, if_pos h,
    Option.map_some]

theorem guarded_escape (c : Char) (prev : Option Char) : Guarded prev (escape c) := by
  rcases escape_cases c with h | ⟨h, hc, he⟩ | ⟨h, hc, he⟩
  · simp only [escaped, List.mem_cons, List.not_mem_nil, or_false] at h
    rcases h with rfl | rfl | rfl | rfl | rfl | rfl | rfl <;> exact ⟨by simp, by simp, trivial⟩
  · rw [he]
    refine ⟨by simp, by simp, by simp, by simp, fun hd => ?_, fun hd => ?_, trivial⟩
    · exact absurd hd (hexChar_ne _ hc _ (by simp)).1
    · exact absurd hd (hexChar_ne _ hc _ (by simp)).1
  · rw [he]
    refine ⟨?_, trivial⟩
    rintro rfl
    exact absurd (by decide) h

theorem guarded_flatMap_escape (s : List Char) (prev : Option Char) : Guarded prev (s.flatMap escape) := by
  induction s generalizing prev with
  | nil => trivial
  | cons c s ih => exact (guarded_escape c prev).append ih

theorem forall_mem_escaped {P : Char → Prop} [DecidablePred P] (h : escaped.all (fun c => P c) = true) :
    ∀ c ∈ escaped, P c :=
  fun c hc => of_decide_eq_true (List.all_eq_true.mp h c hc)

theorem escape_ne_nil (c : Char) : escape c ≠ [] := by
  rcases escape_cases c with hc | ⟨-, -, he⟩ | ⟨-, -, he⟩
  · exact forall_mem_escaped (P := fun c => escape c ≠ []) (by decide) c hc
  · exact he ▸ List.cons_ne_nil _ _
  · exact he ▸ List.cons_ne_nil _ _

theorem getLast?_escape {d : Char} (hd : d = '/' ∨ d = '\\') : (escape c).getLast? = some d ↔ c = d := by
  rcases escape_cases c with hc | ⟨hc, hn, he⟩ | ⟨-, -, he⟩
  · have hall : ∀ c ∈ escaped, ((escape c).getLast? = some '/' ↔ c = '/') ∧
        ((escape c).getLast? = some '\\' ↔ c = '\\') := forall_mem_escaped (by decide)
    rcases hd with rfl | rfl
    · exact (hall c hc).1
    · exact (hall c hc).2
  · have hall : ∀ n < 32, hexChar (n % 16) ≠ '/' ∧ hexChar (n % 16) ≠ '\\' := by decide +kernel
    have hne : hexChar (c.toNat % 16) ≠ d ∧ c ≠ d := by
      rcases hd with rfl | rfl
      · exact ⟨(hall c.toNat hn).1, by rintro rfl; exact absurd hn (by decide)⟩
      · exact ⟨(hall c.toNat hn).2, by rintro rfl; exact absurd hn (by decide)⟩
    rw [he]
    exact iff_of_false (fun h => hne.1 (Option.some.inj h)) hne.2
  · rw [he]
    exact Option.some_inj

theorem getLast?_flatMap_escape {d : Char} (hd : d = '/' ∨ d = '\\') :
    (s.flatMap escape).getLast? = some d ↔ s.getLast? = some d := by
  cases s using List.reverseRecOn with
  | nil => rfl
  | append_singleton s c =>
    have hne : (escape c).getLast? ≠ none := by
      rw [ne_eq, List.getLast?_eq_none_iff]
      exact escape_ne_nil c
    rw [List.flatMap_append, List.flatMap_singleton, List.getLast?_append,
      Option.or_of_isSome (Option.isSome_iff_ne_none.mpr hne), getLast?_escape hd, List.getLast?_concat,
      Option.some_inj]

theorem clean_quoted_escape (h : s.getLast? ≠ some '\\') : Clean (quoted s) :=
  clean_quoted (guarded_flatMap_escape s _) fun hl => h ((getLast?_flatMap_escape (.inr rfl)).mp hl)

end Texts

section Values

variable {j : Json} {l : List Json} {ms : List (String × Json)} {s rest : List Char} {c : Char} {fuel depth : Nat}

theorem skipBlanks_newline (depth : Nat) (s : List Char) : skipBlanks (newline depth ++ s) = skipBlanks s := by
  have h (n : Nat) : skipBlanks (List.replicate n ' ' ++ s) = skipBlanks s := by
    induction n with
    | zero => rfl
    | succ n ih => exact ih
  exact h (4 * depth)

theorem skipBlanks_cons (h : isBlank c = false) (s : List Char) : skipBlanks (c :: s) = c :: s := by
  rw [skipBlanks, List.dropWhile_cons, h]
  rfl

theorem skipBlanks_skipBlanks (s : List Char) : skipBlanks (skipBlanks s) = skipBlanks s :=
  List.dropWhile_idempotent _ _

theorem parseValue_skipBlanks (fuel : Nat) (s : List Char) : parseValue fuel (skipBlanks s) = parseValue fuel s := by
  cases fuel with
  | zero => simp only [parseValue]
  | succ fuel => rw [parseValue, parseValue, skipBlanks_skipBlanks]

theorem parseItems_skipBlanks (fuel : Nat) (s : List Char) : parseItems fuel (skipBlanks s) = parseItems fuel s := by
  cases fuel with
  | zero => simp only [parseItems]
  | succ fuel => rw [parseItems, parseItems, parseValue_skipBlanks]

theorem parseMembers_skipBlanks (fuel : Nat) (s : List Char) :
    parseMembers fuel (skipBlanks s) = parseMembers fuel s := by
  cases fuel with
  | zero => simp only [parseMembers]
  | succ fuel => rw [parseMembers, parseMembers, skipBlanks_skipBlanks]

theorem parseValue_newline (fuel depth : Nat) (s : List Char) :
    parseValue fuel (newline depth ++ s) = parseValue fuel s := by
  rw [← parseValue_skipBlanks, skipBlanks_newline, parseValue_skipBlanks]

/-- What may follow a value: nothing that goes on with a word. -/
def Ends (rest : List Char) : Prop := ∀ c ∈ rest.head?, c.isAlpha = false

theorem ends_cons (h : c.isAlpha = false) (s : List Char) : Ends (c :: s) := by
  rintro _ ⟨⟩
  exact h

theorem ends_newline (depth : Nat) (s : List Char) : Ends (newline depth ++ s) := ends_cons (by decide) _

theorem scalar_null (h : Ends rest) : scalar ('n' :: 'u' :: 'l' :: 'l' :: rest) = some rest := by
  have hs : rest.takeWhile Char.isAlpha = [] ∧ rest.dropWhile Char.isAlpha = rest := by
    cases rest with
    | nil => exact ⟨rfl, rfl⟩
    | cons c rest =>
      have hc : c.isAlpha = false := h c rfl
      rw [List.takeWhile_cons, List.dropWhile_cons, hc]
      exact ⟨rfl, rfl⟩
  have hw : ('n' :: 'u' :: 'l' :: 'l' :: rest).takeWhile Char.isAlpha = ['n', 'u', 'l', 'l'] := by
    show 'n' :: 'u' :: 'l' :: 'l' :: rest.takeWhile Char.isAlpha = _
    rw [hs.1]
  unfold scalar
  rw [hw]
  exact congrArg some hs.2

/-- A printed value is parsed again, in front of anything that may follow it. -/
def Read (j : Json) : Prop :=
  ∀ depth fuel rest, Ends rest → (dump depth j).length ≤ fuel → parseValue fuel (dump depth j ++ rest) = some (j, rest)

theorem read_string (h : isText s = true) : Read (string s) := by
  intro depth fuel rest _ hf
  cases fuel with
  | zero => simp [dump, quoted] at hf
  | succ fuel =>
    show parseValue (fuel + 1) ('"' :: (s.flatMap escape ++ ['"'] ++ rest)) = _
    rw [parseValue, skipBlanks_cons (by decide), List.append_assoc, List.singleton_append]
    show (parseText _).map _ = _
    rw [parseText_flatMap_escape h, Option.map_some]

theorem parseItems_dumpItems (h : ∀ j ∈ l, Read j) (hl : l ≠ []) (hf : (dumpItems depth l).length ≤ fuel)
    (d : Nat) (rest : List Char) :
    parseItems fuel (dumpItems depth l ++ (newline d ++ ']' :: rest)) = some (l, rest) := by
  induction l generalizing fuel with
  | nil => exact absurd rfl hl
  | cons j l ih =>
    have hj : Read j := h j List.mem_cons_self
    have hlen : (newline depth).length = 4 * depth + 1 := by
      rw [newline, List.length_cons, List.length_replicate]
    rw [dumpItems, List.length_append, List.length_append, hlen] at hf
    cases fuel with
    | zero => omega
    | succ fuel =>
      rw [parseItems, dumpItems, List.append_assoc, List.append_assoc, parseValue_newline]
      cases l with
      | nil =>
        rw [List.isEmpty_nil, if_pos rfl, List.nil_append, hj depth fuel _ (ends_newline d _) (by omega)]
        simp only [skipBlanks_newline]
        rfl
      | cons j' l =>
        rw [List.isEmpty_cons, if_neg Bool.false_ne_true, List.length_cons] at hf
        rw [List.isEmpty_cons, if_neg Bool.false_ne_true, List.cons_append,
          hj depth fuel _ (ends_cons (by decide) _) (by omega)]
        have hrest : parseItems fuel (dumpItems depth (j' :: l) ++ (newline d ++ ']' :: rest)) = some (j' :: l, rest) :=
          ih (fun i hi => h i (List.mem_cons_of_mem _ hi)) (List.cons_ne_nil _ _) (by omega)
        simp only [skipBlanks_cons (show isBlank ',' = false by decide), hrest, Option.map_some]

theorem parseMembers_dumpMembers (hk : ∀ m ∈ ms, isText m.1.toList = true) (h : ∀ m ∈ ms, Read m.2) (hms : ms ≠ [])
    (hf : (dumpMembers depth ms).length ≤ fuel) (d : Nat) (rest : List Char) :
    parseMembers fuel (dumpMembers depth ms ++ (newline d ++ '}' :: rest)) = some (ms, rest) := by
  induction ms generalizing fuel with
  | nil => exact absurd rfl hms
  | cons m ms ih =>
    obtain ⟨k, j⟩ := m
    have hj : Read j := h (k, j) List.mem_cons_self
    have hkj : isText k.toList = true := hk (k, j) List.mem_cons_self
    have hlen : (newline depth).length = 4 * depth + 1 := by
      rw [newline, List.length_cons, List.length_replicate]
    rw [dumpMembers] at hf
    simp only [List.length_append, hlen] at hf
    cases fuel with
    | zero => omega
    | succ fuel =>
      have hvalue (t : List Char) : parseValue fuel (' ' :: t) = parseValue fuel t := by
        cases fuel <;> rfl
      have hopen (t : List Char) :
          skipBlanks (quoted k.toList ++ t) = '"' :: (k.toList.flatMap escape ++ '"' :: t) := by
        rw [quoted, List.cons_append, List.append_assoc, skipBlanks_cons (by decide)]
        rfl
      have hcolon (t : List Char) : skipBlanks (": ".toList ++ t) = ':' :: ' ' :: t := rfl
      rw [parseMembers, dumpMembers]
      simp only [List.append_assoc, skipBlanks_newline, hopen, parseText_flatMap_escape hkj, hcolon, hvalue]
      cases ms with
      | nil =>
        rw [List.isEmpty_nil, if_pos rfl, List.nil_append, hj depth fuel _ (ends_newline d _) (by omega)]
        simp only [skipBlanks_newline, String.ofList_toList]
        rfl
      | cons m ms =>
        simp only [List.isEmpty_cons, Bool.false_eq_true, if_false, List.length_cons] at hf
        simp only [List.isEmpty_cons, Bool.false_eq_true, if_false, List.cons_append,
          hj depth fuel _ (ends_cons (show Char.isAlpha ',' = false by decide) _) (by omega)]
        have hrest : parseMembers fuel (dumpMembers depth (m :: ms) ++ (newline d ++ '}' :: rest)) =
            some (m :: ms, rest) :=
          ih (fun i hi => hk i (List.mem_cons_of_mem _ hi)) (fun i hi => h i (List.mem_cons_of_mem _ hi))
            (List.cons_ne_nil _ _) (by omega)
        simp only [skipBlanks_cons (show isBlank ',' = false by decide), hrest, Option.map_some, String.ofList_toList]

theorem skipBlanks_dump (depth : Nat) (j : Json) (s : List Char) :
    ∃ c t, skipBlanks (dump depth j ++ s) = c :: t ∧ c ≠ ']' := by
  cases j with
  | string t => exact ⟨_, _, skipBlanks_cons (by decide) _, by decide⟩
  | array l => exact ⟨_, _, skipBlanks_cons (by decide) _, by decide⟩
  | object ms => exact ⟨_, _, skipBlanks_cons (by decide) _, by decide⟩
  | other => exact ⟨_, _, skipBlanks_cons (by decide) _, by decide⟩

theorem read_array (h : ∀ j ∈ l, Read j) : Read (array l) := by
  intro depth fuel rest _ hf
  rw [dump, List.length_cons, List.length_append] at hf
  cases fuel with
  | zero => omega
  | succ fuel =>
    rw [dump, List.cons_append, parseValue_array (skipBlanks_cons (by decide) _), List.append_assoc,
      List.singleton_append]
    cases l with
    | nil => rfl
    | cons j l =>
      rw [List.isEmpty_cons, if_neg Bool.false_ne_true, List.length_append] at hf
      rw [List.isEmpty_cons, if_neg Bool.false_ne_true, List.append_assoc]
      have hitems : parseItems fuel (dumpItems (depth + 1) (j :: l) ++ (newline depth ++ ']' :: rest)) =
          some (j :: l, rest) :=
        parseItems_dumpItems h (List.cons_ne_nil j l) (by omega) depth rest
      split
      · next s hs =>
        rw [dumpItems, List.append_assoc, List.append_assoc, skipBlanks_newline] at hs
        obtain ⟨c, t, ht, hne⟩ := skipBlanks_dump (depth + 1) j
          ((if l.isEmpty then [] else ',' :: dumpItems (depth + 1) l) ++ (newline depth ++ ']' :: rest))
        rw [ht] at hs
        exact absurd (List.cons.inj hs).1 hne
      · rw [parseItems_skipBlanks, hitems, Option.map_some]

theorem read_object (hk : ∀ m ∈ ms, isText m.1.toList = true) (h : ∀ m ∈ ms, Read m.2) : Read (object ms) := by
  intro depth fuel rest _ hf
  rw [dump, List.length_cons, List.length_append] at hf
  cases fuel with
  | zero => omega
  | succ fuel =>
    rw [dump, List.cons_append, parseValue_object (skipBlanks_cons (by decide) _), List.append_assoc,
      List.singleton_append]
    cases ms with
    | nil => rfl
    | cons m ms =>
      rw [List.isEmpty_cons, if_neg Bool.false_ne_true, List.length_append] at hf
      rw [List.isEmpty_cons, if_neg Bool.false_ne_true, List.append_assoc]
      have hmembers : parseMembers fuel (dumpMembers (depth + 1) (m :: ms) ++ (newline depth ++ '}' :: rest)) =
          some (m :: ms, rest) :=
        parseMembers_dumpMembers hk h (List.cons_ne_nil m ms) (by omega) depth rest
      split
      · next s hs =>
        rw [dumpMembers, List.append_assoc, List.append_assoc, List.append_assoc, List.append_assoc,
          skipBlanks_newline, quoted, List.cons_append, skipBlanks_cons (by decide)] at hs
        exact absurd (List.cons.inj hs).1 (by decide)
      · rw [parseMembers_skipBlanks, hmembers, Option.map_some]

theorem read_other : Read other := by
  intro depth fuel rest hr hf
  cases fuel with
  | zero => exact absurd hf (by simp [dump])
  | succ fuel =>
    rw [parseValue, dump, List.cons_append, skipBlanks_cons (by decide)]
    show (scalar ('n' :: 'u' :: 'l' :: 'l' :: rest)).map _ = _
    rw [scalar_null hr, Option.map_some]

theorem read_of_sound (h : Sound j) : Read j := by
  induction h with
  | string h => exact read_string h
  | array h ih => exact read_array ih
  | object hk h ih => exact read_object hk ih
  | other => exact read_other

/-- Printing and parsing are inverse to each other on arrays and objects. -/
theorem parse_print (h : Sound j) (hj : Compound j) : parse (print j) = some j := by
  have hread := read_of_sound h 0 _ [] (fun c hc => nomatch hc) (Nat.le_refl _)
  rw [List.append_nil] at hread
  cases hj with
  | array l =>
    have hs : skipBlanks (print (array l)) = print (array l) := skipBlanks_cons (by decide) _
    unfold parse
    rw [hs]
    show (parseValue _ _).bind _ = _
    rw [print, hread]
    rfl
  | object ms =>
    have hs : skipBlanks (print (object ms)) = print (object ms) := skipBlanks_cons (by decide) _
    unfold parse
    rw [hs]
    show (parseValue _ _).bind _ = _
    rw [print, hread]
    rfl

end Values

end OphidiaWorkflow.Json
