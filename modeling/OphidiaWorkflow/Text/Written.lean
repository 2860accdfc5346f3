import OphidiaWorkflow.Text.Print

/-!
Texts that are put together from pieces: what they say, and that neither the stripper of the comments nor a parser is
stopped by them.
-/
namespace OphidiaWorkflow.Json

def inQuotes (s : List Char) : List Char := '"' :: (s ++ ['"'])

/-- A text that is read as it stands between quotes. -/
structure Verbatim (s : List Char) : Prop where
  utf8 : validUtf8 s = true
  printable : ∀ c ∈ s, c ≠ '"' ∧ c ≠ '\\' ∧ 0x20 ≤ c.toNat

/-- Spaces and the like. -/
def Blanks (b : List Char) : Prop := ∀ c ∈ b, isBlank c = true

mutual

/-- The text says the value. -/
inductive WrittenValue : List Char → Json → Prop
  | text {s : List Char} (h : Verbatim s) : WrittenValue (inQuotes s) (string s)
  | array {t : List Char} {l : List Json} (h : WrittenItems t l) : WrittenValue ('[' :: t) (array l)
  | object {t : List Char} {ms : List (String × Json)} (h : WrittenMembers t ms) : WrittenValue ('\x7b' :: t) (object ms)
  | blanks {b a : List Char} {j : Json} (hb : Blanks b) (h : WrittenValue a j) : WrittenValue (b ++ a) j

/-- The text says the items of an array and closes it. -/
inductive WrittenItems : List Char → List Json → Prop
  | last {a b : List Char} {j : Json} (h : WrittenValue a j) (hb : Blanks b) : WrittenItems (a ++ (b ++ [']'])) [j]
  | cons {a t : List Char} {j : Json} {l : List Json} (h : WrittenValue a j) (ht : WrittenItems t l) :
    WrittenItems (a ++ ',' :: t) (j :: l)

/-- The text says the members of an object and closes it. -/
inductive WrittenMembers : List Char → List (String × Json) → Prop
  | last {k a b : List Char} {j : Json} (hk : Verbatim k) (h : WrittenValue a j) (hb : Blanks b) :
    WrittenMembers (inQuotes k ++ ':' :: (a ++ (b ++ ['\x7d']))) [(String.ofList k, j)]
  | cons {k a b t : List Char} {j : Json} {ms : List (String × Json)} (hk : Verbatim k) (h : WrittenValue a j)
    (hb : Blanks b) (ht : WrittenMembers t ms) :
    WrittenMembers (inQuotes k ++ ':' :: (a ++ (b ++ ',' :: t))) ((String.ofList k, j) :: ms)
  | blanks {b a : List Char} {ms : List (String × Json)} (hb : Blanks b) (h : WrittenMembers a ms) :
    WrittenMembers (b ++ a) ms

end

variable {a b s t k : List Char} {c : Char} {j : Json} {l : List Json} {ms : List (String × Json)} {fuel : Nat}

theorem Verbatim.isText (h : Verbatim s) : isText s = true := by
  have hnull : '\x00' ∉ s := fun hs => absurd (h.printable _ hs).2.2 (by decide)
  rw [Json.isText, h.utf8, Bool.true_and, decide_eq_true hnull]

theorem Verbatim.last (h : Verbatim s) : s.getLast? ≠ some '\\' :=
  fun hs => (h.printable _ (List.mem_of_getLast? hs)).2.1 rfl

theorem Verbatim.quoted_eq (h : Verbatim s) : quoted s = inQuotes s := by
  have hescape : s.flatMap escape = s := by
    have hc : ∀ c ∈ s, escape c = [c] := by
      intro c hc
      obtain ⟨hquote, hback, hlow⟩ := h.printable c hc
      rcases escape_cases c with hesc | ⟨-, hlt, -⟩ | ⟨-, -, he⟩
      · -- the others of these characters are below the space
        simp only [escaped, List.mem_cons, List.not_mem_nil, or_false] at hesc
        rcases hesc with rfl | rfl | rfl | rfl | rfl | rfl | rfl
        · exact absurd rfl hquote
        · exact absurd rfl hback
        all_goals exact absurd hlow (by decide)
      · exact absurd hlow (Nat.not_le.mpr hlt)
      · exact he
    rw [List.flatMap_congr hc, List.flatMap_singleton']
  rw [quoted, hescape, inQuotes]

theorem verbatim_of_plain (h : s.all (fun c => c ≠ '"' ∧ c ≠ '\\' ∧ 0x20 ≤ c.toNat ∧ c.toNat ≤ 0x7F) = true) :
    Verbatim s := by
  have hs : ∀ c ∈ s, c ≠ '"' ∧ c ≠ '\\' ∧ 0x20 ≤ c.toNat ∧ c.toNat ≤ 0x7F :=
    fun c hc => of_decide_eq_true (List.all_eq_true.mp h c hc)
  exact ⟨validUtf8_of_ascii fun c hc => (hs c hc).2.2.2, fun c hc => ⟨(hs c hc).1, (hs c hc).2.1, (hs c hc).2.2.1⟩⟩

theorem blanks_nil : Blanks [] := fun _ hc => absurd hc List.not_mem_nil

theorem skipBlanks_append (hb : Blanks b) (s : List Char) : skipBlanks (b ++ s) = skipBlanks s :=
  List.dropWhile_append_of_pos hb

section Clean

theorem Blanks.clean (hb : Blanks b) : Clean b := by
  apply clean_of_quiet
  intro c hc
  have h := hb c hc
  unfold isBlank at h
  simp only [Bool.or_eq_true, decide_eq_true_eq] at h
  rcases h with ((rfl | rfl) | rfl) | rfl <;> decide

theorem clean_cons (hc : quiet c = true) (h : Clean s) : Clean (c :: s) := (clean_singleton hc).append h

theorem Verbatim.clean (h : Verbatim s) : Clean (inQuotes s) := h.quoted_eq ▸ clean_quoted_escape h.last

mutual

theorem WrittenValue.clean {a : List Char} {j : Json} : WrittenValue a j → Clean a
  | .text h => h.clean
  | .array h => clean_cons (by decide) (WrittenItems.clean h)
  | .object h => clean_cons (by decide) (WrittenMembers.clean h)
  | .blanks hb h => hb.clean.append (WrittenValue.clean h)

theorem WrittenItems.clean {t : List Char} {l : List Json} : WrittenItems t l → Clean t
  | .last h hb => (WrittenValue.clean h).append (hb.clean.append (clean_singleton (by decide)))
  | .cons h ht => (WrittenValue.clean h).append (clean_cons (by decide) (WrittenItems.clean ht))

theorem WrittenMembers.clean {t : List Char} {ms : List (String × Json)} : WrittenMembers t ms → Clean t
  | .last hk h hb => hk.clean.append (clean_cons (by decide) ((WrittenValue.clean h).append
      (hb.clean.append (clean_singleton (by decide)))))
  | .cons hk h hb ht => hk.clean.append (clean_cons (by decide) ((WrittenValue.clean h).append
      (hb.clean.append (clean_cons (by decide) (WrittenMembers.clean ht)))))
  | .blanks hb h => hb.clean.append (WrittenMembers.clean h)

end

end Clean

section Parsed

/-- The parser finds the value at the start of a text, whatever follows it. -/
def FoundValue (a : List Char) (j : Json) : Prop :=
  ∀ fuel rest, a.length ≤ fuel → parseValue fuel (a ++ rest) = some (j, rest)

def FoundItems (a : List Char) (l : List Json) : Prop :=
  ∀ fuel rest, a.length ≤ fuel → parseItems fuel (a ++ rest) = some (l, rest)

def FoundMembers (a : List Char) (ms : List (String × Json)) : Prop :=
  ∀ fuel rest, a.length ≤ fuel → parseMembers fuel (a ++ rest) = some (ms, rest)

theorem FoundValue.blanks (h : FoundValue a j) (hb : Blanks b) : FoundValue (b ++ a) j := by
  intro fuel rest hf
  rw [List.length_append] at hf
  rw [← parseValue_skipBlanks, List.append_assoc, skipBlanks_append hb, parseValue_skipBlanks]
  exact h fuel rest (by omega)

theorem FoundMembers.blanks (h : FoundMembers a ms) (hb : Blanks b) : FoundMembers (b ++ a) ms := by
  intro fuel rest hf
  rw [List.length_append] at hf
  rw [← parseMembers_skipBlanks, List.append_assoc, skipBlanks_append hb, parseMembers_skipBlanks]
  exact h fuel rest (by omega)

theorem found_text (h : Verbatim s) : FoundValue (inQuotes s) (string s) := by
  rw [← h.quoted_eq]
  intro fuel rest hf
  cases fuel with
  | zero => simp [quoted] at hf
  | succ fuel =>
    show parseValue (fuel + 1) ('"' :: (s.flatMap escape ++ ['"'] ++ rest)) = _
    rw [parseValue, skipBlanks_cons (by decide), List.append_assoc, List.singleton_append]
    show (parseText _).map _ = _
    rw [parseText_flatMap_escape h.isText, Option.map_some]

theorem FoundItems.last (h : FoundValue a j) (hb : Blanks b) : FoundItems (a ++ (b ++ [']'])) [j] := by
  intro fuel rest hf
  simp only [List.length_append, List.length_singleton] at hf
  cases fuel with
  | zero => omega
  | succ fuel =>
    rw [parseItems, List.append_assoc, h fuel _ (by omega)]
    simp only [List.append_assoc, skipBlanks_append hb, List.singleton_append,
      skipBlanks_cons (show isBlank ']' = false by decide)]

theorem FoundItems.cons (h : FoundValue a j) (ht : FoundItems t l) : FoundItems (a ++ ',' :: t) (j :: l) := by
  intro fuel rest hf
  rw [List.length_append, List.length_cons] at hf
  cases fuel with
  | zero => omega
  | succ fuel =>
    rw [parseItems, List.append_assoc, h fuel _ (by omega)]
    simp only [List.cons_append, skipBlanks_cons (show isBlank ',' = false by decide), ht fuel rest (by omega),
      Option.map_some]

theorem parseItems_bracket (h : skipBlanks s = ']' :: t) : parseItems fuel s = none := by
  cases fuel with
  | zero => rfl
  | succ fuel =>
    have hvalue : parseValue fuel s = none := by
      cases fuel with
      | zero => rfl
      | succ fuel =>
        rw [parseValue, h]
        rfl
    rw [parseItems, hvalue]

theorem FoundItems.array (h : FoundItems t l) : FoundValue ('[' :: t) (array l) := by
  intro fuel rest hf
  cases fuel with
  | zero => cases hf
  | succ fuel =>
    have hitems := h fuel rest (Nat.le_of_succ_le_succ hf)
    rw [List.cons_append, parseValue_array (skipBlanks_cons (by decide) _)]
    split
    · next u hu =>
      rw [parseItems_bracket hu] at hitems
      cases hitems
    · rw [parseItems_skipBlanks, hitems, Option.map_some]

/-- A member up to its value. -/
theorem parseMembers_inQuotes (hk : Verbatim k) (fuel : Nat) (s : List Char) :
    parseMembers (fuel + 1) (inQuotes k ++ ':' :: s) =
      match parseValue fuel s with
      | none => none
      | some (j, s) =>
        match skipBlanks s with
        | ',' :: s => (parseMembers fuel s).map fun p => ((String.ofList k, j) :: p.1, p.2)
        | '}' :: s => some ([(String.ofList k, j)], s)
        | _ => none := by
  have hopen : skipBlanks (inQuotes k ++ ':' :: s) = '"' :: (k.flatMap escape ++ '"' :: ':' :: s) := by
    rw [← hk.quoted_eq, quoted, List.cons_append, List.append_assoc, skipBlanks_cons (by decide)]
    rfl
  rewrite [parseMembers, hopen]
  simp only
  rewrite [parseText_flatMap_escape hk.isText]
  simp only
  rewrite [skipBlanks_cons (show isBlank ':' = false by decide)]
  rfl

theorem FoundMembers.last (hk : Verbatim k) (h : FoundValue a j) (hb : Blanks b) :
    FoundMembers (inQuotes k ++ ':' :: (a ++ (b ++ ['\x7d']))) [(String.ofList k, j)] := by
  intro fuel rest hf
  simp only [List.length_append, List.length_cons, List.length_nil] at hf
  cases fuel with
  | zero => omega
  | succ fuel =>
    rw [List.append_assoc, List.cons_append, parseMembers_inQuotes hk, List.append_assoc, h fuel _ (by omega)]
    simp only [List.append_assoc, skipBlanks_append hb, List.singleton_append,
      skipBlanks_cons (show isBlank '\x7d' = false by decide)]

theorem FoundMembers.cons (hk : Verbatim k) (h : FoundValue a j) (hb : Blanks b) (ht : FoundMembers t ms) :
    FoundMembers (inQuotes k ++ ':' :: (a ++ (b ++ ',' :: t))) ((String.ofList k, j) :: ms) := by
  intro fuel rest hf
  simp only [List.length_append, List.length_cons] at hf
  cases fuel with
  | zero => omega
  | succ fuel =>
    rw [List.append_assoc, List.cons_append, parseMembers_inQuotes hk, List.append_assoc, h fuel _ (by omega)]
    simp only [List.append_assoc, skipBlanks_append hb, List.cons_append,
      skipBlanks_cons (show isBlank ',' = false by decide), ht fuel rest (by omega), Option.map_some]

theorem parseMembers_brace (h : skipBlanks s = '\x7d' :: t) : parseMembers fuel s = none := by
  cases fuel with
  | zero => rfl
  | succ fuel =>
    rw [parseMembers, h]
    rfl

theorem FoundMembers.object (h : FoundMembers t ms) : FoundValue ('\x7b' :: t) (object ms) := by
  intro fuel rest hf
  cases fuel with
  | zero => cases hf
  | succ fuel =>
    have hmembers := h fuel rest (Nat.le_of_succ_le_succ hf)
    rw [List.cons_append, parseValue_object (skipBlanks_cons (by decide) _)]
    split
    · next u hu =>
      rw [parseMembers_brace hu] at hmembers
      cases hmembers
    · rw [parseMembers_skipBlanks, hmembers, Option.map_some]

mutual

theorem WrittenValue.found {a : List Char} {j : Json} : WrittenValue a j → FoundValue a j
  | .text h => found_text h
  | .array h => (WrittenItems.found h).array
  | .object h => (WrittenMembers.found h).object
  | .blanks hb h => (WrittenValue.found h).blanks hb

theorem WrittenItems.found {t : List Char} {l : List Json} : WrittenItems t l → FoundItems t l
  | .last h hb => .last (WrittenValue.found h) hb
  | .cons h ht => .cons (WrittenValue.found h) (WrittenItems.found ht)

theorem WrittenMembers.found {t : List Char} {ms : List (String × Json)} : WrittenMembers t ms → FoundMembers t ms
  | .last hk h hb => .last hk (WrittenValue.found h) hb
  | .cons hk h hb ht => .cons hk (WrittenValue.found h) hb (WrittenMembers.found ht)
  | .blanks hb h => (WrittenMembers.found h).blanks hb

end

theorem parse_of_written (h : WrittenMembers t ms) : parse ('\x7b' :: t) = some (object ms) := by
  have hparse := h.found.object _ [] (Nat.le_refl _)
  rw [List.append_nil] at hparse
  unfold parse
  rw [skipBlanks_cons (by decide)]
  show (parseValue _ _).bind _ = _
  rw [hparse]
  rfl

end Parsed

end OphidiaWorkflow.Json
