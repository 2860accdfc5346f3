import OphidiaWorkflow.Text.Json

/-!
A parser of RFC 8259, the whole text being one array or one object: what the library Jansson does without options.

The library looks at the bytes of a text for UTF-8 as it reads them. Escape sequences never complete or break a
sequence of bytes, so here the decoded text is looked at.
-/
namespace OphidiaWorkflow.Json

def isBlank (c : Char) : Bool := c = ' ' || c = '\t' || c = '\n' || c = '\r'

def skipBlanks (s : List Char) : List Char := s.dropWhile isBlank

def hexDigit (c : Char) : Option Nat :=
  if c.isDigit then some (c.toNat - 48)
  else if 'A' ≤ c ∧ c ≤ 'F' then some (c.toNat - 55)
  else if 'a' ≤ c ∧ c ≤ 'f' then some (c.toNat - 87)
  else none

/-- The number that the four digits of `\u` give. -/
def codeUnit (a b c d : Char) : Option Nat := do
  let a ← hexDigit a
  let b ← hexDigit b
  let c ← hexDigit c
  let d ← hexDigit d
  some (((a * 16 + b) * 16 + c) * 16 + d)

/-- The bytes of a code point. -/
def utf8Bytes (n : Nat) : List Char :=
  if n < 0x80 then [Char.ofNat n]
  else if n < 0x800 then [Char.ofNat (0xC0 + n / 0x40), Char.ofNat (0x80 + n % 0x40)]
  else if n < 0x10000 then
    [Char.ofNat (0xE0 + n / 0x1000), Char.ofNat (0x80 + n / 0x40 % 0x40), Char.ofNat (0x80 + n % 0x40)]
  else
    [Char.ofNat (0xF0 + n / 0x40000), Char.ofNat (0x80 + n / 0x1000 % 0x40), Char.ofNat (0x80 + n / 0x40 % 0x40),
      Char.ofNat (0x80 + n % 0x40)]

/-- The character that a backslash and another character stand for. -/
def unescape : Char → Option Char
  | '"' => some '"'
  | '\\' => some '\\'
  | '/' => some '/'
  | 'b' => some '\x08'
  | 'f' => some '\x0c'
  | 'n' => some '\n'
  | 'r' => some '\r'
  | 't' => some '\t'
  | _ => none

def isHigh (n : Nat) : Bool := 0xD800 ≤ n && n ≤ 0xDBFF

def isLow (n : Nat) : Bool := 0xDC00 ≤ n && n ≤ 0xDFFF

/-- The code point of two surrogates. -/
def surrogates (n m : Nat) : Nat := 0x10000 + (n - 0xD800) * 0x400 + (m - 0xDC00)

/-- A byte of a text, or a number that `\u` gives. -/
inductive Piece
  | byte (c : Char)
  | unit (n : Nat)

/-- What stands before the closing quote, and what follows it. -/
def scanText : List Char → Option (List Piece × List Char)
  | [] => none
  | '"' :: s => some ([], s)
  | '\\' :: 'u' :: a :: b :: c :: d :: s =>
    (codeUnit a b c d).bind fun n => (scanText s).map fun p => (.unit n :: p.1, p.2)
  | '\\' :: c :: s => (unescape c).bind fun d => (scanText s).map fun p => (.byte d :: p.1, p.2)
  | c :: s => if c.toNat < 0x20 then none else (scanText s).map fun p => (.byte c :: p.1, p.2)

/-- The bytes of the text; a surrogate has to be one of two. -/
def decode : List Piece → Option (List Char)
  | [] => some []
  | .byte c :: ps => (decode ps).map (c :: ·)
  | .unit n :: .unit m :: ps =>
    if isHigh n then if isLow m then (decode ps).map (utf8Bytes (surrogates n m) ++ ·) else none
    else if isLow n then none
    else (decode (.unit m :: ps)).map (utf8Bytes n ++ ·)
  | .unit n :: ps => if isHigh n || isLow n then none else (decode ps).map (utf8Bytes n ++ ·)

/-- A text that the library accepts: UTF-8 with no null character. -/
def isText (s : List Char) : Bool := validUtf8 s && '\x00' ∉ s

def parseText (s : List Char) : Option (List Char × List Char) :=
  (scanText s).bind fun p => ((decode p.1).filter isText).map fun t => (t, p.2)

def digits (s : List Char) : Option (List Char) :=
  if s.head?.any Char.isDigit then some (s.dropWhile Char.isDigit) else none

/-- The digits of an integer: a leading zero stands alone. -/
def integer : List Char → Option (List Char)
  | '0' :: s => some s
  | s => digits s

def fraction : List Char → Option (List Char)
  | '.' :: s => digits s
  | s => some s

def sign : List Char → List Char
  | '+' :: s => s
  | '-' :: s => s
  | s => s

def exponent : List Char → Option (List Char)
  | 'e' :: s => digits (sign s)
  | 'E' :: s => digits (sign s)
  | s => some s

def number (s : List Char) : Option (List Char) := do
  let s ← integer (if s.head? = some '-' then s.tail else s)
  let s ← fraction s
  exponent s

/-- What follows a number, `true`, `false` or `null`. -/
def scalar (s : List Char) : Option (List Char) :=
  match s.takeWhile Char.isAlpha with
  | [] => number s
  | w =>
    if w = "true".toList ∨ w = "false".toList ∨ w = "null".toList then some (s.dropWhile Char.isAlpha) else none

mutual

/-- The value at the start of the text and what follows it. -/
def parseValue : Nat → List Char → Option (Json × List Char)
  | 0, _ => none
  | fuel + 1, s =>
    match skipBlanks s with
    | '"' :: s => (parseText s).map fun p => (string p.1, p.2)
    | '[' :: s =>
      match skipBlanks s with
      | ']' :: s => some (array [], s)
      | s => (parseItems fuel s).map fun p => (array p.1, p.2)
    | '{' :: s =>
      match skipBlanks s with
      | '}' :: s => some (object [], s)
      | s => (parseMembers fuel s).map fun p => (object p.1, p.2)
    | s => (scalar s).map fun s => (other, s)

/-- The items of an array, the closing bracket included. -/
def parseItems : Nat → List Char → Option (List Json × List Char)
  | 0, _ => none
  | fuel + 1, s =>
    match parseValue fuel s with
    | none => none
    | some (j, s) =>
      match skipBlanks s with
      | ',' :: s => (parseItems fuel s).map fun p => (j :: p.1, p.2)
      | ']' :: s => some ([j], s)
      | _ => none

/-- The members of an object, the closing brace included. -/
def parseMembers : Nat → List Char → Option (List (String × Json) × List Char)
  | 0, _ => none
  | fuel + 1, s =>
    match skipBlanks s with
    | '"' :: s =>
      match parseText s with
      | none => none
      | some (k, s) =>
        match skipBlanks s with
        | ':' :: s =>
          match parseValue fuel s with
          | none => none
          | some (j, s) =>
            match skipBlanks s with
            | ',' :: s => (parseMembers fuel s).map fun p => ((String.ofList k, j) :: p.1, p.2)
            | '}' :: s => some ([(String.ofList k, j)], s)
            | _ => none
        | _ => none
    | _ => none

end

theorem parseValue_array {fuel : Nat} {s t : List Char} (h : skipBlanks s = '[' :: t) :
    parseValue (fuel + 1) s =
      match skipBlanks t with
      | ']' :: t => some (array [], t)
      | t => (parseItems fuel t).map fun p => (array p.1, p.2) := by
  rw [parseValue, h]
  rfl

theorem parseValue_object {fuel : Nat} {s t : List Char} (h : skipBlanks s = '{' :: t) :
    parseValue (fuel + 1) s =
      match skipBlanks t with
      | '}' :: t => some (object [], t)
      | t => (parseMembers fuel t).map fun p => (object p.1, p.2) := by
  rw [parseValue, h]
  rfl

/-- A value takes more characters than its parts together, so the fuel is enough. -/
def parse (s : List Char) : Option Json :=
  match skipBlanks s with
  | '[' :: _ | '{' :: _ => (parseValue s.length s).bind fun p => if skipBlanks p.2 = [] then some p.1 else none
  | _ => none

/-- The values that are read and printed: all others are only parts of them. -/
inductive Compound : Json → Prop
  | array (l : List Json) : Compound (array l)
  | object (ms : List (String × Json)) : Compound (object ms)

/-- All the texts of a value, the names of its members included, have a property. -/
inductive Texts (P : List Char → Prop) : Json → Prop
  | string {s : List Char} (h : P s) : Texts P (string s)
  | array {l : List Json} (h : ∀ j ∈ l, Texts P j) : Texts P (array l)
  | object {ms : List (String × Json)} (hk : ∀ m ∈ ms, P m.1.toList) (h : ∀ m ∈ ms, Texts P m.2) : Texts P (object ms)
  | other : Texts P other

/-- The texts are such that the library accepts them. -/
abbrev Sound : Json → Prop := Texts fun s => isText s = true

section Sound

variable {j : Json} {s t rest : List Char} {k : String} {fuel : Nat}

theorem isText_of_parseText (h : parseText s = some (t, rest)) : isText t = true := by
  obtain ⟨p, -, h⟩ := Option.bind_eq_some_iff.mp h
  obtain ⟨t, ht, h⟩ := Option.map_eq_some_iff.mp h
  cases h
  exact (Option.filter_eq_some_iff.mp ht).2

/-- What the parser finds is sound, for all its three loops at once. -/
theorem sound_of_fuel (fuel : Nat) :
    (∀ s j rest, parseValue fuel s = some (j, rest) → Sound j) ∧
    (∀ s l rest, parseItems fuel s = some (l, rest) → ∀ j ∈ l, Sound j) ∧
    (∀ s ms rest, parseMembers fuel s = some (ms, rest) →
      ∀ m ∈ ms, isText m.1.toList = true ∧ Sound m.2) := by
  induction fuel with
  | zero => simp [parseValue, parseItems, parseMembers]
  | succ fuel ih =>
    obtain ⟨hvalue, hitems, hmembers⟩ := ih
    refine ⟨fun s j rest h => ?_, fun s l rest h => ?_, fun s ms rest h => ?_⟩
    · rw [parseValue] at h
      split at h
      · obtain ⟨⟨t, r⟩, ht, h⟩ := Option.map_eq_some_iff.mp h
        cases h
        exact .string (isText_of_parseText ht)
      · split at h
        · cases h
          exact .array (by simp)
        · obtain ⟨⟨l, r⟩, hl, h⟩ := Option.map_eq_some_iff.mp h
          cases h
          exact .array (hitems _ _ _ hl)
      · split at h
        · cases h
          exact .object (by simp) (by simp)
        · obtain ⟨⟨ms, r⟩, hms, h⟩ := Option.map_eq_some_iff.mp h
          cases h
          have hm := hmembers _ _ _ hms
          exact .object (fun m hmem => (hm m hmem).1) fun m hmem => (hm m hmem).2
      · obtain ⟨r, -, h⟩ := Option.map_eq_some_iff.mp h
        cases h
        exact .other
    · rw [parseItems] at h
      split at h
      · cases h
      · next j r hj =>
        have hj := hvalue _ _ _ hj
        split at h
        · obtain ⟨⟨l, r⟩, hl, h⟩ := Option.map_eq_some_iff.mp h
          cases h
          exact List.forall_mem_cons.mpr ⟨hj, hitems _ _ _ hl⟩
        · cases h
          exact List.forall_mem_cons.mpr ⟨hj, by simp⟩
        · cases h
    · rw [parseMembers] at h
      split at h
      · split at h
        · cases h
        · next k r hk =>
          have hk : isText (String.ofList k).toList = true := by
            rw [String.toList_ofList]
            exact isText_of_parseText hk
          split at h
          · split at h
            · cases h
            · next j r hj =>
              have hj := hvalue _ _ _ hj
              split at h
              · obtain ⟨⟨ms, r⟩, hms, h⟩ := Option.map_eq_some_iff.mp h
                cases h
                exact List.forall_mem_cons.mpr ⟨⟨hk, hj⟩, hmembers _ _ _ hms⟩
              · cases h
                exact List.forall_mem_cons.mpr ⟨⟨hk, hj⟩, by simp⟩
              · cases h
          · cases h
      · cases h

theorem sound_of_parse (h : parse s = some j) : Sound j := by
  unfold parse at h
  split at h
  · obtain ⟨⟨j, r⟩, hj, h⟩ := Option.bind_eq_some_iff.mp h
    split at h
    · cases h
      exact (sound_of_fuel _).1 _ _ _ hj
    · cases h
  · obtain ⟨⟨j, r⟩, hj, h⟩ := Option.bind_eq_some_iff.mp h
    split at h
    · cases h
      exact (sound_of_fuel _).1 _ _ _ hj
    · cases h
  · cases h

variable {P : List Char → Prop} {o : Json}

theorem Texts.get? (ho : Texts P o) (h : o.get? k = some j) : Texts P j := by
  cases ho with
  | object hk hm =>
    obtain ⟨l₁, l₂, hms, -⟩ := List.lookup_eq_some_iff.mp h
    exact hm (k, j) (List.mem_reverse.mp (hms ▸ by simp))
  | string h' => cases h
  | array h' => cases h
  | other => cases h

theorem Texts.items (ho : Texts P o) (h : j ∈ o.items) : Texts P j := by
  cases ho with
  | array hl => exact hl j h
  | string h' => cases h
  | object hk hm => cases h
  | other => cases h

theorem Texts.text? (ho : Texts P o) (h : o.text? = some t) : P t := by
  cases ho with
  | string hs =>
    cases h
    exact hs
  | array hl => cases h
  | object hk hm => cases h
  | other => cases h

theorem Texts.getText? (ho : Texts P o) (h : o.getText? k = some t) : P t := by
  obtain ⟨j, hj, ht⟩ := Option.bind_eq_some_iff.mp h
  exact (ho.get? hj).text? ht

theorem texts_setMember {ms : List (String × Json)} (h : Texts P (object ms)) (hk : P k.toList) (hj : Texts P j) :
    Texts P (object (setMember ms k j)) := by
  cases h with
  | object hks hms =>
    have hall := forall_mem_setMember (P := fun m => P m.1.toList ∧ Texts P m.2)
      (fun m hm => ⟨hks m hm, hms m hm⟩) ⟨hk, hj⟩
    exact .object (fun m hm => (hall m hm).1) fun m hm => (hall m hm).2

theorem texts_addAllToJson {ms ms' : List (String × Json)} {kvs : List (String × Option (List Char))}
    (h : Texts P (object ms)) (hadd : addAllToJson ms kvs = some ms')
    (hk : ∀ kv ∈ kvs, P kv.1.toList) (hs : ∀ kv ∈ kvs, ∀ s ∈ kv.2, validUtf8 s = true → P s) :
    Texts P (object ms') :=
  addAllToJson_induction (P := fun ms => Texts P (object ms))
    (fun _ kv hkv s hs' hv h => texts_setMember h (hk kv hkv) (.string (hs kv hkv s hs' hv))) h hadd

end Sound

end OphidiaWorkflow.Json
