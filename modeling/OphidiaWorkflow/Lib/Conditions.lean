import Mathlib.Data.List.Basic

/-!
Conditions as a database reads them: `AND` binds tighter than `OR`, parentheses group, and neither a text in quotes nor
the arguments of a function are taken apart.
-/
namespace OphidiaWorkflow.Lib

/-- What a condition is made of. -/
inductive Word (α : Type*)
  | condition (a : α)
  | and
  | or
  | opening
  | closing
  deriving DecidableEq, Repr

/-! ### The value -/

/-- The disjuncts that have been read, and the conjunction that is being read. -/
structure Level where
  before : Bool := false
  current : Bool := true

namespace Level

def value (l : Level) : Bool := l.before || l.current

def conj (l : Level) (b : Bool) : Level := { l with current := l.current && b }

def disj (l : Level) : Level := ⟨l.value, true⟩

@[simp] theorem before_conj (l : Level) (b : Bool) : (l.conj b).before = l.before := rfl
@[simp] theorem current_conj (l : Level) (b : Bool) : (l.conj b).current = (l.current && b) := rfl
@[simp] theorem before_disj (l : Level) : l.disj.before = l.value := rfl
@[simp] theorem current_disj (l : Level) : l.disj.current = true := rfl

theorem conj_conj (l : Level) (b b' : Bool) : (l.conj b).conj b' = l.conj (b && b') := by
  rw [conj, conj, conj, Bool.and_assoc]

@[simp] theorem conj_true (l : Level) : l.conj true = l := by rw [conj, Bool.and_true]

end Level

/-- The state of the reader: whether an operand must follow, and the levels of the brackets that are open. -/
structure Reading where
  operand : Bool := true
  level : Level := {}
  outer : List Level := []

section Read

variable {α : Type*} {ρ : α → Bool} {r r' : Reading} {ws ws' : List (Word α)} {l : Level} {ls : List Level}

def Reading.step (ρ : α → Bool) (r : Reading) : Word α → Option Reading
  | .condition a => if r.operand then some { r with operand := false, level := r.level.conj (ρ a) } else none
  | .and => if r.operand then none else some { r with operand := true }
  | .or => if r.operand then none else some { r with operand := true, level := r.level.disj }
  | .opening => if r.operand then some { operand := true, level := {}, outer := r.level :: r.outer } else none
  | .closing =>
    if r.operand then none
    else
      match r.outer with
      | [] => none
      | l :: ls => some { operand := false, level := l.conj r.level.value, outer := ls }

def readWords (ρ : α → Bool) (r : Reading) (ws : List (Word α)) : Option Reading := ws.foldlM (Reading.step ρ) r

/-- The value of the condition, `none` if it is none. -/
def truth (ρ : α → Bool) (ws : List (Word α)) : Option Bool :=
  match readWords ρ {} ws with
  | some ⟨false, l, []⟩ => some l.value
  | _ => none

theorem readWords_append (h : readWords ρ r ws = some r') : readWords ρ r (ws ++ ws') = readWords ρ r' ws' := by
  rw [readWords, List.foldlM_append]
  exact congrArg (· >>= _) h

theorem truth_of_readWords (h : readWords ρ {} ws = some ⟨false, l, []⟩) : truth ρ ws = some l.value := by
  rw [truth, h]

/-- The words are an operand: they add their value to the conjunction, wherever they stand. -/
def Operand (ρ : α → Bool) (ws : List (Word α)) (b : Bool) : Prop :=
  ∀ l ls, readWords ρ ⟨true, l, ls⟩ ws = some ⟨false, l.conj b, ls⟩

theorem operand_condition (a : α) : Operand ρ [.condition a] (ρ a) := fun _ _ => rfl

theorem Operand.and {b b' : Bool} (h : Operand ρ ws b) (h' : Operand ρ ws' b') :
    Operand ρ (ws ++ .and :: ws') (b && b') := by
  intro l ls
  rw [readWords_append (h l ls), ← Level.conj_conj]
  exact h' (l.conj b) ls

/-- Conditions between words of one kind. -/
def separated (w : Word α) : List α → List (Word α)
  | [] => []
  | [a] => [.condition a]
  | a :: as => .condition a :: w :: separated w as

theorem separated_cons_cons (w : Word α) (a a' : α) (as : List α) :
    separated w (a :: a' :: as) = .condition a :: w :: separated w (a' :: as) := rfl

/-- Conditions that must all hold need no brackets. -/
theorem operand_separated_and {as : List α} (h : as ≠ []) : Operand ρ (separated .and as) (as.all ρ) := by
  induction as with
  | nil => exact absurd rfl h
  | cons a as ih =>
    cases as with
    | nil =>
      rw [List.all_cons, List.all_nil, Bool.and_true]
      exact operand_condition a
    | cons a' as => exact (operand_condition a).and (ih (List.cons_ne_nil _ _))

theorem readWords_separated_or {as : List α} (h : as ≠ []) (l : Level) (ls : List Level) :
    ∃ l', readWords ρ ⟨true, l, ls⟩ (separated .or as) = some ⟨false, l', ls⟩ ∧
      l'.value = (l.before || (l.current && as.head?.any ρ) || as.tail.any ρ) := by
  induction as generalizing l with
  | nil => exact absurd rfl h
  | cons a as ih =>
    cases as with
    | nil => exact ⟨l.conj (ρ a), rfl, by simp [Level.value]⟩
    | cons a' as =>
      obtain ⟨l', hl', hvalue⟩ := ih (List.cons_ne_nil _ _) (l.conj (ρ a)).disj
      refine ⟨l', hl', ?_⟩
      rw [hvalue]
      simp [Level.value, Bool.or_assoc]

theorem operand_brackets {b : Bool}
    (h : ∀ ls, ∃ l', readWords ρ ⟨true, {}, ls⟩ ws = some ⟨false, l', ls⟩ ∧ l'.value = b) :
    Operand ρ (.opening :: (ws ++ [.closing])) b := by
  intro l ls
  obtain ⟨l', hl', rfl⟩ := h (l :: ls)
  exact readWords_append hl'

/-- Conditions of which one must hold, in brackets. -/
theorem operand_separated_or {as : List α} (h : as ≠ []) :
    Operand ρ (.opening :: (separated .or as ++ [.closing])) (as.any ρ) := by
  refine operand_brackets fun ls => ?_
  obtain ⟨l', hl', hvalue⟩ := readWords_separated_or h {} ls
  refine ⟨l', hl', hvalue.trans ?_⟩
  cases as with
  | nil => exact absurd rfl h
  | cons a as => rfl

theorem Operand.brackets {b : Bool} (h : Operand ρ ws b) : Operand ρ (.opening :: (ws ++ [.closing])) b :=
  operand_brackets fun ls => ⟨_, h {} ls, rfl⟩

theorem Operand.read_and {b : Bool} (h : Operand ρ ws b) (l : Level) (ls : List Level) :
    readWords ρ ⟨false, l, ls⟩ (.and :: ws) = some ⟨false, l.conj b, ls⟩ := h l ls

theorem Operand.read_or {b : Bool} (h : Operand ρ ws b) (l : Level) (ls : List Level) :
    readWords ρ ⟨false, l, ls⟩ (.or :: ws) = some ⟨false, l.disj.conj b, ls⟩ := h l.disj ls

end Read

/-! ### The text -/

def andText : List Char := " AND ".toList
def orText : List Char := " OR ".toList

def Word.text : Word (List Char) → List Char
  | .condition a => a
  | .and => andText
  | .or => orText
  | .opening => ['(']
  | .closing => [')']

/-- Where a character stands: in how many brackets of a function, and whether in quotes. -/
structure LexState where
  depth : Nat := 0
  quoted : Bool := false
  escaped : Bool := false
  deriving DecidableEq

def LexState.next (p : LexState) (c : Char) : LexState :=
  if p.quoted then
    if p.escaped then { p with escaped := false }
    else if c = '\\' then { p with escaped := true }
    else if c = '\'' then { p with quoted := false }
    else p
  else if c = '\'' then { p with quoted := true }
  else if c = '(' then { p with depth := p.depth + 1 }
  else if c = ')' then { p with depth := p.depth - 1 }
  else p

/-- The condition that has been read so far, if there is one. -/
def soFar (done : List Char) : List (Word (List Char)) := if done = [] then [] else [.condition done]

/-- The words of a text, of which some characters are skipped first. A bracket opens a group unless a name stands before
it. What is still open at the end is no condition. -/
def wordsOf : Nat → LexState → List Char → List Char → List (Word (List Char))
  | _, p, done, [] => if p = {} then soFar done else [.opening]
  | k + 1, p, done, _ :: s => wordsOf k p done s
  | 0, p, done, c :: s =>
    if p = {} then
      if andText.isPrefixOf (c :: s) then soFar done ++ .and :: wordsOf 4 {} [] s
      else if orText.isPrefixOf (c :: s) then soFar done ++ .or :: wordsOf 3 {} [] s
      else if c = '(' ∧ done = [] then .opening :: wordsOf 0 {} [] s
      else if c = ')' then soFar done ++ .closing :: wordsOf 0 {} [] s
      else wordsOf 0 (p.next c) (done ++ [c]) s
    else wordsOf 0 (p.next c) (done ++ [c]) s

/-- Whether the text is a condition that holds. -/
def holds (ρ : List Char → Bool) (s : List Char) : Option Bool := truth ρ (wordsOf 0 {} [] s)

/-- From this place on the text is passed over as a part of one condition, whatever follows it. -/
def passes : LexState → List Char → Bool
  | _, [] => true
  | p, c :: s =>
    (p ≠ {} || (c ≠ ')' && (c ≠ ' ' || s.head?.any fun d => d ≠ 'A' && d ≠ 'O'))) && passes (p.next c) s

/-- The text leads from one place in a condition to another. -/
structure Leads (p : LexState) (a : List Char) (q : LexState) : Prop where
  passes : passes p a = true
  ends : a.foldl LexState.next p = q

instance (p q : LexState) (a : List Char) : Decidable (Leads p a q) :=
  decidable_of_iff (passes p a = true ∧ a.foldl LexState.next p = q) ⟨fun h => ⟨h.1, h.2⟩, fun h => ⟨h.passes, h.ends⟩⟩

/-- A text that is read as one condition. -/
structure IsCondition (a : List Char) : Prop where
  ne_nil : a ≠ []
  head : a.head? ≠ some '('
  leads : Leads {} a {}

section Text

variable {ρ : List Char → Bool} {p q p' : LexState} {a b done : List Char} {r : Reading} {ws : List (Word (List Char))}

theorem Leads.cons_iff {c : Char} : Leads p (c :: a) q ↔
    (p = {} → c ≠ ')' ∧ (c = ' ' → ∃ d a', a = d :: a' ∧ d ≠ 'A' ∧ d ≠ 'O')) ∧ Leads (p.next c) a q := by
  have hhead : (p ≠ {} || (c ≠ ')' && (c ≠ ' ' || a.head?.any fun d => d ≠ 'A' && d ≠ 'O'))) = true ↔
      (p = {} → c ≠ ')' ∧ (c = ' ' → ∃ d a', a = d :: a' ∧ d ≠ 'A' ∧ d ≠ 'O')) := by
    by_cases hp : p = {}
    · by_cases hc : c = ' '
      · cases a with
        | nil => simp [hp, hc]
        | cons d a => simp [hp, hc]
      · simp [hp, hc]
    · simp [hp]
  constructor
  · rintro ⟨hpasses, hends⟩
    rw [Lib.passes, Bool.and_eq_true] at hpasses
    exact ⟨hhead.mp hpasses.1, hpasses.2, hends⟩
  · rintro ⟨hfirst, hpasses, hends⟩
    exact ⟨by rw [Lib.passes, Bool.and_eq_true]; exact ⟨hhead.mpr hfirst, hpasses⟩, hends⟩

theorem Leads.append (h : Leads p a q) (h' : Leads q b p') : Leads p (a ++ b) p' := by
  induction a generalizing p with
  | nil =>
    cases h.ends
    exact h'
  | cons c a ih =>
    obtain ⟨hc, ha⟩ := Leads.cons_iff.mp h
    refine Leads.cons_iff.mpr ⟨fun hp => ⟨(hc hp).1, fun hspace => ?_⟩, ih ha⟩
    obtain ⟨d, a', rfl, hd⟩ := (hc hp).2 hspace
    exact ⟨d, a' ++ b, rfl, hd⟩

theorem wordsOf_of_leads (h : Leads p a {}) (hdone : done ≠ [] ∨ a.head? ≠ some '(') (t : List Char) :
    wordsOf 0 p done (a ++ t) = wordsOf 0 {} (done ++ a) t := by
  induction a generalizing p done with
  | nil =>
    cases h.ends
    rw [List.nil_append, List.append_nil]
  | cons c a ih =>
    obtain ⟨hc, ha⟩ := Leads.cons_iff.mp h
    have hrest : wordsOf 0 (p.next c) (done ++ [c]) (a ++ t) = wordsOf 0 {} (done ++ c :: a) t := by
      rw [ih ha (.inl (by simp)), List.append_assoc]
      rfl
    rw [List.cons_append, wordsOf]
    by_cases hp : p = {}
    · rw [if_pos hp]
      obtain ⟨hclose, hspace⟩ := hc hp
      have hand : andText.isPrefixOf (c :: (a ++ t)) = false := by
        by_cases hc : c = ' '
        · obtain ⟨d, a', rfl, hA, -⟩ := hspace hc
          simp [andText, List.isPrefixOf, hA.symm]
        · simp [andText, List.isPrefixOf, Ne.symm hc]
      have hor : orText.isPrefixOf (c :: (a ++ t)) = false := by
        by_cases hc : c = ' '
        · obtain ⟨d, a', rfl, -, hO⟩ := hspace hc
          simp [orText, List.isPrefixOf, hO.symm]
        · simp [orText, List.isPrefixOf, Ne.symm hc]
      have hopen : ¬ (c = '(' ∧ done = []) := by
        rintro ⟨rfl, hd⟩
        exact hdone.elim (fun h => h hd) fun h => h rfl
      rw [if_neg (by simp [hand]), if_neg (by simp [hor]), if_neg hopen, if_neg hclose]
      exact hrest
    · rw [if_neg hp]
      exact hrest

theorem soFar_of_ne_nil (h : a ≠ []) : soFar a = [.condition a] := if_neg h

/-- The text of words that can be read is made of these words. -/
theorem wordsOf_text (hws : ∀ a, .condition a ∈ ws → IsCondition a) (hread : (readWords ρ r ws).isSome)
    (hdone : done ≠ [] → r.operand = false) : wordsOf 0 {} done (ws.flatMap Word.text) = soFar done ++ ws := by
  induction ws generalizing r done with
  | nil =>
    rw [List.append_nil]
    rfl
  | cons w ws ih =>
    rw [readWords, List.foldlM_cons] at hread
    obtain ⟨r', hr', hrest⟩ : ∃ r', r.step ρ w = some r' ∧ (readWords ρ r' ws).isSome := by
      cases hr' : r.step ρ w with
      | none =>
        rw [hr'] at hread
        cases hread
      | some r' =>
        rw [hr'] at hread
        exact ⟨r', rfl, hread⟩
    have hws' : ∀ a, .condition a ∈ ws → IsCondition a := fun a ha => hws a (List.mem_cons_of_mem _ ha)
    have hnext : wordsOf 0 {} [] (ws.flatMap Word.text) = ws := ih hws' hrest fun h => absurd rfl h
    rw [List.flatMap_cons]
    cases w with
    | condition a =>
      obtain ⟨hne, hhead, hleads⟩ := hws a List.mem_cons_self
      rw [Reading.step] at hr'
      split at hr'
      · next hoperand =>
        cases hr'
        have hd : done = [] := by
          by_contra hd
          rw [hdone hd] at hoperand
          cases hoperand
        subst hd
        rw [Word.text, wordsOf_of_leads hleads (.inr hhead), List.nil_append, ih hws' hrest fun _ => rfl,
          soFar_of_ne_nil hne]
        rfl
      · cases hr'
    | and =>
      rw [Reading.step] at hr'
      split at hr'
      · cases hr'
      · cases hr'
        exact congrArg (fun ws => soFar done ++ .and :: ws) hnext
    | or =>
      rw [Reading.step] at hr'
      split at hr'
      · cases hr'
      · cases hr'
        exact congrArg (fun ws => soFar done ++ .or :: ws) hnext
    | opening =>
      rw [Reading.step] at hr'
      split at hr'
      · next hoperand =>
        cases hr'
        have hd : done = [] := by
          by_contra hd
          rw [hdone hd] at hoperand
          cases hoperand
        subst hd
        exact congrArg (List.cons .opening) hnext
      · cases hr'
    | closing => exact congrArg (fun ws => soFar done ++ .closing :: ws) hnext

theorem holds_text {l : Level} (hws : ∀ a, .condition a ∈ ws → IsCondition a)
    (hread : readWords ρ {} ws = some ⟨false, l, []⟩) : holds ρ (ws.flatMap Word.text) = some l.value := by
  rw [holds, wordsOf_text hws (by rw [hread]; rfl) fun h => absurd rfl h]
  exact truth_of_readWords hread

/-! ### Texts inside a condition -/

/-- A character that tells no place from another. -/
def Inert (c : Char) : Prop := c ≠ '\\' ∧ c ≠ '\'' ∧ c ≠ '(' ∧ c ≠ ')' ∧ c ≠ ' '

instance (c : Char) : Decidable (Inert c) := inferInstanceAs (Decidable (_ ∧ _))

def InertText (a : List Char) : Prop := ∀ c ∈ a, Inert c

instance (a : List Char) : Decidable (InertText a) := List.decidableBAll Inert a

theorem InertText.append (h : InertText a) (h' : InertText b) : InertText (a ++ b) := List.forall_mem_append.mpr ⟨h, h'⟩

theorem leads_inert (h : InertText a) (hp : p.escaped = false) : Leads p a p := by
  induction a with
  | nil => exact ⟨rfl, rfl⟩
  | cons c a ih =>
    obtain ⟨⟨hslash, hquote, hopen, hclose, hspace⟩, ha⟩ := List.forall_mem_cons.mp h
    have hnext : p.next c = p := by simp [LexState.next, hslash, hquote, hopen, hclose, hp]
    exact Leads.cons_iff.mpr ⟨fun _ => ⟨hclose, fun hs => absurd hs hspace⟩, hnext.symm ▸ ih ha⟩

/-- A text in quotes that does not end them. -/
theorem leads_quoted (h : ∀ c ∈ a, c ≠ '\\' ∧ c ≠ '\'') (hp : p.quoted = true ∧ p.escaped = false) : Leads p a p := by
  induction a with
  | nil => exact ⟨rfl, rfl⟩
  | cons c a ih =>
    obtain ⟨⟨hslash, hquote⟩, ha⟩ := List.forall_mem_cons.mp h
    have hnext : p.next c = p := by simp [LexState.next, hslash, hquote, hp.1, hp.2]
    have hne : p ≠ {} := fun he => by simp [he] at hp
    exact Leads.cons_iff.mpr ⟨fun he => absurd he hne, hnext.symm ▸ ih ha⟩

end Text
end OphidiaWorkflow.Lib
