import OphidiaWorkflow.Lib.Runs
import OphidiaWorkflow.Text.Comments
import OphidiaWorkflow.Text.Parse

/-!
Which texts `_oph_workflow_skip_comments` gives back unchanged.

A text is a list of string literals and of characters between them. In a literal a backslash escapes the character after
it, so that a literal may end with a backslash that is escaped itself; the loop takes the quote after it for an escaped
one.
-/
namespace OphidiaWorkflow

open Lib

/-- The character opens a comment. -/
def Stripper.opens (st : Stripper) (c : Char) : Bool :=
  !st.toggled c && st.flag = .slash && (c = '/' || c = '*')

section Loop

variable {st : Stripper} {c : Char} {s : List Char}

theorem countP_tail_le (p : Char → Bool) (r : List Char) : r.tail.countP p ≤ r.countP p :=
  (List.tail_sublist r).countP_le

theorem emit_countP_le (p : Char → Bool) (f : Flag) (c : Char) (r : List Char) :
    (f.emit c r).countP p ≤ (c :: r).countP p := by
  have hle : r.countP p ≤ (c :: r).countP p := (List.sublist_cons_self c r).countP_le
  unfold Flag.emit
  split
  · exact hle
  · exact Nat.le_refl _
  · exact (countP_tail_le p r).trans hle
  · exact (countP_tail_le p r).trans hle
  · split
    · exact Nat.le_refl _
    · exact hle

theorem step_countP_le (p : Char → Bool) (st : Stripper) (c : Char) :
    (st.step c).result.countP p ≤ (c :: st.result).countP p := by
  have hle : st.result.countP p ≤ (c :: st.result).countP p := (List.sublist_cons_self c st.result).countP_le
  unfold Stripper.step
  split
  · simp only
    split
    · exact Nat.le_refl _
    · exact hle
  · exact emit_countP_le p _ _ _

theorem step_of_not_opens (hf : st.flag.prints = true) (h : st.opens c = false) :
    (st.step c).flag.prints = true ∧ (st.step c).result = c :: st.result := by
  unfold Stripper.step
  cases ht : st.toggled c with
  | true => simp [hf]
  | false =>
    simp only [Bool.false_eq_true, if_false]
    cases hflag : st.flag with
    | code =>
      by_cases hc : c = '/'
      · subst hc
        exact ⟨rfl, rfl⟩
      · rw [next_code hc, emit_code hc]
        exact ⟨rfl, rfl⟩
    | slash =>
      have hn : c ≠ '/' ∧ c ≠ '*' := by simpa [Stripper.opens, ht, hflag] using h
      have hnext : Flag.slash.next c = .code := by
        unfold Flag.next
        split <;> simp_all
      have hemit : Flag.slash.emit c st.result = c :: st.result := by
        unfold Flag.emit
        split <;> simp_all [Flag.prints]
      rw [hnext, hemit]
      exact ⟨rfl, rfl⟩
    | block => simp [hflag, Flag.prints] at hf
    | star => simp [hflag, Flag.prints] at hf
    | line => simp [hflag, Flag.prints] at hf

theorem step_of_opens (h : st.opens c = true) : (st.step c).result = st.result.tail := by
  simp only [Stripper.opens, Bool.and_eq_true, Bool.not_eq_true', decide_eq_true_eq, Bool.or_eq_true] at h
  obtain ⟨⟨ht, hf⟩, hc⟩ := h
  unfold Stripper.step
  rw [ht, hf]
  rcases hc with rfl | rfl <;> rfl

/-- No comment is opened. -/
def Unopened (st : Stripper) (s : List Char) : Prop := Along Stripper.step (fun st c => st.opens c = false) st s

theorem foldl_of_unopened (hf : st.flag.prints = true) (h : Unopened st s) :
    (s.foldl Stripper.step st).flag.prints = true ∧ (s.foldl Stripper.step st).result = s.reverse ++ st.result := by
  induction s generalizing st with
  | nil => exact ⟨hf, rfl⟩
  | cons c s ih =>
    obtain ⟨hflag, hresult⟩ := step_of_not_opens hf h.1
    obtain ⟨hflag, hs⟩ := ih hflag h.2
    refine ⟨hflag, ?_⟩
    rw [List.foldl_cons, hs, hresult, List.reverse_cons, List.append_assoc]
    rfl

theorem foldl_countP_le (p : Char → Bool) (s : List Char) (st : Stripper) :
    (s.foldl Stripper.step st).result.countP p ≤ st.result.countP p + s.countP p := by
  induction s generalizing st with
  | nil => exact Nat.le_refl _
  | cons c s ih =>
    have h1 := ih (st.step c)
    have h2 := step_countP_le p st c
    rw [List.countP_cons] at h2
    rw [List.foldl_cons, List.countP_cons]
    omega

/-- Of the characters of a kind that the slash and the star are of, a comment takes some away. -/
theorem foldl_countP_lt {p : Char → Bool} (hp : ∀ c, c = '/' ∨ c = '*' → p c = true) (h : ¬Unopened st s) :
    (s.foldl Stripper.step st).result.countP p < st.result.countP p + s.countP p := by
  induction s generalizing st with
  | nil => exact absurd trivial h
  | cons c s ih =>
    rw [List.foldl_cons, List.countP_cons]
    cases ho : st.opens c with
    | true =>
      have h1 := foldl_countP_le p s (st.step c)
      have h2 := countP_tail_le p st.result
      rw [step_of_opens ho] at h1
      have hc : p c = true := by
        simp only [Stripper.opens, Bool.and_eq_true, Bool.or_eq_true, decide_eq_true_eq] at ho
        exact hp c ho.2
      rw [if_pos hc]
      omega
    | false =>
      have h1 := ih fun hs : Unopened (st.step c) s => h ⟨ho, hs⟩
      have h2 := step_countP_le p st c
      rw [List.countP_cons] at h2
      omega

/-- A text is given back exactly if no comment is opened, and no `/` is pending at its end. -/
theorem skipComments_eq_self_iff :
    skipComments s = some s ↔ Unopened {} s ∧ (s.foldl Stripper.step {}).flag = .code := by
  unfold skipComments
  simp only [Option.ite_none_right_eq_some, Option.some.injEq]
  constructor
  · rintro ⟨hf, hr⟩
    refine ⟨?_, hf⟩
    by_contra h
    have hl := foldl_countP_lt (fun _ _ => rfl : ∀ c, c = '/' ∨ c = '*' → (fun _ => true) c = true) h
    rw [← List.countP_reverse, hr] at hl
    exact absurd hl (by simp)
  · rintro ⟨h, hf⟩
    refine ⟨hf, ?_⟩
    rw [(foldl_of_unopened rfl h).2]
    simp

end Loop

/-- The inside of a literal: a backslash escapes the character after it, and no quote stands alone. -/
def Escaped : List Char → Bool
  | [] => true
  | '\\' :: _ :: s => Escaped s
  | c :: s => c ≠ '"' && c ≠ '\\' && Escaped s

/-- A character between the literals, or a literal. -/
inductive Token
  | code (c : Char) (h : quiet c = true)
  | literal (body : List Char) (h : Escaped body = true)

namespace Token

def text : Token → List Char
  | code c _ => [c]
  | literal body _ => '"' :: (body ++ ['"'])

def isLiteral : Token → Bool
  | code _ _ => false
  | literal _ _ => true

/-- The loop does not see the end of the literal. -/
def tricky : Token → Bool
  | code _ _ => false
  | literal body _ => body.getLast? = some '\\'

end Token

def tokensText (ts : List Token) : List Char := ts.flatMap Token.text

/-- The text has a `//` or a `/*`. -/
def Opener (s : List Char) : Prop := ['/', '/'] <:+: s ∨ ['/', '*'] <:+: s

/-- What the loop takes for code is harmless: no literal with an odd number of tricky ones before it, `k` more than
there are in the list, has a comment in it, and none of them that ends with a slash is the last one. -/
def Harmless (k : Nat) (ts : List Token) : Prop :=
  ∀ a body h b, ts = a ++ .literal body h :: b → (k + a.countP Token.tricky) % 2 = 1 →
    ¬Opener body ∧ (body.getLast? = some '/' → ∃ t ∈ b, t.isLiteral = true)

section Tokens

variable {s : List Char} {f : Flag} {prev : Option Char} {r : List Char} {k : Nat} {ts : List Token}

theorem guarded_of_escaped (h : Escaped s = true) : Guarded prev s := by
  induction s using Escaped.induct generalizing prev with
  | case1 => trivial
  | case2 c s ih =>
    rw [Escaped] at h
    exact ⟨fun h => absurd h (by decide), fun _ => rfl, ih h⟩
  | case3 c s hn ih =>
    rw [Escaped] at h
    · simp only [Bool.and_eq_true, decide_eq_true_eq] at h
      exact ⟨fun hc => absurd hc h.1.1, ih h.2⟩
    · exact hn

theorem foldl_inside (h : Guarded prev s) (f : Flag) (r : List Char) :
    Unopened ⟨true, f, prev, r⟩ s ∧ ∃ r', s.foldl Stripper.step ⟨true, f, prev, r⟩ = ⟨true, f, s.getLast?.or prev, r'⟩ := by
  induction s generalizing prev r with
  | nil => exact ⟨trivial, r, rfl⟩
  | cons c s ih =>
    have ht : Stripper.toggled ⟨true, f, prev, r⟩ c = true := if_neg fun hc => hc.2 (h.1 hc.1)
    have hstep : Stripper.step ⟨true, f, prev, r⟩ c = ⟨true, f, some c, if f.prints then c :: r else r⟩ := by
      rw [Stripper.step, ht]
      rfl
    obtain ⟨ho, r', hr⟩ := ih h.2 (if f.prints then c :: r else r)
    refine ⟨⟨by simp [Stripper.opens, ht], hstep ▸ ho⟩, r', ?_⟩
    rw [List.foldl_cons, hstep, hr, List.getLast?_cons]
    cases s.getLast? <;> rfl

theorem opener_cons_of_ne {c : Char} (h : c ≠ '/') : Opener (c :: s) ↔ Opener s := by
  unfold Opener
  simp [List.infix_cons_iff, Ne.symm h]

theorem opener_slash_cons {c : Char} : Opener ('/' :: c :: s) ↔ (c = '/' ∨ c = '*') ∨ Opener (c :: s) := by
  unfold Opener
  rw [List.infix_cons_iff, @List.infix_cons_iff _ ['/', '*'] '/' (c :: s)]
  simp only [List.cons_prefix_cons, List.nil_prefix, and_true, true_and]
  tauto

theorem not_opener_nil : ¬Opener [] := by
  rintro (h | h) <;> cases List.infix_nil.mp h

theorem not_opener_slash : ¬Opener ['/'] := by
  rintro (h | h) <;> exact absurd h.length_le (by decide)

/-- The flag after a text outside of the values in which no comment is opened. -/
def pendingFlag (s : List Char) : Flag := if s.getLast? = some '/' then .slash else .code

theorem pendingFlag_cons_of_ne {c : Char} (h : c ≠ '/') : pendingFlag (c :: s) = pendingFlag s := by
  unfold pendingFlag
  cases s with
  | nil => simp [h]
  | cons d s => rw [List.getLast?_cons_cons]

theorem pendingFlag_cons_cons (c d : Char) (s : List Char) : pendingFlag (c :: d :: s) = pendingFlag (d :: s) := by
  unfold pendingFlag
  rw [List.getLast?_cons_cons]

theorem step_outside {c : Char} (hc : c = '"' → prev = some '\\') (f : Flag) (r : List Char) :
    Stripper.step ⟨false, f, prev, r⟩ c = ⟨false, f.next c, some c, f.emit c r⟩ ∧
      Stripper.opens ⟨false, f, prev, r⟩ c = (decide (f = .slash) && (decide (c = '/') || decide (c = '*'))) := by
  have ht : Stripper.toggled ⟨false, f, prev, r⟩ c = false := if_neg fun h => h.2 (hc h.1)
  rw [Stripper.step, Stripper.opens, ht]
  exact ⟨rfl, rfl⟩

theorem next_slash {c : Char} (h : ¬(c = '/' ∨ c = '*')) : Flag.slash.next c = .code := by
  rw [not_or] at h
  unfold Flag.next
  split <;> simp_all

/-- A literal seen from the outside, after a `/` or not: a comment is opened by the first `//` or `/*`. -/
theorem foldl_outside (h : Guarded prev s) (r : List Char) (f : Flag) (pre : List Char)
    (hf : (f = .code ∧ pre = []) ∨ (f = .slash ∧ pre = ['/'])) :
    (Unopened ⟨false, f, prev, r⟩ s ↔ ¬Opener (pre ++ s)) ∧
      (¬Opener (pre ++ s) → ∃ r', s.foldl Stripper.step ⟨false, f, prev, r⟩ =
        ⟨false, pendingFlag (pre ++ s), s.getLast?.or prev, r'⟩) := by
  induction s generalizing prev r f pre with
  | nil =>
    rw [List.append_nil]
    rcases hf with ⟨rfl, rfl⟩ | ⟨rfl, rfl⟩
    · exact ⟨iff_of_true trivial not_opener_nil, fun _ => ⟨r, rfl⟩⟩
    · exact ⟨iff_of_true trivial not_opener_slash, fun _ => ⟨r, rfl⟩⟩
  | cons c s ih =>
    obtain ⟨hstep, hopens⟩ := step_outside h.1 f r
    have hlast : (c :: s).getLast?.or prev = s.getLast?.or (some c) := by
      rw [List.getLast?_cons]
      cases s.getLast? <;> rfl
    have hun : Unopened ⟨false, f, prev, r⟩ (c :: s) ↔
        Stripper.opens ⟨false, f, prev, r⟩ c = false ∧ Unopened ⟨false, f.next c, some c, f.emit c r⟩ s := by
      rw [Unopened, Along, hstep]
      rfl
    rw [hun, hopens, List.foldl_cons, hstep, hlast]
    rcases hf with ⟨rfl, rfl⟩ | ⟨rfl, rfl⟩
    · by_cases hc : c = '/'
      · subst hc
        obtain ⟨h1, h2⟩ := ih h.2 (Flag.code.emit '/' r) .slash ['/'] (Or.inr ⟨rfl, rfl⟩)
        exact ⟨(and_iff_right rfl).trans h1, h2⟩
      · obtain ⟨h1, h2⟩ := ih h.2 (Flag.code.emit c r) .code [] (Or.inl ⟨rfl, rfl⟩)
        rw [List.nil_append] at h1 h2 ⊢
        rw [next_code hc, opener_cons_of_ne hc, pendingFlag_cons_of_ne hc]
        exact ⟨(and_iff_right rfl).trans h1, h2⟩
    · rw [List.singleton_append, opener_slash_cons, pendingFlag_cons_cons]
      by_cases hc : c = '/' ∨ c = '*'
      · refine ⟨iff_of_false (fun h => ?_) fun h => h (Or.inl hc), fun h => absurd (Or.inl hc) h⟩
        rcases hc with rfl | rfl <;> cases h.1
      · obtain ⟨h1, h2⟩ := ih h.2 (Flag.slash.emit c r) .code [] (Or.inl ⟨rfl, rfl⟩)
        have hslash : c ≠ '/' := fun h => hc (Or.inl h)
        rw [List.nil_append] at h1 h2
        rw [next_slash hc, opener_cons_of_ne hslash, pendingFlag_cons_of_ne hslash, or_iff_right hc]
        refine ⟨(and_iff_right ?_).trans h1, h2⟩
        simpa using hc

theorem step_quote_opening (hp : prev ≠ some '\\') (b : Bool) (f : Flag) (r : List Char) :
    Stripper.opens ⟨b, f, prev, r⟩ '"' = false ∧
      ∃ r', Stripper.step ⟨b, f, prev, r⟩ '"' = ⟨!b, if b then f.next '"' else f, some '"', r'⟩ := by
  have ht : Stripper.toggled ⟨b, f, prev, r⟩ '"' = !b := if_pos ⟨rfl, hp⟩
  rw [Stripper.step, Stripper.opens, ht]
  cases b with
  | true => exact ⟨by simp, _, rfl⟩
  | false => exact ⟨rfl, _, rfl⟩

theorem step_quote_escaped (b : Bool) (f : Flag) (r : List Char) :
    Stripper.opens ⟨b, f, some '\\', r⟩ '"' = false ∧
      ∃ r', Stripper.step ⟨b, f, some '\\', r⟩ '"' = ⟨b, if b then f else f.next '"', some '"', r'⟩ := by
  have ht : Stripper.toggled ⟨b, f, some '\\', r⟩ '"' = b := if_neg fun h => h.2 rfl
  rw [Stripper.step, Stripper.opens, ht]
  cases b with
  | true => exact ⟨rfl, _, rfl⟩
  | false => exact ⟨by simp, _, rfl⟩

theorem unopened_append {st : Stripper} {t : List Char} :
    Unopened st (s ++ t) ↔ Unopened st s ∧ Unopened (s.foldl Stripper.step st) t := Along.append_iff

theorem pendingFlag_cases (s : List Char) : pendingFlag s = .code ∨ pendingFlag s = .slash := by
  unfold pendingFlag
  split
  · exact Or.inr rfl
  · exact Or.inl rfl

/-- The loop after the first quote of a literal. `b` tells whether it has opened a value; a backslash at the end hides
the last quote. -/
theorem foldl_body {body : List Char} (h : Guarded (some '"') body) (b : Bool) (r : List Char) :
    (Unopened ⟨b, .code, some '"', r⟩ (body ++ ['"']) ↔ (b = false → ¬Opener body)) ∧
      ((b = false → ¬Opener body) → ∃ r', (body ++ ['"']).foldl Stripper.step ⟨b, .code, some '"', r⟩ =
        ⟨b == decide (body.getLast? = some '\\'), if b then .code else pendingFlag body, some '"', r'⟩) := by
  have hlast : body.getLast?.or (some '"') = some '\\' ↔ body.getLast? = some '\\' := by
    cases body.getLast? with
    | none => simp
    | some c => rfl
  rw [unopened_append, List.foldl_append]
  cases b with
  | true =>
    obtain ⟨hin, r2, hrun⟩ := foldl_inside h .code r
    rw [hrun]
    simp only [Bool.true_eq_false, false_implies, iff_true, forall_const, if_true, hin, true_and]
    by_cases hl : body.getLast? = some '\\'
    · rw [hlast.mpr hl, hl]
      obtain ⟨hq, r3, hqs⟩ := step_quote_escaped true .code r2
      exact ⟨⟨hq, trivial⟩, r3, hqs⟩
    · obtain ⟨hq, r3, hqs⟩ := step_quote_opening (mt hlast.mp hl) true .code r2
      rw [decide_eq_false hl]
      exact ⟨⟨hq, trivial⟩, r3, hqs⟩
  | false =>
    obtain ⟨hout, hrun⟩ := foldl_outside h r .code [] (Or.inl ⟨rfl, rfl⟩)
    rw [List.nil_append] at hout hrun
    simp only [hout, forall_const, Bool.false_eq_true, if_false]
    have hclose (hn : ¬Opener body) : Unopened (body.foldl Stripper.step ⟨false, .code, some '"', r⟩) ['"'] ∧
        ∃ r', ['"'].foldl Stripper.step (body.foldl Stripper.step ⟨false, .code, some '"', r⟩) =
          ⟨false == decide (body.getLast? = some '\\'), pendingFlag body, some '"', r'⟩ := by
      obtain ⟨r2, hr2⟩ := hrun hn
      rw [hr2]
      by_cases hl : body.getLast? = some '\\'
      · -- the last character is a backslash, so that no slash is pending
        have hp : pendingFlag body = .code := if_neg (by simp [hl])
        rw [hlast.mpr hl, hp, hl]
        obtain ⟨hq, r3, hqs⟩ := step_quote_escaped false .code r2
        exact ⟨⟨hq, trivial⟩, r3, hqs⟩
      · obtain ⟨hq, r3, hqs⟩ := step_quote_opening (mt hlast.mp hl) false (pendingFlag body) r2
        rw [decide_eq_false hl]
        exact ⟨⟨hq, trivial⟩, r3, hqs⟩
    exact ⟨and_iff_left_of_imp fun hn => (hclose hn).1, fun hn => (hclose hn).2⟩

/-- The loop over a literal. `b` tells whether it takes what stands before the literal for the inside of one. -/
theorem foldl_literal {body : List Char} (h : Escaped body = true) (hp : prev ≠ some '\\') {b : Bool}
    (hf : f = .code ∨ (b = true ∧ f = .slash)) (r : List Char) :
    (Unopened ⟨b, f, prev, r⟩ (Token.literal body h).text ↔ (b = true → ¬Opener body)) ∧
      ((b = true → ¬Opener body) → ∃ r', (Token.literal body h).text.foldl Stripper.step ⟨b, f, prev, r⟩ =
        ⟨b != (Token.literal body h).tricky, if b then pendingFlag body else .code, some '"', r'⟩) := by
  obtain ⟨ho, r1, hstep⟩ := step_quote_opening hp b f r
  have hflag : (if b = true then f.next '"' else f) = .code := by
    rcases hf with rfl | ⟨rfl, rfl⟩
    · exact ite_self _
    · rfl
  rw [hflag] at hstep
  have hun : Unopened ⟨b, f, prev, r⟩ (Token.literal body h).text ↔
      Unopened ⟨!b, .code, some '"', r1⟩ (body ++ ['"']) := by
    rw [Token.text, Unopened, Along, hstep]
    exact and_iff_right ho
  rw [hun, Token.text, List.foldl_cons, hstep]
  have hbody := foldl_body (guarded_of_escaped h) (!b) r1
  cases b <;> simpa [Token.tricky] using hbody

theorem step_code {c : Char} (h : quiet c = true) {b : Bool}
    (hf : f = .code ∨ (b = true ∧ f = .slash)) (r : List Char) :
    Stripper.opens ⟨b, f, prev, r⟩ c = false ∧ ∃ r', Stripper.step ⟨b, f, prev, r⟩ c = ⟨b, f, some c, r'⟩ := by
  have hquote : c ≠ '"' := by rintro rfl; cases h
  have hslash : c ≠ '/' := by rintro rfl; cases h
  have ht : Stripper.toggled ⟨b, f, prev, r⟩ c = b := if_neg fun hc => hquote hc.1
  rw [Stripper.step, Stripper.opens, ht]
  cases b with
  | true => exact ⟨by simp, _, rfl⟩
  | false =>
    obtain rfl : f = .code := hf.resolve_right fun h => Bool.false_ne_true h.1
    rw [next_code hslash]
    exact ⟨by simp, _, rfl⟩

theorem harmless_cons_code {c : Char} {h : quiet c = true} : Harmless k (.code c h :: ts) ↔ Harmless k ts := by
  constructor
  · rintro hh a body hb b rfl hk
    exact hh (.code c h :: a) body hb b rfl (by rw [List.countP_cons_of_neg (by simp [Token.tricky])]; exact hk)
  · rintro hh a body hb b heq hk
    cases a with
    | nil => cases heq
    | cons t a =>
      obtain ⟨rfl, hts⟩ := List.cons.inj heq
      rw [List.countP_cons_of_neg (by simp [Token.tricky])] at hk
      exact hh a body hb b hts hk

theorem harmless_cons_literal {body : List Char} {h : Escaped body = true} :
    Harmless k (.literal body h :: ts) ↔
      (k % 2 = 1 → ¬Opener body ∧ (body.getLast? = some '/' → ∃ t ∈ ts, t.isLiteral = true)) ∧
        Harmless (k + if (Token.literal body h).tricky then 1 else 0) ts := by
  have hcount (a : List Token) : k + (Token.literal body h :: a).countP Token.tricky =
      k + (if (Token.literal body h).tricky then 1 else 0) + a.countP Token.tricky := by
    rw [List.countP_cons]
    omega
  constructor
  · intro hh
    refine ⟨fun hk => hh [] body h ts rfl (by simpa using hk), ?_⟩
    rintro a body' hb b rfl hk
    exact hh (.literal body h :: a) body' hb b rfl (by rw [hcount]; exact hk)
  · rintro ⟨h0, hh⟩ a body' hb b heq hk
    cases a with
    | nil =>
      cases heq
      exact h0 (by simpa using hk)
    | cons t a =>
      obtain ⟨rfl, hts⟩ := List.cons.inj heq
      rw [hcount] at hk
      exact hh a body' hb b hts hk

theorem exists_literal_cons_code {c : Char} {h : quiet c = true} :
    (∃ t ∈ Token.code c h :: ts, t.isLiteral = true) ↔ ∃ t ∈ ts, t.isLiteral = true := by
  simp [Token.isLiteral]

theorem parity_tricky (k : Nat) (t : Bool) :
    (decide (k % 2 = 1) != t) = decide ((k + if t then 1 else 0) % 2 = 1) := by
  cases t with
  | false => simp
  | true =>
    rw [Bool.bne_true, if_pos rfl, ← decide_not, decide_eq_decide]
    omega

/-- After `k` literals whose end was not seen the loop takes the code for literals and the literals for code if `k` is
odd. -/
theorem unopened_tokens_iff (hp : prev ≠ some '\\') (hf : f = .code ∨ (decide (k % 2 = 1) = true ∧ f = .slash)) :
    Unopened ⟨decide (k % 2 = 1), f, prev, r⟩ (tokensText ts) ∧
        ((tokensText ts).foldl Stripper.step ⟨decide (k % 2 = 1), f, prev, r⟩).flag = .code ↔
      Harmless k ts ∧ (f = .slash → ∃ t ∈ ts, t.isLiteral = true) := by
  induction ts generalizing k f prev r with
  | nil =>
    have hnil : Harmless k [] := fun a body h b heq => by simp at heq
    have hun : Unopened ⟨decide (k % 2 = 1), f, prev, r⟩ (tokensText []) := trivial
    rw [and_iff_right hun, and_iff_right hnil]
    rcases hf with rfl | ⟨-, rfl⟩ <;> simp [tokensText]
  | cons t ts ih =>
    rw [tokensText, List.flatMap_cons, ← tokensText, unopened_append, List.foldl_append]
    cases t with
    | code c h =>
      obtain ⟨ho, r', hr⟩ := step_code h hf r
      have hc : some c ≠ some '\\' := by rintro ⟨⟩; cases h
      have hun : Unopened ⟨decide (k % 2 = 1), f, prev, r⟩ (Token.code c h).text := ⟨ho, trivial⟩
      have hfold : (Token.code c h).text.foldl Stripper.step ⟨decide (k % 2 = 1), f, prev, r⟩ =
          ⟨decide (k % 2 = 1), f, some c, r'⟩ := hr
      rw [and_iff_right hun, hfold, ih hc hf, harmless_cons_code, exists_literal_cons_code]
    | literal body h =>
      obtain ⟨hun, hrun⟩ := foldl_literal h hp hf r
      rw [hun, harmless_cons_literal]
      simp only [decide_eq_true_eq] at hrun hf ⊢
      by_cases hn : k % 2 = 1 → ¬Opener body
      · obtain ⟨r', hr⟩ := hrun hn
        rw [hr, parity_tricky, and_iff_right hn]
        -- a slash at the end of the literal is pending, and then its end was seen
        have hflag : (if k % 2 = 1 then pendingFlag body else Flag.code) = .slash ↔
            k % 2 = 1 ∧ body.getLast? = some '/' := by
          unfold pendingFlag
          split_ifs <;> simp [*]
        have hf' : (if k % 2 = 1 then pendingFlag body else Flag.code) = .code ∨
            (decide ((k + if (Token.literal body h).tricky then 1 else 0) % 2 = 1) = true ∧
              (if k % 2 = 1 then pendingFlag body else Flag.code) = .slash) := by
          by_cases hb : k % 2 = 1 ∧ body.getLast? = some '/'
          · refine Or.inr ⟨?_, hflag.mpr hb⟩
            have ht : (Token.literal body h).tricky = false := by simp [Token.tricky, hb.2]
            simp [ht, hb.1]
          · refine Or.inl ?_
            rw [← hflag] at hb
            split_ifs at hb ⊢
            · exact (pendingFlag_cases body).resolve_right hb
            · rfl
        have hq : some '"' ≠ some '\\' := by decide
        refine (ih hq hf').trans ?_
        rw [hflag]
        have hlit : ∃ t ∈ Token.literal body h :: ts, t.isLiteral = true := ⟨_, List.mem_cons_self, rfl⟩
        constructor
        · rintro ⟨hh, hs⟩
          exact ⟨⟨fun hk => ⟨hn hk, fun hl => hs ⟨hk, hl⟩⟩, hh⟩, fun _ => hlit⟩
        · rintro ⟨⟨hs, hh⟩, -⟩
          exact ⟨hh, fun hk => (hs hk.1).2 hk.2⟩
      · refine iff_of_false (fun hh => hn hh.1.1) fun hh => hn fun hk => (hh.1.1 hk).1

/-- A text without comments is given back exactly if it is harmless. -/
theorem skipComments_tokensText_iff : skipComments (tokensText ts) = some (tokensText ts) ↔ Harmless 0 ts := by
  rw [skipComments_eq_self_iff]
  exact (unopened_tokens_iff (k := 0) (by simp) (Or.inl rfl)).trans (and_iff_left (by simp))

end Tokens

section Lexemes

open Json

variable {s t u : List Char} {c : Char} {fuel : Nat}

/-- `s` is a list of tokens and `t` after it. -/
def Spans (s t : List Char) : Prop := ∃ ts, s = tokensText ts ++ t

theorem Spans.refl (s : List Char) : Spans s s := ⟨[], rfl⟩

theorem Spans.trans (h : Spans s t) (h' : Spans t u) : Spans s u := by
  obtain ⟨ts, rfl⟩ := h
  obtain ⟨ts', rfl⟩ := h'
  exact ⟨ts ++ ts', by simp [tokensText]⟩

theorem Spans.cons (hc : quiet c = true) (h : Spans s t) : Spans (c :: s) t := by
  obtain ⟨ts, rfl⟩ := h
  exact ⟨.code c hc :: ts, rfl⟩

theorem spans_dropWhile {p : Char → Bool} (hp : ∀ c, p c = true → quiet c = true) (s : List Char) :
    Spans s (s.dropWhile p) := by
  induction s with
  | nil => exact .refl []
  | cons c s ih =>
    rw [List.dropWhile_cons]
    split
    · next hc => exact .cons (hp c hc) ih
    · exact .refl _

theorem quiet_of_isBlank (c : Char) (h : isBlank c = true) : quiet c = true := by
  simp only [isBlank, Bool.or_eq_true, decide_eq_true_eq] at h
  rcases h with ((rfl | rfl) | rfl) | rfl <;> rfl

theorem quiet_of_isDigit (c : Char) (h : c.isDigit = true) : quiet c = true := by
  simp only [quiet, Bool.and_eq_true, decide_eq_true_eq]
  refine ⟨⟨?_, ?_⟩, ?_⟩ <;> (rintro rfl; cases h)

theorem quiet_of_isAlpha (c : Char) (h : c.isAlpha = true) : quiet c = true := by
  simp only [quiet, Bool.and_eq_true, decide_eq_true_eq]
  refine ⟨⟨?_, ?_⟩, ?_⟩ <;> (rintro rfl; cases h)

theorem spans_skipBlanks (s : List Char) : Spans s (skipBlanks s) := spans_dropWhile quiet_of_isBlank s

theorem spans_digits (h : digits s = some t) : Spans s t := by
  rw [digits, Option.ite_none_right_eq_some] at h
  cases h.2
  exact spans_dropWhile quiet_of_isDigit s

theorem spans_integer (h : integer s = some t) : Spans s t := by
  unfold integer at h
  split at h
  · cases h
    exact .cons rfl (.refl _)
  · exact spans_digits h

theorem spans_fraction (h : fraction s = some t) : Spans s t := by
  unfold fraction at h
  split at h
  · exact .cons rfl (spans_digits h)
  · cases h
    exact .refl _

theorem spans_sign (s : List Char) : Spans s (sign s) := by
  unfold sign
  split
  · exact .cons rfl (.refl _)
  · exact .cons rfl (.refl _)
  · exact .refl _

theorem spans_exponent (h : exponent s = some t) : Spans s t := by
  unfold exponent at h
  split at h
  · exact .cons rfl ((spans_sign _).trans (spans_digits h))
  · exact .cons rfl ((spans_sign _).trans (spans_digits h))
  · cases h
    exact .refl _

theorem spans_minus (s : List Char) : Spans s (if s.head? = some '-' then s.tail else s) := by
  split
  · next h =>
    cases s with
    | nil => cases h
    | cons c s =>
      cases h
      exact .cons rfl (.refl _)
  · exact .refl _

theorem spans_number (h : number s = some t) : Spans s t := by
  obtain ⟨s1, h1, h⟩ := Option.bind_eq_some_iff.mp h
  obtain ⟨s2, h2, h3⟩ := Option.bind_eq_some_iff.mp h
  exact (spans_minus s).trans ((spans_integer h1).trans ((spans_fraction h2).trans (spans_exponent h3)))

theorem spans_scalar (h : scalar s = some t) : Spans s t := by
  unfold scalar at h
  split at h
  · exact spans_number h
  · rw [Option.ite_none_right_eq_some] at h
    cases h.2
    exact spans_dropWhile quiet_of_isAlpha s

theorem escaped_cons (hq : c ≠ '"') (hb : c ≠ '\\') : Escaped (c :: s) = Escaped s := by
  rw [Escaped]
  · simp [hq, hb]
  · rintro _ _ rfl
    exact fun _ => hb rfl

theorem escaped_cons_of_hexDigit {n : Nat} (h : hexDigit c = some n) : Escaped (c :: s) = Escaped s :=
  escaped_cons (by rintro rfl; cases h) (by rintro rfl; cases h)

theorem escaped_of_scanText {p : List Piece} (h : scanText s = some (p, t)) :
    ∃ body, Escaped body = true ∧ s = body ++ '"' :: t := by
  induction s using scanText.induct generalizing p with
  | case1 => cases h
  | case2 s =>
    cases h
    exact ⟨[], rfl, rfl⟩
  | case3 a b c d s ih =>
    rw [scanText] at h
    obtain ⟨n, hn, h⟩ := Option.bind_eq_some_iff.mp h
    obtain ⟨⟨p, t⟩, hp, h⟩ := Option.map_eq_some_iff.mp h
    cases h
    obtain ⟨na, ha, hn⟩ := Option.bind_eq_some_iff.mp hn
    obtain ⟨nb, hb, hn⟩ := Option.bind_eq_some_iff.mp hn
    obtain ⟨nc, hc, hn⟩ := Option.bind_eq_some_iff.mp hn
    obtain ⟨nd, hd, hn⟩ := Option.bind_eq_some_iff.mp hn
    obtain ⟨body, he, rfl⟩ := ih hp
    refine ⟨'\\' :: 'u' :: a :: b :: c :: d :: body, ?_, rfl⟩
    rw [Escaped, escaped_cons_of_hexDigit ha, escaped_cons_of_hexDigit hb, escaped_cons_of_hexDigit hc,
      escaped_cons_of_hexDigit hd, he]
  | case4 c s hu ih =>
    rw [scanText] at h
    · obtain ⟨d, -, h⟩ := Option.bind_eq_some_iff.mp h
      obtain ⟨⟨p, t⟩, hp, h⟩ := Option.map_eq_some_iff.mp h
      cases h
      obtain ⟨body, he, rfl⟩ := ih hp
      exact ⟨'\\' :: c :: body, he, rfl⟩
    · exact hu
  | case5 c s hq hu hb hc =>
    rw [scanText, if_pos hc] at h
    · cases h
    · exact hq
    · exact hu
    · exact hb
  | case6 c s hq hu hb hc ih =>
    rw [scanText, if_neg hc] at h
    · obtain ⟨⟨p, t⟩, hp, h⟩ := Option.map_eq_some_iff.mp h
      cases h
      have hback : c ≠ '\\' := by
        -- a backslash has a character after it
        rintro rfl
        cases s with
        | nil => cases hp
        | cons d s => exact hb d s rfl rfl
      obtain ⟨body, he, rfl⟩ := ih hp
      exact ⟨c :: body, (escaped_cons hq hback).trans he, rfl⟩
    · exact hq
    · exact hu
    · exact hb

theorem spans_parseText {r : List Char × List Char} (h : parseText s = some r) : Spans ('"' :: s) r.2 := by
  obtain ⟨⟨p, rest⟩, hp, h⟩ := Option.bind_eq_some_iff.mp h
  obtain ⟨t, -, h⟩ := Option.map_eq_some_iff.mp h
  cases h
  obtain ⟨body, hb, rfl⟩ := escaped_of_scanText hp
  exact ⟨[.literal body hb], by simp [tokensText, Token.text]⟩

theorem spans_of_fuel (fuel : Nat) :
    (∀ s j rest, parseValue fuel s = some (j, rest) → Spans s rest) ∧
    (∀ s l rest, parseItems fuel s = some (l, rest) → Spans s rest) ∧
    (∀ s ms rest, parseMembers fuel s = some (ms, rest) → Spans s rest) := by
  induction fuel with
  | zero => simp [parseValue, parseItems, parseMembers]
  | succ fuel ih =>
    obtain ⟨hvalue, hitems, hmembers⟩ := ih
    refine ⟨fun s j rest h => ?_, fun s l rest h => ?_, fun s ms rest h => ?_⟩
    · refine (spans_skipBlanks s).trans ?_
      rw [parseValue] at h
      split at h
      · next s1 hs =>
        obtain ⟨r, hr, h⟩ := Option.map_eq_some_iff.mp h
        cases h
        rw [hs]
        exact spans_parseText hr
      · next s1 hs =>
        rw [hs]
        refine .cons rfl ((spans_skipBlanks s1).trans ?_)
        split at h
        · next s2 hs2 =>
          cases h
          rw [hs2]
          exact .cons rfl (.refl _)
        · obtain ⟨⟨l, r⟩, hl, h⟩ := Option.map_eq_some_iff.mp h
          cases h
          exact hitems _ _ _ hl
      · next s1 hs =>
        rw [hs]
        refine .cons rfl ((spans_skipBlanks s1).trans ?_)
        split at h
        · next s2 hs2 =>
          cases h
          rw [hs2]
          exact .cons rfl (.refl _)
        · obtain ⟨⟨l, r⟩, hl, h⟩ := Option.map_eq_some_iff.mp h
          cases h
          exact hmembers _ _ _ hl
      · obtain ⟨r, hr, h⟩ := Option.map_eq_some_iff.mp h
        cases h
        exact spans_scalar hr
    · rw [parseItems] at h
      split at h
      · cases h
      · next j r hj =>
        refine (hvalue _ _ _ hj).trans ((spans_skipBlanks r).trans ?_)
        split at h
        · next r1 hr =>
          obtain ⟨⟨l, r2⟩, hl, h⟩ := Option.map_eq_some_iff.mp h
          cases h
          rw [hr]
          exact .cons rfl (hitems _ _ _ hl)
        · next r1 hr =>
          cases h
          rw [hr]
          exact .cons rfl (.refl _)
        · cases h
    · refine (spans_skipBlanks s).trans ?_
      rw [parseMembers] at h
      split at h
      · next s1 hs =>
        rw [hs]
        split at h
        · cases h
        · next k s2 hk =>
          refine (spans_parseText hk).trans ((spans_skipBlanks s2).trans ?_)
          split at h
          · next s3 hs3 =>
            rw [hs3]
            refine .cons rfl ?_
            split at h
            · cases h
            · next j s4 hj =>
              refine (hvalue _ _ _ hj).trans ((spans_skipBlanks s4).trans ?_)
              split at h
              · next s5 hs5 =>
                obtain ⟨⟨l, r2⟩, hl, h⟩ := Option.map_eq_some_iff.mp h
                cases h
                rw [hs5]
                exact .cons rfl (hmembers _ _ _ hl)
              · next s5 hs5 =>
                cases h
                rw [hs5]
                exact .cons rfl (.refl _)
              · cases h
          · cases h
      · cases h

/-- A text that the parser accepts is a list of tokens. -/
theorem exists_tokens_of_parse {j : Json} (h : parse s = some j) : ∃ ts, s = tokensText ts := by
  unfold parse at h
  have hv : ∃ rest, (∃ j, parseValue s.length s = some (j, rest)) ∧ skipBlanks rest = [] := by
    split at h
    · obtain ⟨⟨j, rest⟩, hj, h⟩ := Option.bind_eq_some_iff.mp h
      exact ⟨rest, ⟨j, hj⟩, (Option.ite_none_right_eq_some.mp h).1⟩
    · obtain ⟨⟨j, rest⟩, hj, h⟩ := Option.bind_eq_some_iff.mp h
      exact ⟨rest, ⟨j, hj⟩, (Option.ite_none_right_eq_some.mp h).1⟩
    · cases h
  obtain ⟨rest, ⟨j, hj⟩, hrest⟩ := hv
  obtain ⟨ts, hts⟩ := ((spans_of_fuel _).1 _ _ _ hj).trans (hrest ▸ spans_skipBlanks rest)
  exact ⟨ts, hts.trans (List.append_nil _)⟩

end Lexemes

/-- An object whose second value has an address. -/
def linked : List Token :=
  [.code '\x7b' rfl, .literal ['a'] rfl, .code ':' rfl, .literal ['\\', '\\'] rfl, .code ',' rfl, .literal ['b'] rfl,
    .code ':' rfl, .literal ['h', 't', 't', 'p', ':', '/', '/', 'x'] rfl, .code '\x7d' rfl]

theorem not_skipComments_linked :
    tokensText linked = "\x7b\"a\":\"\\\\\",\"b\":\"http://x\"\x7d".toList ∧
      (Json.parse (tokensText linked)).isSome = true ∧
      skipComments (tokensText linked) ≠ some (tokensText linked) := by
  decide +kernel

end OphidiaWorkflow
