import Mathlib.Algebra.Ring.Nat
import Mathlib.Data.List.Induction
import OphidiaWorkflow.Text.Stripping

/-!
Which texts with comments `_oph_workflow_skip_comments` cleans.

The loop opens and closes values in the comments as well, and takes the last of two stars for no star.
-/
namespace OphidiaWorkflow.Commented

open Lib

/-- A character of the code, a literal of the code, a comment up to `*/`, or a comment up to the end of the line. -/
inductive Part
  | code (c : Char) (h : c ≠ '"' ∧ c ≠ '/')
  | literal (body : List Char) (h : '"' ∉ body ∧ '\\' ∉ body)
  | block (body : List Char) (h : ¬['*', '/'] <:+: body)
  | line (body : List Char) (h : '\n' ∉ body)

namespace Part

def text : Part → List Char
  | code c _ => [c]
  | literal body _ => '"' :: (body ++ ['"'])
  | block body _ => '/' :: '*' :: (body ++ ['*', '/'])
  | line body _ => '/' :: '/' :: (body ++ ['\n'])

/-- The character before the next part. -/
def last : Part → Char
  | code c _ => c
  | literal _ _ => '"'
  | block _ _ => '/'
  | line _ _ => '\n'

/-- What the text has to become: nothing is left of a comment but newlines. -/
inductive Leaves : Part → List Char → Prop
  | code (c h) : Leaves (.code c h) [c]
  | literal (body h) : Leaves (.literal body h) ('"' :: (body ++ ['"']))
  | block (body h n) (hn : n ≤ body.count '\n') : Leaves (.block body h) (List.replicate n '\n')
  | line (body h n) (hn : n ≤ 1) : Leaves (.line body h) (List.replicate n '\n')

end Part

def partsText (ps : List Part) : List Char := ps.flatMap Part.text

/-- The code pieces one after the other, up to newlines of the comments. -/
inductive Cleaned : List Part → List Char → Prop
  | nil : Cleaned [] []
  | cons {p ps r rs} (hp : p.Leaves r) (hps : Cleaned ps rs) : Cleaned (p :: ps) (r ++ rs)

/-- The quotes that open or close a value. -/
def seenQuotes : Option Char → List Char → Nat
  | _, [] => 0
  | prev, c :: s => (if c = '"' ∧ prev ≠ some '\\' then 1 else 0) + seenQuotes (some c) s

/-- The stars at the end of a text. -/
def trailingStars (s : List Char) : Nat := (s.reverse.takeWhile (· = '*')).length

/-- Whether the end of the part is taken for the inside of a value: the opening quote of a literal is not seen if it
stands after a backslash. -/
def Part.flips (prev : Option Char) (b : Bool) : Part → Bool
  | .literal _ _ => if prev = some '\\' then !b else b
  | _ => b

/-- The part does not bring the loop out of step. -/
def Part.Kept (prev : Option Char) (b : Bool) : Part → Prop
  | .code _ _ => True
  -- such a literal is taken for code
  | .literal body h => (Part.literal body h).flips prev b = true → ¬Opener body ∧ body.getLast? ≠ some '/'
  | .block body _ => b = false ∧ seenQuotes none body % 2 = 0 ∧ trailingStars body % 2 = 0
  | .line body _ => b = false ∧ seenQuotes none body % 2 = 0

/-- `b`: the literals whose opening quote was not seen are odd in number. -/
def Tidy (prev : Option Char) (b : Bool) : List Part → Prop
  | [] => True
  | p :: ps => p.Kept prev b ∧ Tidy (some p.last) (p.flips prev b) ps

variable {prev : Option Char} {b : Bool} {res : List Char} {p : Part} {ps : List Part}

theorem step_first_quote (prev : Option Char) (b : Bool) (res : List Char) :
    Unopened ⟨b, .code, prev, res⟩ ['"'] ∧
      ∃ r', Stripper.step ⟨b, .code, prev, res⟩ '"' = ⟨!(if prev = some '\\' then !b else b), .code, some '"', r'⟩ := by
  by_cases hp : prev = some '\\'
  · subst hp
    obtain ⟨ho, r', h⟩ := step_quote_escaped b .code res
    refine ⟨⟨ho, trivial⟩, r', ?_⟩
    rw [h, if_pos rfl, Bool.not_not]
    exact congrArg (Stripper.mk b · _ _) (ite_self _)
  · obtain ⟨ho, r', h⟩ := step_quote_opening hp b .code res
    refine ⟨⟨ho, trivial⟩, r', ?_⟩
    rw [h, if_neg hp]
    exact congrArg (Stripper.mk (!b) · _ _) (ite_self _)

theorem foldl_literal {body : List Char} (h : '"' ∉ body ∧ '\\' ∉ body) (prev : Option Char) (b : Bool)
    (res : List Char) :
    (Unopened ⟨b, .code, prev, res⟩ (Part.literal body h).text ↔
        ((Part.literal body h).flips prev b = true → ¬Opener body)) ∧
      (((Part.literal body h).flips prev b = true → ¬Opener body) →
        ∃ r', (Part.literal body h).text.foldl Stripper.step ⟨b, .code, prev, res⟩ =
          ⟨(Part.literal body h).flips prev b,
            if (Part.literal body h).flips prev b then pendingFlag body else .code, some '"', r'⟩) := by
  obtain ⟨ho, r1, hstep⟩ := step_first_quote prev b res
  change Stripper.step _ _ = ⟨!((Part.literal body h).flips prev b), .code, some '"', r1⟩ at hstep
  have hback : body.getLast? ≠ some '\\' := fun hl => h.2 (List.mem_of_getLast? hl)
  have hun : Unopened ⟨b, .code, prev, res⟩ (Part.literal body h).text ↔
      Unopened ⟨!((Part.literal body h).flips prev b), .code, some '"', r1⟩ (body ++ ['"']) := by
    rw [Part.text, Unopened, Along, hstep]
    exact and_iff_right ho.1
  rw [hun, Part.text, List.foldl_cons, hstep]
  have hbody := foldl_body (guarded_of_not_mem h.1) (!((Part.literal body h).flips prev b)) r1
  generalize (Part.literal body h).flips prev b = v at *
  cases v <;> simpa [hback] using hbody

section Bodies

variable {body s : List Char} {c : Char}

theorem seenQuotes_eq_none (hp : prev ≠ some '\\') : seenQuotes prev s = seenQuotes none s := by
  cases s with
  | nil => rfl
  | cons c s => simp [seenQuotes, hp]

theorem seenQuotes_append_singleton : seenQuotes prev (s ++ [c]) =
    seenQuotes prev s + if c = '"' ∧ s.getLast?.or prev ≠ some '\\' then 1 else 0 := by
  induction s generalizing prev with
  | nil => exact Nat.add_comm _ _
  | cons d s ih =>
    rw [List.cons_append, seenQuotes, seenQuotes, ih, List.getLast?_cons, Nat.add_assoc]
    cases s.getLast? <;> rfl

theorem trailingStars_append_singleton : trailingStars (s ++ [c]) = if c = '*' then trailingStars s + 1 else 0 := by
  simp only [trailingStars, List.reverse_append, List.reverse_singleton, List.singleton_append, List.takeWhile_cons,
    decide_eq_true_eq]
  split <;> rfl

theorem trailingStars_of_last (h : s.getLast? ≠ some '*') : trailingStars s = 0 := by
  induction s using List.reverseRecOn with
  | nil => rfl
  | append_singleton s c ih =>
    rw [List.getLast?_concat] at h
    rw [trailingStars_append_singleton, if_neg fun hc => h (congrArg some hc)]

theorem infix_of_last (h : s.getLast? = some '*') : ['*', '/'] <:+: s ++ ['/'] := by
  obtain ⟨t, rfl⟩ := List.getLast?_eq_some_iff.mp h
  exact ⟨t, [], by simp⟩

/-- Whether a value is open after a text that starts outside of the values. -/
def inValue (prev : Option Char) (s : List Char) : Bool := seenQuotes prev s % 2 = 1

theorem inValue_append_singleton : inValue prev (s ++ [c]) =
    if c = '"' ∧ s.getLast?.or prev ≠ some '\\' then !inValue prev s else inValue prev s := by
  unfold inValue
  rw [seenQuotes_append_singleton]
  split
  · rw [← decide_not, decide_eq_decide]
    omega
  · rfl

theorem foldl_line_body (h : '\n' ∉ body) : body.foldl Stripper.step ⟨false, .line, prev, res⟩ =
    ⟨inValue prev body, .line, body.getLast?.or prev, res⟩ := by
  induction body using List.reverseRecOn with
  | nil => rfl
  | append_singleton s c ih =>
    rw [List.mem_append, not_or, List.mem_singleton] at h
    have ht (i : Bool) : Stripper.toggled ⟨i, .line, s.getLast?.or prev, res⟩ c =
        if c = '"' ∧ s.getLast?.or prev ≠ some '\\' then !i else i := rfl
    rw [List.foldl_append, ih h.1, List.foldl_cons, List.foldl_nil, Stripper.step, ht, ← inValue_append_singleton,
      List.getLast?_concat]
    have hline : Flag.line.next c = .line := by
      unfold Flag.next
      split <;> simp_all
    have hemit : Flag.line.emit c res = res := by
      show (if (Flag.line.next c).prints then c :: res else res) = res
      rw [hline]
      rfl
    cases inValue prev (s ++ [c]) with
    | true => rfl
    | false => simp only [Bool.false_eq_true, if_false, hline, hemit, Option.some_or]

/-- The flag in a comment outside of the values: a star after a star is none. -/
def blockFlag (s : List Char) : Flag := if trailingStars s % 2 = 1 then .star else .block

theorem blockFlag_next (h : ¬['*', '/'] <:+: s ++ [c]) : (blockFlag s).next c = blockFlag (s ++ [c]) ∧
    ∃ n ≤ [c].count '\n', (blockFlag s).emit c res = List.replicate n '\n' ++ res := by
  unfold blockFlag
  rw [trailingStars_append_singleton]
  by_cases hs : trailingStars s % 2 = 1
  · have hlast : s.getLast? = some '*' := by
      by_contra hl
      rw [trailingStars_of_last hl] at hs
      cases hs
    have hc : c ≠ '/' := by
      rintro rfl
      exact h (infix_of_last hlast)
    rw [if_pos hs]
    by_cases hstar : c = '*'
    · subst hstar
      exact ⟨by rw [if_pos rfl, if_neg (by omega)]; rfl, 0, Nat.zero_le _, rfl⟩
    · have hn : Flag.star.next c = .block := by
        unfold Flag.next
        split <;> simp_all
      refine ⟨by rw [hn, if_neg hstar]; rfl, 0, Nat.zero_le _, ?_⟩
      unfold Flag.emit
      split <;> simp_all [Flag.prints]
  · rw [if_neg hs]
    by_cases hstar : c = '*'
    · subst hstar
      exact ⟨by rw [if_pos rfl, if_pos (by omega)]; rfl, 0, Nat.zero_le _, rfl⟩
    · have hn : Flag.block.next c = .block := by
        unfold Flag.next
        split <;> simp_all
      refine ⟨by rw [hn, if_neg hstar]; rfl, ?_⟩
      by_cases hnl : c = '\n'
      · subst hnl
        exact ⟨1, Nat.le_refl _, rfl⟩
      · refine ⟨0, Nat.zero_le _, ?_⟩
        unfold Flag.emit
        split <;> simp_all [Flag.prints]

theorem foldl_block_body (h : ¬['*', '/'] <:+: body) (prev : Option Char) (res : List Char) :
    ∃ f, (f = .block ∨ f = .star) ∧
    (inValue prev body = false → f = blockFlag body) ∧ ∃ n ≤ body.count '\n',
      body.foldl Stripper.step ⟨false, .block, prev, res⟩ =
        ⟨inValue prev body, f, body.getLast?.or prev, List.replicate n '\n' ++ res⟩ := by
  induction body using List.reverseRecOn with
  | nil => exact ⟨.block, Or.inl rfl, fun _ => rfl, 0, Nat.le_refl _, rfl⟩
  | append_singleton s c ih =>
    obtain ⟨f, hf, hblock, n, hn, hs⟩ := ih fun hi => h (hi.trans (List.prefix_append s [c]).isInfix)
    have hprints : f.prints = false := by rcases hf with rfl | rfl <;> rfl
    have ht : Stripper.toggled ⟨inValue prev s, f, s.getLast?.or prev, List.replicate n '\n' ++ res⟩ c =
        inValue prev (s ++ [c]) := inValue_append_singleton.symm
    rw [List.foldl_append, hs, List.foldl_cons, List.foldl_nil, Stripper.step, ht, List.getLast?_concat,
      List.count_append]
    cases hv : inValue prev (s ++ [c]) with
    | true =>
      refine ⟨f, hf, fun h => (Bool.noConfusion h), n, hn.trans (Nat.le_add_right _ _), ?_⟩
      simp only [if_true, hprints, Bool.false_eq_true, if_false, Option.some_or]
    | false =>
      have hflag : f.next c = blockFlag (s ++ [c]) ∧
          ∃ m ≤ [c].count '\n', f.emit c (List.replicate n '\n' ++ res) = List.replicate m '\n' ++ (List.replicate n '\n' ++ res) := by
        cases hi : inValue prev s with
        | false =>
          rw [hblock hi]
          exact blockFlag_next h
        | true =>
          -- the quote that closes a value
          have hc : c = '"' := by
            by_contra hc
            rw [inValue_append_singleton, if_neg fun hq => hc hq.1, hi] at hv
            cases hv
          subst hc
          have hb : blockFlag (s ++ ['"']) = .block := by
            rw [blockFlag, trailingStars_append_singleton]
            rfl
          rw [hb]
          rcases hf with rfl | rfl <;> exact ⟨rfl, 0, Nat.zero_le _, rfl⟩
      obtain ⟨hnext, m, hm, hemit⟩ := hflag
      refine ⟨blockFlag (s ++ [c]), ?_, fun _ => rfl, m + n, by omega, ?_⟩
      · unfold blockFlag
        split
        · exact Or.inr rfl
        · exact Or.inl rfl
      · simp only [Bool.false_eq_true, if_false, hnext, hemit, Option.some_or, List.replicate_add, List.append_assoc]

end Bodies

section Written

variable {q : Char → Bool} {n : Nat} {f : Flag} {r : List Char} {c : Char}

theorem countP_le_tail (q : Char → Bool) (r : List Char) : r.countP q ≤ r.tail.countP q + 1 := by
  cases r with
  | nil => exact Nat.zero_le _
  | cons c r =>
    rw [List.countP_cons, List.tail_cons]
    split <;> omega

theorem next_ne_slash (hf : f.prints = false) : f.next c ≠ .slash := by
  cases f with
  | code | slash => cases hf
  | block | star | line =>
    unfold Flag.next
    split <;> simp_all

theorem sublist_emit (hf : f.prints = false) : r.Sublist (f.emit c r) := by
  unfold Flag.emit
  split
  · exact .refl _
  · exact List.sublist_cons_self _ r
  · cases hf
  · cases hf
  · split
    · exact List.sublist_cons_self _ r
    · exact .refl _

theorem le_countP_emit (hq : q '/' = true) (h : n + (if f = .slash then 1 else 0) ≤ r.countP q) :
    n + (if f.next c = .slash then 1 else 0) ≤ (f.emit c r).countP q := by
  have hcons : r.countP q ≤ (c :: r).countP q := (List.sublist_cons_self c r).countP_le
  cases f with
  | code =>
    by_cases hc : c = '/'
    · subst hc
      change n ≤ _ at h
      change n + 1 ≤ ('/' :: r).countP q
      rw [List.countP_cons_of_pos hq]
      exact Nat.succ_le_succ h
    · rw [next_code hc, emit_code hc]
      exact h.trans hcons
  | slash =>
    change n + 1 ≤ _ at h
    by_cases hc : c = '/' ∨ c = '*'
    · have htail := countP_le_tail q r
      rcases hc with rfl | rfl
      · change n ≤ r.tail.countP q
        omega
      · change n ≤ r.tail.countP q
        omega
    · have hemit : Flag.slash.emit c r = c :: r := by
        unfold Flag.emit
        split <;> simp_all [next_slash hc, Flag.prints]
      rw [next_slash hc, hemit]
      exact ((Nat.le_succ n).trans h).trans hcons
  | block | star | line =>
    rw [if_neg (next_ne_slash rfl)]
    exact h.trans (sublist_emit rfl).countP_le

theorem le_countP_step (hq : q '/' = true) {st : Stripper}
    (h : n + (if st.flag = .slash then 1 else 0) ≤ st.result.countP q)
    (c : Char) : n + (if (st.step c).flag = .slash then 1 else 0) ≤ (st.step c).result.countP q := by
  unfold Stripper.step
  split
  · refine h.trans (List.Sublist.countP_le ?_)
    dsimp only
    split
    · exact List.sublist_cons_self c st.result
    · exact .refl _
  · exact le_countP_emit hq h

theorem le_countP_foldl (hq : q '/' = true) (s : List Char) {st : Stripper}
    (h : n + (if st.flag = .slash then 1 else 0) ≤ st.result.countP q) : n ≤ (s.foldl Stripper.step st).result.countP q := by
  induction s generalizing st with
  | nil => exact (Nat.le_add_right _ _).trans h
  | cons c s ih => exact ih (le_countP_step hq h c)

end Written

/-- Any character but a newline. -/
def solid (c : Char) : Bool := c ≠ '\n'

/-- The solid characters that have to stay. -/
def Part.weight : Part → Nat
  | .code c _ => [c].countP solid
  | .literal body _ => ('"' :: (body ++ ['"'])).countP solid
  | _ => 0

theorem countP_of_leaves {r : List Char} (h : p.Leaves r) : r.countP solid = p.weight := by
  cases h with
  | code | literal => rfl
  | block body h n hn => exact List.countP_eq_zero.mpr fun c hc => by simp [List.eq_of_mem_replicate hc, solid]
  | line body h n hn => exact List.countP_eq_zero.mpr fun c hc => by simp [List.eq_of_mem_replicate hc, solid]

theorem reverse_newlines (n : Nat) : (List.replicate n '\n').reverse = List.replicate n '\n' := List.reverse_replicate

theorem foldl_opening {c : Char} (hc : c = '/' ∨ c = '*') (prev : Option Char) (res s : List Char) :
    ('/' :: c :: s).foldl Stripper.step ⟨false, .code, prev, res⟩ =
      s.foldl Stripper.step ⟨false, if c = '/' then .line else .block, some c, res⟩ := by
  rcases hc with rfl | rfl <;> rfl

theorem inValue_body (body : List Char) {c : Char} (hc : c = '/' ∨ c = '*') :
    inValue (some c) body = decide (seenQuotes none body % 2 = 1) := by
  rw [inValue, seenQuotes_eq_none]
  rcases hc with rfl | rfl <;> decide

/-- The loop stays in step with the text. -/
theorem foldl_of_kept (h : p.Kept prev b) (res : List Char) :
    ∃ r, p.Leaves r ∧ p.text.foldl Stripper.step ⟨b, .code, prev, res⟩ =
    ⟨p.flips prev b, .code, some p.last, r.reverse ++ res⟩ := by
  cases p with
  | code c hc =>
    refine ⟨[c], .code c hc, ?_⟩
    have ht : Stripper.toggled ⟨b, .code, prev, res⟩ c = b := if_neg fun h => hc.1 h.1
    rw [Part.text, List.foldl_cons, List.foldl_nil, Stripper.step, ht, next_code hc.2, emit_code hc.2]
    cases b <;> rfl
  | literal body hb =>
    refine ⟨_, .literal body hb, ?_⟩
    obtain ⟨hun, hrun⟩ := foldl_literal hb prev b res
    have hn (hf : (Part.literal body hb).flips prev b = true) : ¬Opener body := (h hf).1
    obtain ⟨r', hr⟩ := hrun hn
    have hres := (foldl_of_unopened rfl (hun.mpr hn)).2
    rw [hr] at hres ⊢
    have hflag : (if (Part.literal body hb).flips prev b then pendingFlag body else .code) = .code := by
      split
      · next hf => exact if_neg (h hf).2
      · rfl
    rw [hflag]
    exact congrArg (Stripper.mk _ _ _) hres
  | block body hb =>
    obtain ⟨rfl, hq, hs⟩ := h
    obtain ⟨f, -, hf, n, hn, hrun⟩ := foldl_block_body hb (some '*') res
    have hv : inValue (some '*') body = false := by
      rw [inValue_body body (Or.inr rfl), decide_eq_false_iff_not]
      omega
    have hb' : f = .block := (hf hv).trans (if_neg (by omega))
    refine ⟨_, .block body hb n hn, ?_⟩
    rw [Part.text, foldl_opening (Or.inr rfl), if_neg (by decide), List.foldl_append, hrun, hv, hb', reverse_newlines]
    rfl
  | line body hb =>
    obtain ⟨rfl, hq⟩ := h
    have hv : inValue (some '/') body = false := by
      rw [inValue_body body (Or.inl rfl), decide_eq_false_iff_not]
      omega
    refine ⟨_, .line body hb 1 (Nat.le_refl 1), ?_⟩
    rw [Part.text, foldl_opening (Or.inl rfl), if_pos rfl, List.foldl_append, foldl_line_body hb, hv]
    rfl

/-- A comment that is taken for the inside of a value is printed. -/
theorem foldl_of_invalue {c : Char} {s : List Char} : res.countP solid <
    (('/' :: c :: s).foldl Stripper.step ⟨true, .code, prev, res⟩).result.countP solid := by
  have hstep : Stripper.step ⟨true, .code, prev, res⟩ '/' = ⟨true, .code, some '/', '/' :: res⟩ := by
    have ht : Stripper.toggled ⟨true, .code, prev, res⟩ '/' = true := if_neg fun h => absurd h.1 (by decide)
    rw [Stripper.step, ht]
    rfl
  rw [List.foldl_cons, hstep]
  refine le_countP_foldl rfl (c :: s) ?_
  rw [List.countP_cons_of_pos rfl]
  exact Nat.le_refl _

/-- The text that is printed is shorter or longer than it has to be, or a comment is left open. -/
theorem foldl_of_not_kept (h : ¬p.Kept prev b) :
    (p.text.foldl Stripper.step ⟨b, .code, prev, res⟩).flag ≠ .code ∨
      (p.text.foldl Stripper.step ⟨b, .code, prev, res⟩).result.countP solid ≠ res.countP solid + p.weight := by
  cases p with
  | code c hc => exact absurd trivial h
  | literal body hb =>
    obtain ⟨hun, hrun⟩ := foldl_literal hb prev b res
    rw [Part.Kept, Classical.not_imp] at h
    obtain ⟨hf, h⟩ := h
    by_cases ho : Opener body
    · refine Or.inr (Nat.ne_of_lt (foldl_countP_lt ?_ fun hu => hun.mp hu hf ho))
      rintro c (rfl | rfl) <;> rfl
    · obtain ⟨r', hr⟩ := hrun fun _ => ho
      have hlast : body.getLast? = some '/' := by
        by_contra hl
        exact h ⟨ho, hl⟩
      rw [hr, if_pos hf]
      refine Or.inl ?_
      rw [pendingFlag, if_pos hlast]
      exact fun h => by cases h
  | block body hb =>
    cases b with
    | true => exact Or.inr (Nat.ne_of_gt foldl_of_invalue)
    | false =>
      refine Or.inl ?_
      obtain ⟨f, hf, hblock, n, -, hrun⟩ := foldl_block_body hb (some '*') res
      rw [Part.text, foldl_opening (Or.inr rfl), if_neg (by decide), List.foldl_append, hrun]
      cases hv : inValue (some '*') body with
      | true => rcases hf with rfl | rfl <;> exact fun h => by cases h
      | false =>
        have hq : seenQuotes none body % 2 = 0 := by
          rw [inValue_body body (Or.inr rfl), decide_eq_false_iff_not] at hv
          omega
        have hs : trailingStars body % 2 = 1 := by
          by_contra hs
          exact h ⟨rfl, hq, by omega⟩
        rw [hblock hv, blockFlag, if_pos hs]
        exact fun h => by cases h
  | line body hb =>
    cases b with
    | true => exact Or.inr (Nat.ne_of_gt foldl_of_invalue)
    | false =>
      refine Or.inl ?_
      have hv : inValue (some '/') body = true := by
        rw [inValue_body body (Or.inl rfl), decide_eq_true_iff]
        by_contra hq
        exact h ⟨rfl, by omega⟩
      rw [Part.text, foldl_opening (Or.inl rfl), if_pos rfl, List.foldl_append, foldl_line_body hb, hv]
      exact fun h => by cases h

theorem cleaned_of_tidy (h : Tidy prev b ps) (res : List Char) : ∃ r, Cleaned ps r ∧
    ∃ b' prev', (partsText ps).foldl Stripper.step ⟨b, .code, prev, res⟩ = ⟨b', .code, prev', r.reverse ++ res⟩ := by
  induction ps generalizing prev b res with
  | nil => exact ⟨[], .nil, b, prev, rfl⟩
  | cons p ps ih =>
    obtain ⟨r, hr, hp⟩ := foldl_of_kept h.1 res
    obtain ⟨rs, hrs, b', prev', hps⟩ := ih h.2 (r.reverse ++ res)
    refine ⟨r ++ rs, .cons hr hrs, b', prev', ?_⟩
    rw [partsText, List.flatMap_cons, ← partsText, List.foldl_append, hp, hps, List.reverse_append, List.append_assoc]

/-- The solid characters of the code. -/
def weight (ps : List Part) : Nat := (ps.map Part.weight).sum

theorem countP_of_cleaned {r : List Char} (h : Cleaned ps r) : r.countP solid = weight ps := by
  induction h with
  | nil => rfl
  | cons hp _ ih => rw [List.countP_append, countP_of_leaves hp, ih]; rfl

theorem tidy_of_counts (res : List Char)
    (h : ∀ q, q <+: ps → ((partsText q).foldl Stripper.step ⟨b, .code, prev, res⟩).flag = .code ∧
    ((partsText q).foldl Stripper.step ⟨b, .code, prev, res⟩).result.countP solid = res.countP solid + weight q) :
    Tidy prev b ps := by
  induction ps generalizing prev b res with
  | nil => trivial
  | cons p ps ih =>
    have hkept : p.Kept prev b := by
      by_contra hk
      obtain ⟨hf, hc⟩ := h [p] ⟨ps, rfl⟩
      have ht : partsText [p] = p.text := List.append_nil _
      rw [ht] at hf hc
      rcases foldl_of_not_kept hk with hn | hn
      · exact hn hf
      · exact hn hc
    refine ⟨hkept, ?_⟩
    obtain ⟨r, hr, hp⟩ := foldl_of_kept hkept res
    refine ih (r.reverse ++ res) fun q hq => ?_
    have hpq := h (p :: q) (List.cons_prefix_cons.mpr ⟨rfl, hq⟩)
    rw [partsText, List.flatMap_cons, ← partsText, List.foldl_append, hp] at hpq
    refine ⟨hpq.1, hpq.2.trans ?_⟩
    rw [List.countP_append, List.countP_reverse, countP_of_leaves hr, weight, List.map_cons, List.sum_cons, ← weight]
    omega

theorem Tidy.of_prefix {q : List Part} (h : Tidy prev b ps) (hq : q <+: ps) : Tidy prev b q := by
  induction q generalizing prev b ps with
  | nil => trivial
  | cons p q ih =>
    obtain ⟨t, rfl⟩ := hq
    exact ⟨h.1, ih h.2 ⟨t, rfl⟩⟩

theorem skipComments_of_tidy (h : Tidy none false ps) : ∃ r, skipComments (partsText ps) = some r ∧ Cleaned ps r := by
  obtain ⟨r, hr, b', prev', hs⟩ := cleaned_of_tidy h []
  refine ⟨r, ?_, hr⟩
  change (partsText ps).foldl Stripper.step {} = _ at hs
  unfold skipComments
  rw [hs, List.append_nil]
  exact congrArg some (List.reverse_reverse r)

/-- A text and all that it starts with are cleaned exactly if the loop stays in step with it. -/
theorem cleaned_prefixes_iff :
    (∀ q, q <+: ps → ∃ r, skipComments (partsText q) = some r ∧ Cleaned q r) ↔ Tidy none false ps := by
  constructor
  · intro h
    refine tidy_of_counts [] fun q hq => ?_
    obtain ⟨r, hr, hc⟩ := h q hq
    unfold skipComments at hr
    simp only [Option.ite_none_right_eq_some, Option.some.injEq] at hr
    refine ⟨hr.1, ?_⟩
    rw [← List.countP_reverse, hr.2, countP_of_cleaned hc]
    exact (Nat.zero_add _).symm
  · intro h q hq
    exact skipComments_of_tidy (h.of_prefix hq)

/-- A comment with two stars before its end. -/
def banner : List Part :=
  [.code '[' (by decide), .block ['*', ' ', 'a', ' ', '*'] (by decide), .code '1' (by decide), .code ']' (by decide)]

theorem not_cleaned_banner : partsText banner = "[/** a **/1]".toList ∧
    ¬∃ r, skipComments (partsText banner) = some r ∧ Cleaned banner r := by
  have h : skipComments (partsText banner) = none := by decide
  refine ⟨by decide, ?_⟩
  rintro ⟨r, hr, -⟩
  rw [h] at hr
  cases hr

end OphidiaWorkflow.Commented
