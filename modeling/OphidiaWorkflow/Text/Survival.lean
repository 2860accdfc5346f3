import OphidiaWorkflow.Text.Print
import OphidiaWorkflow.Text.Stripping

/-!
Which printed values the stripper of the comments gives back unchanged.

A text that ends with a backslash is printed with two of them before its closing quote, which is then not seen: up to
the next such text the loop takes the texts for code.
-/
namespace OphidiaWorkflow

open Json

/-- No text that stands after an odd number of texts with a backslash at the end has a comment in it, nor a slash at its
end if it is the last one of all; `odd` tells whether the number is odd so far. -/
def Undisturbed (odd : Bool) : List (List Char) → Prop
  | [] => True
  | s :: ss =>
    (odd = true → ¬Opener s ∧ (s.getLast? = some '/' → ss ≠ [])) ∧
      Undisturbed (odd != decide (s.getLast? = some '\\')) ss

instance (s : List Char) : Decidable (Opener s) := inferInstanceAs (Decidable (_ ∨ _))

instance decidableUndisturbed : (odd : Bool) → (ss : List (List Char)) → Decidable (Undisturbed odd ss)
  | _, [] => isTrue trivial
  | odd, s :: ss =>
    have := decidableUndisturbed (odd != decide (s.getLast? = some '\\')) ss
    inferInstanceAs (Decidable (_ ∧ _))

/-- The text between the quotes. -/
def Token.body? : Token → Option (List Char)
  | .code _ _ => none
  | .literal body _ => some body

section Tokens

variable {c : Char} {s t : List Char} {ss : List (List Char)} {odd : Bool} {k : Nat} {ts : List Token}

theorem exists_literal_iff : (∃ t ∈ ts, t.isLiteral = true) ↔ ts.filterMap Token.body? ≠ [] := by
  induction ts with
  | nil => simp
  | cons t ts ih =>
    cases t with
    | code c h =>
      rw [exists_literal_cons_code, ih]
      rfl
    | literal body h => exact iff_of_true ⟨_, List.mem_cons_self, rfl⟩ (List.cons_ne_nil _ _)

theorem harmless_iff_undisturbed :
    Harmless k ts ↔ Undisturbed (decide (k % 2 = 1)) (ts.filterMap Token.body?) := by
  induction ts generalizing k with
  | nil =>
    refine iff_of_true (fun a body h b heq => ?_) trivial
    simp at heq
  | cons t ts ih =>
    cases t with
    | code c h =>
      rw [harmless_cons_code, ih]
      rfl
    | literal body h =>
      rw [harmless_cons_literal, ih, ← parity_tricky, exists_literal_iff]
      show _ ↔ (_ = true → _) ∧ _
      rw [decide_eq_true_iff]
      rfl

theorem opener_append_of_not_mem (h : '/' ∉ s) : Opener (s ++ t) ↔ Opener t := by
  induction s with
  | nil => rfl
  | cons c s ih =>
    rw [List.mem_cons, not_or] at h
    rw [List.cons_append, opener_cons_of_ne (Ne.symm h.1), ih h.2]

theorem escape_of_opening (h : c = '/' ∨ c = '*') : escape c = [c] := by
  rcases h with rfl | rfl <;> rfl

theorem not_mem_escape {d : Char} (hd : d = '/' ∨ d = '*') (h : c ≠ d) : d ∉ escape c := by
  rcases escape_cases c with hc | ⟨-, hc, he⟩ | ⟨-, -, he⟩
  · have hall : ∀ c ∈ escaped, '/' ∉ escape c ∧ '*' ∉ escape c := forall_mem_escaped (by decide)
    rcases hd with rfl | rfl
    · exact (hall c hc).1
    · exact (hall c hc).2
  · have hall : ∀ n < 32, '/' ∉ ['\\', 'u', '0', '0', hexChar (n / 16), hexChar (n % 16)] ∧
        '*' ∉ ['\\', 'u', '0', '0', hexChar (n / 16), hexChar (n % 16)] := by decide
    rw [he]
    rcases hd with rfl | rfl
    · exact (hall c.toNat hc).1
    · exact (hall c.toNat hc).2
  · rw [he]
    exact fun hmem => h (List.mem_singleton.mp hmem).symm

theorem opener_flatMap_escape : Opener (s.flatMap escape) ↔ Opener s := by
  induction s with
  | nil => rfl
  | cons c s ih =>
    rw [List.flatMap_cons]
    by_cases hc : c = '/'
    · subst hc
      cases s with
      | nil => rfl
      | cons d s =>
        show Opener ('/' :: (d :: s).flatMap escape) ↔ _
        rw [opener_slash_cons, ← ih, List.flatMap_cons]
        by_cases hd : d = '/' ∨ d = '*'
        · rw [escape_of_opening hd, List.singleton_append, opener_slash_cons]
        · rw [or_iff_right hd]
          have hhead := escape_ne_nil d
          obtain ⟨e, r, he⟩ := List.exists_cons_of_ne_nil hhead
          have hmem : e ∈ escape d := he ▸ List.mem_cons_self
          have hne : ¬(e = '/' ∨ e = '*') := by
            rintro (rfl | rfl)
            · exact not_mem_escape (.inl rfl) (fun h => hd (.inl h)) hmem
            · exact not_mem_escape (.inr rfl) (fun h => hd (.inr h)) hmem
          rw [he, List.cons_append, opener_slash_cons, or_iff_right hne]
    · rw [opener_append_of_not_mem (not_mem_escape (.inl rfl) hc), opener_cons_of_ne hc, ih]

/-- The escapes are not taken for comments. -/
theorem undisturbed_map_escape : Undisturbed odd (ss.map fun s => s.flatMap escape) ↔ Undisturbed odd ss := by
  induction ss generalizing odd with
  | nil => rfl
  | cons s ss ih =>
    rw [List.map_cons, Undisturbed, Undisturbed, ih, opener_flatMap_escape]
    simp only [getLast?_flatMap_escape (.inl rfl : '/' = '/' ∨ '/' = '\\'),
      getLast?_flatMap_escape (.inr rfl : '\\' = '/' ∨ '\\' = '\\'), ne_eq, List.map_eq_nil_iff]

end Tokens

namespace Json

mutual

/-- The names and the texts of a value in the order in which they are printed. -/
def literals : Json → List (List Char)
  | string s => [s]
  | array l => itemLiterals l
  | object ms => memberLiterals ms
  | other => []

def itemLiterals : List Json → List (List Char)
  | [] => []
  | j :: l => literals j ++ itemLiterals l

def memberLiterals : List (String × Json) → List (List Char)
  | [] => []
  | (k, j) :: ms => k.toList :: (literals j ++ memberLiterals ms)

end

/-- The text is a list of tokens, and its literals are the given texts. -/
def Spells (t : List Char) (ss : List (List Char)) : Prop :=
  ∃ ts, t = tokensText ts ∧ ts.filterMap Token.body? = ss.map fun s => s.flatMap escape

variable {t q : List Char} {ss ss' : List (List Char)}

theorem Spells.append (h : Spells t ss) (h' : Spells q ss') : Spells (t ++ q) (ss ++ ss') := by
  obtain ⟨ts, rfl, hb⟩ := h
  obtain ⟨ts', rfl, hb'⟩ := h'
  exact ⟨ts ++ ts', by rw [tokensText, tokensText, tokensText, List.flatMap_append], by
    rw [List.filterMap_append, hb, hb', List.map_append]⟩

theorem spells_of_quiet (h : ∀ c ∈ t, quiet c = true) : Spells t [] := by
  induction t with
  | nil => exact ⟨[], rfl, rfl⟩
  | cons c t ih =>
    obtain ⟨ts, rfl, hb⟩ := ih fun d hd => h d (List.mem_cons_of_mem _ hd)
    exact ⟨.code c (h c List.mem_cons_self) :: ts, rfl, hb⟩

theorem Spells.before (h : Spells t ss) (hq : ∀ c ∈ q, quiet c = true) : Spells (q ++ t) ss :=
  (spells_of_quiet hq).append h

theorem Spells.after (h : Spells t ss) (hq : ∀ c ∈ q, quiet c = true) : Spells (t ++ q) ss := by
  have happ := h.append (spells_of_quiet hq)
  rwa [List.append_nil] at happ

theorem escaped_flatMap (s : List Char) : Escaped (s.flatMap escape) = true := by
  induction s with
  | nil => rfl
  | cons c s ih =>
    rw [List.flatMap_cons]
    rcases escape_cases c with hc | ⟨-, hc, he⟩ | ⟨hc, -, he⟩
    · simp only [escaped, List.mem_cons, List.not_mem_nil, or_false] at hc
      rcases hc with rfl | rfl | rfl | rfl | rfl | rfl | rfl <;> exact ih
    · have hne (d : Char) (hd : d ∈ [hexChar (c.toNat / 16), hexChar (c.toNat % 16)]) : d ≠ '"' ∧ d ≠ '\\' :=
        hexChar_ne c.toNat hc d hd
      obtain ⟨hq₁, hb₁⟩ := hne _ List.mem_cons_self
      obtain ⟨hq₂, hb₂⟩ := hne _ (List.mem_cons_of_mem _ List.mem_cons_self)
      rw [he]
      show Escaped ('0' :: '0' :: _ :: _ :: s.flatMap escape) = true
      rw [escaped_cons (by decide) (by decide), escaped_cons (by decide) (by decide), escaped_cons hq₁ hb₁,
        escaped_cons hq₂ hb₂, ih]
    · have hq : c ≠ '"' := by rintro rfl; exact hc (by decide)
      have hb : c ≠ '\\' := by rintro rfl; exact hc (by decide)
      rw [he, List.singleton_append, escaped_cons hq hb, ih]

theorem spells_quoted (s : List Char) : Spells (quoted s) [s] :=
  ⟨[.literal (s.flatMap escape) (escaped_flatMap s)], by simp [tokensText, Token.text, quoted], rfl⟩

theorem quiet_newline (depth : Nat) : ∀ c ∈ newline depth, quiet c = true := by
  intro c hc
  rcases List.mem_cons.mp hc with rfl | hc
  · decide
  · rw [List.eq_of_mem_replicate hc]
    decide

theorem quiet_singleton {c : Char} (h : quiet c = true) : ∀ d ∈ [c], quiet d = true := by
  rintro d hd
  rwa [List.mem_singleton.mp hd]

mutual

theorem spells_dump (depth : Nat) (j : Json) : Spells (dump depth j) (literals j) := by
  match j with
  | string s => exact spells_quoted s
  | array l =>
    have hbody : Spells (if l.isEmpty then [] else dumpItems (depth + 1) l ++ newline depth) (itemLiterals l) := by
      cases l with
      | nil => exact spells_of_quiet fun c hc => absurd hc List.not_mem_nil
      | cons j l => exact (spells_dumpItems (depth + 1) (j :: l)).after (quiet_newline depth)
    exact (hbody.after (quiet_singleton (by decide))).before (q := ['[']) (quiet_singleton (by decide))
  | object ms =>
    have hbody : Spells (if ms.isEmpty then [] else dumpMembers (depth + 1) ms ++ newline depth)
        (memberLiterals ms) := by
      cases ms with
      | nil => exact spells_of_quiet fun c hc => absurd hc List.not_mem_nil
      | cons m ms => exact (spells_dumpMembers (depth + 1) (m :: ms)).after (quiet_newline depth)
    exact (hbody.after (quiet_singleton (by decide))).before (q := ['\x7b']) (quiet_singleton (by decide))
  | other => exact spells_of_quiet (t := ['n', 'u', 'l', 'l']) (List.all_eq_true.mp (by decide))

theorem spells_dumpItems (depth : Nat) (l : List Json) : Spells (dumpItems depth l) (itemLiterals l) := by
  match l with
  | [] => exact spells_of_quiet fun c hc => absurd hc List.not_mem_nil
  | j :: l =>
    have htail : Spells (if l.isEmpty then [] else ',' :: dumpItems depth l) (itemLiterals l) := by
      cases l with
      | nil => exact spells_of_quiet fun c hc => absurd hc List.not_mem_nil
      | cons i l => exact (spells_dumpItems depth (i :: l)).before (q := [',']) (quiet_singleton (by decide))
    exact ((spells_dump depth j).before (quiet_newline depth)).append htail

theorem spells_dumpMembers (depth : Nat) (ms : List (String × Json)) :
    Spells (dumpMembers depth ms) (memberLiterals ms) := by
  match ms with
  | [] => exact spells_of_quiet fun c hc => absurd hc List.not_mem_nil
  | (k, j) :: ms =>
    have htail : Spells (if ms.isEmpty then [] else ',' :: dumpMembers depth ms) (memberLiterals ms) := by
      cases ms with
      | nil => exact spells_of_quiet fun c hc => absurd hc List.not_mem_nil
      | cons m ms => exact (spells_dumpMembers depth (m :: ms)).before (q := [',']) (quiet_singleton (by decide))
    have hkey := (((spells_quoted k.toList).before (quiet_newline depth)).after
      (q := ": ".toList) (List.all_eq_true.mp (by decide))).append (spells_dump depth j)
    exact hkey.append htail

end

/-- What spells texts is given back as it is exactly if they are undisturbed. -/
theorem Spells.skipComments_iff (h : Spells t ss) : skipComments t = some t ↔ Undisturbed false ss := by
  obtain ⟨ts, rfl, hb⟩ := h
  rw [skipComments_tokensText_iff, harmless_iff_undisturbed, hb]
  exact undisturbed_map_escape

end Json

end OphidiaWorkflow
