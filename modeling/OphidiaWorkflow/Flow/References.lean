import OphidiaWorkflow.Flow.Values

/-!
The references among the values of a loop: `oph_check_input_response` looks them up in the responses of the tasks that
the loop depends on.
-/
namespace OphidiaWorkflow.Values

open Lib

section References

variable {extract : List Char → Option (List Char)} {room : Nat} {s v tok : List Char} {done toks before after : List (List Char)}

/-- What a token stands for. -/
def denoted (extract : List Char → Option (List Char)) (tok : List Char) : List (List Char) :=
  match extract tok with
  | none => [tok]
  | some v => if '|' ∈ v then tokens '|' v else [v]

/-- The values that the text stands for. -/
def denotedValues (extract : List Char → Option (List Char)) (s : List Char) : List (List Char) :=
  (tokens '|' s).flatMap (denoted extract)

/-- The call is defined and, if it succeeds, it returns the values that the text stands for. -/
def Faithful (extract : List Char → Option (List Char)) (s : List Char) : Prop :=
  ∀ fuel, checkInputResponse extract id fuel s ≠ some .undefined ∧
    ∀ l, checkInputResponse extract id fuel s = some (.values l) → l = denotedValues extract s

/-- The token stands for a text with separators. -/
def IsList (extract : List Char → Option (List Char)) (tok : List Char) : Prop := ∃ v, extract tok = some v ∧ '|' ∈ v

/-- The text that a token stands for. -/
def looked (extract : List Char → Option (List Char)) (tok : List Char) : List Char := (extract tok).getD tok

/-- The text that is written when the last token stands for several values. -/
def rebuilt (extract : List Char → Option (List Char)) (s : List Char) : List Char :=
  expandedValue ((tokens '|' s).dropLast.map (looked extract)) (looked extract ((tokens '|' s).getLastD []))

/-- No token is cut, and the values in a rebuilt text are no references again. -/
structure Unchained (extract : List Char → Option (List Char)) (s : List Char) : Prop where
  short : ∀ tok ∈ tokens '|' s, tok.length ≤ maxString
  values : IsList extract ((tokens '|' s).getLastD []) →
    ∀ tok ∈ tokens '|' (rebuilt extract s), tok.length ≤ maxString ∧ extract tok = none

/--
No token stands for several values but the last one, which has at most one token before it. The value of that fits
before the others; or an empty value in the rebuilt text makes the call fail.
-/
def ListComesLast (extract : List Char → Option (List Char)) (s : List Char) : Prop :=
  (∀ tok ∈ tokens '|' s, ¬ IsList extract tok) ∨
    ∃ before tok v, tokens '|' s = before ++ [tok] ∧ (∀ b ∈ before, ¬ IsList extract b) ∧ extract tok = some v ∧ '|' ∈ v ∧
      fitsInto (1 + s.length + v.length) (before.map (looked extract)) v ∧
      (before.length ≤ 1 ∨ ¬ Separated (rebuilt extract s))

/-- The first token that stands for several values, if there is one, decides what happens. -/
theorem scanValues_append (hshort : ∀ tok ∈ before, tok.length ≤ maxString)
    (hb : ∀ tok ∈ before, ¬ IsList extract tok) :
    scanValues extract room done (before ++ toks) = scanValues extract room (done ++ before.map (looked extract)) toks := by
  induction before generalizing done with
  | nil => rw [List.nil_append, List.map_nil, List.append_nil]
  | cons tok before ih =>
    rw [List.forall_mem_cons] at hshort hb
    have happ (x : List Char) :
        (done ++ [x]) ++ before.map (looked extract) = done ++ x :: before.map (looked extract) := by
      rw [List.append_assoc]
      rfl
    rw [List.cons_append, scanValues, List.take_of_length_le hshort.1, List.map_cons]
    cases hx : extract tok with
    | none =>
      have hl : looked extract tok = tok := by rw [looked, hx]; rfl
      rw [hl, ← happ]
      exact ih hshort.2 hb.2
    | some v =>
      have hl : looked extract tok = v := by rw [looked, hx]; rfl
      have hv : '|' ∉ v := fun h => hb.1 ⟨v, hx, h⟩
      rw [hl, ← happ]
      show (if '|' ∉ v then _ else _) = _
      rw [if_pos hv]
      exact ih hshort.2 hb.2

theorem scanValues_list (hshort : tok.length ≤ maxString) (hv : extract tok = some v) (hsep : '|' ∈ v) :
    scanValues extract room done (tok :: after) =
      if after = [] ∧ fitsInto (1 + room + v.length) done v then .expansion (expandedValue done v) else .undefined := by
  rw [scanValues, List.take_of_length_le hshort, hv]
  exact if_neg (not_not.mpr hsep)

theorem denoted_of_not_isList (h : ¬ IsList extract tok) : denoted extract tok = [looked extract tok] := by
  unfold denoted looked
  cases hx : extract tok with
  | none => rfl
  | some v => exact if_neg fun hv => h ⟨v, hx, hv⟩

theorem flatMap_denoted (h : ∀ tok ∈ toks, ¬ IsList extract tok) :
    toks.flatMap (denoted extract) = toks.map (looked extract) := by
  induction toks with
  | nil => rfl
  | cons tok toks ih =>
    rw [List.forall_mem_cons] at h
    rw [List.flatMap_cons, denoted_of_not_isList h.1, ih h.2]
    rfl

theorem not_mem_looked (hb : '|' ∉ tok) (h : ¬ IsList extract tok) : '|' ∉ looked extract tok := by
  unfold looked
  cases hx : extract tok with
  | none => exact hb
  | some v => exact fun hv => h ⟨v, hx, hv⟩

theorem exists_first_isList (h : ¬ ∀ tok ∈ toks, ¬ IsList extract tok) :
    ∃ before tok after, toks = before ++ tok :: after ∧ (∀ b ∈ before, ¬ IsList extract b) ∧ IsList extract tok := by
  induction toks with
  | nil => exact absurd (fun tok ht => absurd ht List.not_mem_nil) h
  | cons tok toks ih =>
    by_cases htok : IsList extract tok
    · exact ⟨[], tok, toks, rfl, fun b hb => absurd hb List.not_mem_nil, htok⟩
    · rw [List.forall_mem_cons, not_and] at h
      obtain ⟨before, t, after, rfl, hb, ht⟩ := ih (h htok)
      exact ⟨tok :: before, t, after, rfl, List.forall_mem_cons.mpr ⟨htok, hb⟩, ht⟩

/-- With two pieces or more in front, only as much as the last one takes is left of them. -/
theorem exists_expandedValue (h : 2 ≤ done.length) (v : List Char) :
    ∃ q, expandedValue done v = q ++ v ∧ q.length + 2 ≤ joinedLength done + if [] ∈ done then 1 else 0 := by
  obtain ⟨d, init, rfl⟩ : ∃ d init, done = init ++ [d] := by
    rcases List.eq_nil_or_concat done with rfl | ⟨init, d, rfl⟩
    · exact absurd h (by decide)
    · exact ⟨d, init, List.concat_eq_append⟩
  refine ⟨_, rfl, ?_⟩
  rw [List.foldl_append, joinedLength_append, joinedLength, joinedLength]
  generalize init.foldl _ _ = p
  show (((p.1.take p.2 ++ d ++ ['|']).take (d.length + 1))).length + 2 ≤ _
  have htake := List.length_take_le (d.length + 1) (p.1.take p.2 ++ d ++ ['|'])
  cases init with
  | nil => exact absurd h (by simp)
  | cons c init =>
    rw [joinedLength]
    cases c with
    | nil =>
      rw [if_pos (List.mem_append_left _ List.mem_cons_self)]
      omega
    | cons x c =>
      rw [List.length_cons]
      omega

theorem tokens_expandedValue_ne (h : 2 ≤ done.length) (v : List Char) :
    tokens '|' (expandedValue done v) ≠ done ++ tokens '|' v := by
  intro he
  obtain ⟨q, hq, hle⟩ := exists_expandedValue h v
  have hne : [] ∉ done := by
    intro hm
    exact ne_nil_of_mem_tokens (he ▸ List.mem_append_left _ hm) rfl
  have hlen := joinedLength_tokens_append_le '|' q v
  rw [← hq, he, joinedLength_append] at hlen
  rw [if_neg hne] at hle
  omega

theorem tokens_expandedValue_of_length_le (h : done.length ≤ 1) (hd : ∀ d ∈ done, '|' ∉ d)
    (hs : Separated (expandedValue done v)) : tokens '|' (expandedValue done v) = done ++ tokens '|' v := by
  cases done with
  | nil => rfl
  | cons d done =>
    cases done with
    | cons => exact absurd h (by simp)
    | nil =>
      have htext : expandedValue [d] v = d ++ '|' :: v := by
        show (([] ++ d ++ ['|']).take (d.length + 1)) ++ v = _
        rw [List.nil_append, List.take_of_length_le (by simp), List.append_assoc]
        rfl
      rw [htext] at hs ⊢
      refine tokens_append_cons ?_ (hd d List.mem_cons_self) v
      rintro rfl
      exact absurd (List.isChain_cons_cons.mp hs).1 (by simp)

theorem faithful_of_not_isList (hshort : ∀ tok ∈ tokens '|' s, tok.length ≤ maxString)
    (h : ∀ tok ∈ tokens '|' s, ¬ IsList extract tok) : Faithful extract s := by
  have hscan : scanValues extract s.length [] (tokens '|' s) = .values ((tokens '|' s).map (looked extract)) := by
    rw [← List.append_nil (tokens '|' s), scanValues_append hshort h, List.append_nil]
    rfl
  intro fuel
  unfold checkInputResponse denotedValues
  rw [flatMap_denoted h]
  split
  · next hs =>
    subst hs
    refine ⟨by simp, fun l hl => ?_⟩
    cases hl
    rfl
  · cases fuel with
    | zero =>
      rw [expandValues]
      exact ⟨by simp, by simp⟩
    | succ fuel =>
      have hone : expandValues extract id s.length (fuel + 1) s =
          some (if ((tokens '|' s).map (looked extract)).length < countItems s then .error
            else .values ((tokens '|' s).map (looked extract))) := by
        rw [expandValues, hscan]
        show some (if _ then _ else Checked.values (List.map id _)) = _
        rw [List.map_id]
      rw [hone]
      split
      · exact ⟨by simp, by simp⟩
      · refine ⟨by simp, fun l hl => ?_⟩
        cases hl
        rfl

/-- The second pass over a text without references. -/
theorem faithful_iff_of_rebuilt (hshort : ∀ t ∈ before ++ [tok], t.length ≤ maxString)
    (htokens : tokens '|' s = before ++ [tok]) (hb : ∀ b ∈ before, ¬ IsList extract b) (hv : extract tok = some v)
    (hsep : '|' ∈ v) (hplain : ∀ t ∈ tokens '|' (rebuilt extract s), t.length ≤ maxString ∧ extract t = none) :
    Faithful extract s ↔ fitsInto (1 + s.length + v.length) (before.map (looked extract)) v ∧
      (Separated (rebuilt extract s) → tokens '|' (rebuilt extract s) = before.map (looked extract) ++ tokens '|' v) := by
  have hs : s ≠ [] := by
    rintro rfl
    exact absurd htokens.symm (by simp [tokens])
  have hlooked : looked extract tok = v := by rw [looked, hv]; rfl
  have hrebuilt : rebuilt extract s = expandedValue (before.map (looked extract)) v := by
    rw [rebuilt, htokens, List.dropLast_concat, List.getLastD_concat, hlooked]
  have hne : rebuilt extract s ≠ [] := by
    rw [hrebuilt]
    exact List.append_ne_nil_of_right_ne_nil _ (List.ne_nil_of_mem hsep)
  have hdenoted : denotedValues extract s = before.map (looked extract) ++ tokens '|' v := by
    have htok : denoted extract tok = tokens '|' v := by
      rw [denoted, hv]
      exact if_pos hsep
    rw [denotedValues, htokens, List.flatMap_append, flatMap_denoted hb, List.flatMap_singleton, htok]
  have hshort := List.forall_mem_append.mp hshort
  have hfirst : scanValues extract s.length [] (tokens '|' s) =
      if fitsInto (1 + s.length + v.length) (before.map (looked extract)) v then .expansion (rebuilt extract s)
      else .undefined := by
    rw [htokens, scanValues_append hshort.1 hb, scanValues_list (hshort.2 tok List.mem_cons_self) hv hsep, hrebuilt]
    simp
  have hsecond :
      scanValues extract s.length [] (tokens '|' (rebuilt extract s)) = .values (tokens '|' (rebuilt extract s)) := by
    have hid : (tokens '|' (rebuilt extract s)).map (looked extract) = tokens '|' (rebuilt extract s) := by
      refine (List.map_congr_left fun t ht => ?_).trans (List.map_id _)
      rw [looked, (hplain t ht).2]
      rfl
    have hnone : ∀ t ∈ tokens '|' (rebuilt extract s), ¬ IsList extract t := by
      rintro t ht ⟨u, hu, -⟩
      rw [(hplain t ht).2] at hu
      cases hu
    have hscan := @scanValues_append extract s.length [] [] _ (fun t ht => (hplain t ht).1) hnone
    rw [List.append_nil, List.nil_append, hid] at hscan
    exact hscan
  by_cases hfits : fitsInto (1 + s.length + v.length) (before.map (looked extract)) v = true
  · rw [if_pos hfits] at hfirst
    have htwo (fuel : Nat) : checkInputResponse extract id (fuel + 2) s =
        some (if (tokens '|' (rebuilt extract s)).length < countItems (rebuilt extract s) then .error
          else .values (tokens '|' (rebuilt extract s))) := by
      rw [checkInputResponse, if_neg hs, expandValues, hfirst]
      show expandValues _ _ _ (fuel + 1) _ = _
      rw [expandValues, hsecond]
      show some (if _ then _ else Checked.values (List.map id _)) = _
      rw [List.map_id]
    rw [and_iff_right hfits, ← hdenoted]
    constructor
    · intro h hsepd
      refine (h 2).2 _ ?_
      rw [htwo 0, if_neg fun hlt => (length_tokens_lt_iff hne).mp hlt hsepd]
    · intro h fuel
      cases fuel with
      | zero =>
        rw [checkInputResponse, if_neg hs, expandValues]
        exact ⟨by simp, by simp⟩
      | succ fuel =>
        cases fuel with
        | zero =>
          rw [checkInputResponse, if_neg hs, expandValues, hfirst]
          simp only [expandValues]
          exact ⟨by simp, by simp⟩
        | succ fuel =>
          rw [htwo fuel]
          split
          · exact ⟨by simp, by simp⟩
          · next hge =>
            refine ⟨by simp, fun l hl => ?_⟩
            cases hl
            rw [length_tokens_lt_iff hne, not_not] at hge
            exact h hge
  · rw [if_neg hfits] at hfirst
    refine iff_of_false (fun h => (h 1).1 ?_) fun h => hfits h.1
    rw [checkInputResponse, if_neg hs, expandValues, hfirst]

/--
What is copied behind what stands at the start of the buffer replaces it, one token after the list is kept, but the
array is freed, and the buffer is as long as the argument.
-/
theorem faithful_iff_listComesLast (h : Unchained extract s) : Faithful extract s ↔ ListComesLast extract s := by
  by_cases hlist : ∀ tok ∈ tokens '|' s, ¬ IsList extract tok
  · exact iff_of_true (faithful_of_not_isList h.short hlist) (.inl hlist)
  obtain ⟨before, tok, after, htokens, hb, v, hv, hsep⟩ := exists_first_isList hlist
  have hshort := h.short
  rw [ListComesLast, or_iff_right hlist]
  cases after with
  | cons next after =>
    -- the array is freed while there are tokens to be read
    refine iff_of_false (fun hf => ?_) ?_
    · have hs : s ≠ [] := by
        rintro rfl
        exact absurd htokens.symm (by simp [tokens])
      rw [htokens, List.forall_mem_append, List.forall_mem_cons] at hshort
      have hscan : scanValues extract s.length [] (tokens '|' s) = .undefined := by
        rw [htokens, scanValues_append hshort.1 hb, scanValues_list hshort.2.1 hv hsep]
        exact if_neg fun hn => List.cons_ne_nil _ _ hn.1
      refine (hf 1).1 ?_
      rw [checkInputResponse, if_neg hs, expandValues, hscan]
    · rintro ⟨before', tok', v', htokens', hb', -⟩
      have hmem : tok ∈ before' := by
        have hlast := congrArg List.dropLast (htokens.symm.trans htokens')
        rw [List.dropLast_concat, List.dropLast_append_of_ne_nil (List.cons_ne_nil _ _), List.dropLast_cons_of_ne_nil
          (List.cons_ne_nil _ _)] at hlast
        rw [← hlast]
        exact List.mem_append_right _ List.mem_cons_self
      exact hb' tok hmem ⟨v, hv, hsep⟩
  | nil =>
    rw [htokens] at hshort
    have hlast : (tokens '|' s).getLastD [] = tok := by rw [htokens, List.getLastD_concat]
    rw [faithful_iff_of_rebuilt hshort htokens hb hv hsep (h.values (hlast ▸ ⟨v, hv, hsep⟩))]
    have hrebuilt : rebuilt extract s = expandedValue (before.map (looked extract)) v := by
      rw [rebuilt, htokens, List.dropLast_concat, List.getLastD_concat, looked, hv]
      rfl
    have hsimple : ∀ d ∈ before.map (looked extract), '|' ∉ d := by
      intro d hd
      obtain ⟨b, hbm, rfl⟩ := List.mem_map.mp hd
      exact not_mem_looked (not_mem_of_mem_tokens (s := s) (htokens ▸ List.mem_append_left _ hbm)) (hb b hbm)
    rw [hrebuilt]
    constructor
    · rintro ⟨hfits, htext⟩
      refine ⟨before, tok, v, htokens, hb, hv, hsep, hfits, or_iff_not_imp_right.mpr fun hsepd => ?_⟩
      rw [not_not] at hsepd
      by_contra hlen
      have hlen : 2 ≤ (before.map (looked extract)).length := by
        rw [List.length_map]
        omega
      exact tokens_expandedValue_ne hlen v (htext hsepd)
    · rintro ⟨before', tok', v', htokens', -, hv', -, hfits, hor⟩
      obtain ⟨rfl, htok⟩ := List.append_inj' (htokens.symm.trans htokens') rfl
      obtain rfl := (List.cons.inj htok).1
      cases hv.symm.trans hv'
      refine ⟨hfits, fun hsepd => ?_⟩
      have hle := hor.resolve_right fun hn => hn hsepd
      exact tokens_expandedValue_of_length_le (by rwa [List.length_map]) hsimple hsepd

/-- The responses know `c`, which stands for two values. -/
def knowsC (tok : List Char) : Option (List Char) := if tok = "c".toList then some "x|y".toList else none

theorem faithful_secondToken : Faithful knowsC "a|c".toList := by
  refine (faithful_iff_listComesLast ⟨by decide, fun _ => by decide⟩).mpr
    (.inr ⟨["a".toList], "c".toList, "x|y".toList, by decide, ?_, by decide, by decide, by decide, .inl (by decide)⟩)
  rintro b hb ⟨v, hv, -⟩
  cases List.mem_singleton.mp hb
  cases hv

/-- The second of three tokens is overwritten: the values are `aax` and `y`. -/
theorem not_faithful_thirdToken : ¬ ∀ extract s, Faithful extract s := by
  intro h
  have hvalues : checkInputResponse knowsC id 2 "aa|b|c".toList = some (.values ["aax".toList, "y".toList]) := by decide
  exact absurd ((h knowsC "aa|b|c".toList 2).2 _ hvalues) (by decide)

end References

end OphidiaWorkflow.Values
