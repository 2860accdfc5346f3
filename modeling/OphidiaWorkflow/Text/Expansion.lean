import Mathlib.Algebra.Order.BigOperators.Group.List
import Mathlib.Data.Multiset.DershowitzManna
import Mathlib.Logic.Relation
import Mathlib.SetTheory.Ordinal.Rank
import OphidiaWorkflow.Text.Substitute

/-! When the loop of `oph_workflow_var_substitute` comes to an end. -/
namespace OphidiaWorkflow

open Lib

/-- A character that starts a reference. -/
def isSign (c : Char) : Bool := c = '@' || c = '&'

/-- The names that a reference in front of `s` may come to have, whatever follows `s`. What stands before the next
reference stays there. -/
def MayRead (s name : List Char) : Prop := ∃ t, (scanName (s.takeWhile (fun c => !isSign c) ++ t)).2.1 = name

/-- The names that a reference in front of `s` may come to have at the end of a text. -/
def Reads (s name : List Char) : Prop := if s.any isSign then MayRead s name else (scanName s).2.1 = name

/-- What stands after a reference that is replaced. -/
def Reference.after (r : Reference) : List Char := if r.bracket then r.rest.drop 1 else r.rest

section Lookup

variable (sc : Scope) (skipArg : Option (List Char))

/-- The values that a name may be replaced by. -/
def Valued (name value : List Char) : Prop :=
  ∃ r index index', r.name = name ∧
    (lookupName sc skipArg r index = .ok (.argument (some value), index') ∨
      ∃ v, lookupName sc skipArg r index = .ok (.var v, index') ∧ value = v.svalue.toList)

/-- A text may lead to a reference to a name that has a value. -/
def Mentions (reads : List Char → List Char → Prop) (text name : List Char) : Prop :=
  (∃ s, ('@' :: s) <:+ text ∧ reads s name) ∧ ∃ value, Valued sc skipArg name value

/-- A value of `n` mentions `m`. -/
def Refers (m n : List Char) : Prop := ∃ value, Valued sc skipArg n value ∧ Mentions sc skipArg MayRead value m

/-- A round of the `while` loop that does not leave it. -/
def Round (st st' : SubstState) : Prop :=
  ∃ r, findReference st.skipUntil st.text = some r ∧ substRound sc skipArg st r = .ok st'

/-- What a round needs to get on: `skip_until` is within the text, the lookup reads no null pointer and leaves no
buffer, the name is not empty (or else `index` has been set before), and a reference without a meaning has not been
skipped before. -/
structure SubstState.Proper (st : SubstState) : Prop where
  within : st.skipUntil ≤ st.text.length
  lookup : ∀ r ∈ findReference st.skipUntil st.text, lookupName sc skipArg r st.index ≠ .error .undefined
  named : ∀ r ∈ findReference st.skipUntil st.text,
    ∀ index, lookupName sc skipArg r st.index = .ok (.argument none, index) → r.sign = '&' ∧ index ≠ none
  fresh : ∀ r ∈ findReference st.skipUntil st.text,
    ∀ index, lookupName sc skipArg r st.index = .ok (.unknown, index) → r.sign = '@' → st.skipUntil ≤ r.before.length

/-- The value that the round puts in the place of the reference, if any. -/
def putIn (st : SubstState) (r : Reference) : Option (List Char) :=
  match lookupName sc skipArg r st.index with
  | .ok (.var v, _) => some (if r.sign = '&' then decimal v.ivalue else v.svalue.toList)
  | .ok (.argument value, index) => if r.sign = '&' then index.map decimal else value
  | _ => none

/-- The depths of the characters after a round: those of a value are one deeper than the reference it replaces. -/
def depthsAfter (st : SubstState) (r : Reference) (ds : List Nat) : List Nat :=
  match putIn sc skipArg st r with
  | none => ds
  | some value =>
    ds.take r.before.length ++ List.replicate value.length (ds.getD r.before.length 0 + 1) ++
      ds.drop (ds.length - r.after.length)

/-- A round, and what becomes of the depths of the characters. -/
def Deepens (x y : SubstState × List Nat) : Prop :=
  ∃ r, findReference x.1.skipUntil x.1.text = some r ∧ substRound sc skipArg x.1 r = .ok y.1 ∧
    y.2 = depthsAfter sc skipArg x.1 r x.2

/-- No character gets deeper than `n` in the rounds to come. -/
def Within (n : Nat) (x : SubstState × List Nat) : Prop :=
  ∀ y, Relation.ReflTransGen (Deepens sc skipArg) x y → ∀ d ∈ y.2, d ≤ n

/-- The values that are put into the text are nested at most `n` deep. -/
def NestedAtMost (n : Nat) (s : List Char) : Prop := Within sc skipArg n ({ text := s }, List.replicate s.length 0)

/-- The substitution comes to a defined end. -/
def Terminates (st : SubstState) : Prop :=
  ∃ fuel result, varSubstitute sc skipArg fuel st = some result ∧ result ≠ .error .undefined

end Lookup

section Names

variable {s t u name : List Char} {c : Char}

theorem not_isSign_of_nameChar {bracket first : Bool} (h : nameChar bracket first c = true) : isSign c = false := by
  have hsep : c ∉ separators := by
    simp only [nameChar, Bool.and_eq_true, decide_eq_true_eq] at h
    exact h.1
  rw [Bool.eq_false_iff]
  intro hsign
  apply hsep
  rcases Bool.or_eq_true_iff.mp hsign with hc | hc
  · rw [of_decide_eq_true hc]
    decide
  · rw [of_decide_eq_true hc]
    decide

/-- What stands between the prefix of a reference and what follows its name. -/
def Reference.opening (r : Reference) : List Char := (if r.bracket then ['{'] else []) ++ r.name

theorem scanName_spec (s : List Char) :
    s = ((if (scanName s).1 then ['{'] else []) ++ (scanName s).2.1) ++ (scanName s).2.2 ∧
      ∀ c ∈ (scanName s).2.1, isSign c = false := by
  unfold scanName
  split
  · next s =>
    refine ⟨?_, ?_⟩
    · simp
    · intro c hc
      exact not_isSign_of_nameChar (List.mem_takeWhile_imp hc)
  · next c s _ =>
    split
    · next hc =>
      refine ⟨?_, ?_⟩
      · simp
      · intro d hd
        rcases List.mem_cons.mp hd with rfl | hd
        · exact not_isSign_of_nameChar hc
        · exact not_isSign_of_nameChar (List.mem_takeWhile_imp hd)
    · exact ⟨rfl, nofun⟩
  · exact ⟨rfl, nofun⟩

theorem mayRead_scanName (s : List Char) : MayRead s (scanName s).2.1 :=
  ⟨s.dropWhile (fun c => !isSign c), by rw [List.takeWhile_append_dropWhile]⟩

theorem takeWhile_append_sign (hc : isSign c = true) (s t : List Char) :
    (s ++ c :: t).takeWhile (fun c => !isSign c) = s.takeWhile (fun c => !isSign c) := by
  induction s with
  | nil =>
    rw [List.nil_append, List.takeWhile_cons_of_neg (by simpa using hc)]
    rfl
  | cons d s ih =>
    rw [List.cons_append, List.takeWhile_cons, List.takeWhile_cons, ih]

theorem MayRead.of_append (h : MayRead (s ++ t) name) : MayRead s name := by
  obtain ⟨u, hu⟩ := h
  by_cases hs : ∀ c ∈ s, (!isSign c) = true
  · refine ⟨t.takeWhile (fun c => !isSign c) ++ u, ?_⟩
    rw [List.takeWhile_append_of_pos hs] at hu
    rw [List.takeWhile_eq_self_iff.mpr hs, ← List.append_assoc]
    exact hu
  · refine ⟨u, ?_⟩
    simp only [not_forall] at hs
    obtain ⟨c, hmem, hc⟩ := hs
    obtain ⟨a, b, rfl⟩ := List.append_of_mem hmem
    have hc : isSign c = true := by simpa using hc
    rw [List.append_assoc, List.cons_append, takeWhile_append_sign hc] at hu
    rw [takeWhile_append_sign hc]
    exact hu

theorem MayRead.reads (hc : isSign c = true) (t : List Char) (h : MayRead s name) : Reads (s ++ c :: t) name := by
  have hany : (s ++ c :: t).any isSign = true := by simp [hc]
  rw [Reads, if_pos hany, MayRead, takeWhile_append_sign hc]
  exact h

theorem Reads.mayRead (h : Reads s name) : MayRead s name := by
  unfold Reads at h
  split at h
  · exact h
  · rw [← h]
    exact mayRead_scanName s

theorem reads_scanName (s : List Char) : Reads s (scanName s).2.1 := by
  unfold Reads
  split
  · exact mayRead_scanName s
  · rfl

end Names

/-- Where a reference stands in the text. -/
structure Reference.Stands (r : Reference) (text : List Char) : Prop where
  text : text = r.before ++ r.sign :: (r.opening ++ r.rest)
  sign : isSign r.sign = true
  scan : scanName (r.opening ++ r.rest) = (r.bracket, r.name, r.rest)

section Stands

variable {r : Reference} {s : List Char} {n : Nat}

theorem Reference.stands_scan (before : List Char) {sign : Char} (hs : isSign sign = true) (s : List Char) :
    Reference.Stands ⟨before, sign, (scanName s).1, (scanName s).2.1, (scanName s).2.2⟩ (before ++ sign :: s) := by
  have hspec := (scanName_spec s).1
  constructor
  · exact congrArg (fun t => before ++ sign :: t) hspec
  · exact hs
  · exact congrArg scanName hspec.symm

theorem stands_embedded (fuel : Nat) (before : List Char) {sign : Char} (hs : isSign sign = true) (s : List Char) :
    (embedded fuel before sign s).Stands (before ++ sign :: s) := by
  induction fuel generalizing before sign s with
  | zero => exact Reference.stands_scan before hs s
  | succ fuel ih =>
    have hstands := Reference.stands_scan before hs s
    unfold embedded
    split
    · next bracket name c rest hscan =>
      rw [hscan] at hstands
      split
      · next hc =>
        have hsign : isSign c = true := by
          rcases hc with rfl | rfl <;> rfl
        have hstands' := ih (before ++ sign :: ((if bracket then ['{'] else []) ++ name)) hsign rest
        rw [hstands.text]
        simpa [Reference.opening] using hstands'
      · exact hstands
    · next bracket name hscan =>
      rw [hscan] at hstands
      exact hstands

theorem stands_of_findReference (h : findReference n s = some r) : r.Stands s := by
  unfold findReference at h
  split at h
  · next before rest hcut =>
    cases h
    obtain ⟨hdrop, -⟩ := eq_of_cutAt hcut
    have htext : s = s.take n ++ before ++ '@' :: rest := by
      rw [List.append_assoc, ← hdrop, List.take_append_drop]
    have hstands := stands_embedded s.length (s.take n ++ before) (by rfl : isSign '@' = true) rest
    rwa [← htext] at hstands
  · obtain ⟨⟨before, rest⟩, hcut, rfl⟩ := Option.map_eq_some_iff.mp h
    obtain ⟨htext, -⟩ := eq_of_cutAt hcut
    have hstands := stands_embedded s.length before (by rfl : isSign '&' = true) rest
    rwa [← htext] at hstands

theorem Reference.Stands.count_lt (h : r.Stands s) (hs : r.sign = '@') (hle : n ≤ r.before.length) :
    (s.drop (max n (r.before.length + 1))).count '@' < (s.drop n).count '@' := by
  have hafter : s.drop (max n (r.before.length + 1)) = r.opening ++ r.rest := by
    rw [Nat.max_eq_right (by omega), h.text, List.drop_append]
    simp
  have hfrom : s.drop n = r.before.drop n ++ '@' :: (r.opening ++ r.rest) := by
    rw [h.text, hs, List.drop_append_of_le_length hle]
  rw [hafter, hfrom, List.count_append, List.count_append, List.count_cons_self, List.count_append]
  omega

theorem Reference.Stands.exists_after (h : r.Stands s) (hb : r.bracket = true → r.rest.head? = some '}') :
    ∃ out, r.opening ++ r.rest = out ++ r.after ∧ ∀ c ∈ out, isSign c = false := by
  have hname : ∀ c ∈ r.name, isSign c = false := by
    have hspec := (scanName_spec (r.opening ++ r.rest)).2
    rwa [h.scan] at hspec
  cases hr : r.bracket with
  | false =>
    refine ⟨r.name, ?_, hname⟩
    simp [Reference.opening, Reference.after, hr]
  | true =>
    obtain ⟨rest, hrest⟩ : ∃ rest, r.rest = '}' :: rest := by
      cases hrest : r.rest with
      | nil =>
        have hhead := hb hr
        rw [hrest] at hhead
        cases hhead
      | cons c rest =>
        have hhead := hb hr
        rw [hrest] at hhead
        cases hhead
        exact ⟨rest, rfl⟩
    refine ⟨'{' :: (r.name ++ ['}']), ?_, ?_⟩
    · simp [Reference.opening, Reference.after, hr, hrest]
    · intro c hc
      simp only [List.mem_cons, List.mem_append, List.not_mem_nil, or_false] at hc
      rcases hc with rfl | hc | rfl
      · rfl
      · exact hname c hc
      · rfl

end Stands

section Labels

variable {sc : Scope} {skipArg : Option (List Char)} {α : Type*}

/-- A text in which each character has a label. -/
abbrev Labelled (α : Type*) := List (Char × α)

namespace Labelled

def text (l : Labelled α) : List Char := l.map Prod.fst

/-- The labels of the references. -/
def weight (l : Labelled α) : Multiset α := (l.filter fun p => isSign p.1).map Prod.snd

/-- The name, if it has a value, has a rank less than `k`. -/
def Below (sc : Scope) (skipArg : Option (List Char)) (k : WithTop Ordinal.{0}) (m : List Char) : Prop :=
  (∃ value, Valued sc skipArg m value) → ∃ h : Acc (Refers sc skipArg) m, (h.rank : WithTop Ordinal) < k

/-- The ranks of the names that a reference may come to have are less than its label. -/
def Ranked (sc : Scope) (skipArg : Option (List Char)) (reads : List Char → List Char → Prop)
    (l : Labelled (WithTop Ordinal.{0})) : Prop :=
  ∀ k b, (('@', k) :: b) <:+ l → ∀ m, reads (text b) m → Below sc skipArg k m

theorem text_append (l l' : Labelled α) : text (l ++ l') = text l ++ text l' := List.map_append

theorem weight_append (l l' : Labelled α) : weight (l ++ l') = weight l + weight l' := by
  rw [weight, weight, weight, List.filter_append, List.map_append, Multiset.coe_add]

theorem ranked_const {reads : List Char → List Char → Prop} {s : List Char} {k : WithTop Ordinal.{0}}
    (h : ∀ t, ('@' :: t) <:+ s → ∀ m, reads t m → Below sc skipArg k m) :
    Ranked sc skipArg reads (s.map fun c => (c, k)) := by
  intro k' b hb
  obtain ⟨a, ha⟩ := hb
  have hsuffix : ('@' :: text b) <:+ s := by
    refine ⟨text a, ?_⟩
    have htext := congrArg text ha
    rw [text_append] at htext
    simpa [text, List.map_map, Function.comp_def] using htext
  have hmem : ('@', k') ∈ s.map fun c => (c, k) := by
    rw [← ha]
    exact List.mem_append_right _ List.mem_cons_self
  obtain ⟨c, -, hc⟩ := List.mem_map.mp hmem
  cases hc
  exact h _ hsuffix

theorem text_const (s : List Char) (k : α) : text (s.map fun c => (c, k)) = s := by
  simp [text, List.map_map, Function.comp_def]

theorem mem_weight_const {s : List Char} {k k' : α} (h : k' ∈ weight (s.map fun c => (c, k))) :
    k' = k ∧ ∃ c ∈ s, isSign c = true := by
  obtain ⟨p, hp, rfl⟩ := List.mem_map.mp (Multiset.mem_coe.mp h)
  obtain ⟨hmem, hsign⟩ := List.mem_filter.mp hp
  obtain ⟨c, hc, rfl⟩ := List.mem_map.mp hmem
  exact ⟨rfl, c, hc, hsign⟩

theorem ranked_start {s : List Char} (h : ∀ m, Mentions sc skipArg Reads s m → Acc (Refers sc skipArg) m) :
    Ranked sc skipArg Reads (s.map fun c => (c, ⊤)) := by
  apply ranked_const
  intro t ht m hm hv
  exact ⟨h m ⟨⟨t, ht, hm⟩, hv⟩, WithTop.coe_lt_top _⟩

theorem cons_suffix_append {α : Type*} {x : α} {l a b : List α} (h : (x :: l) <:+ a ++ b) :
    (x :: l) <:+ b ∨ ∃ t, (x :: t) <:+ a ∧ l = t ++ b := by
  obtain ⟨p, hp⟩ := h
  rcases List.append_eq_append_iff.mp hp with ⟨t, ha, hl⟩ | ⟨t, -, hb⟩
  · cases t with
    | nil =>
      rw [List.nil_append] at hl
      exact .inl (hl ▸ List.suffix_rfl)
    | cons y t =>
      obtain ⟨rfl, rfl⟩ := List.cons.inj hl
      exact .inr ⟨t, ⟨p, ha.symm⟩, rfl⟩
  · exact .inl ⟨t, hb.symm⟩

/-- A reference is replaced by a text that is ranked on its own. -/
theorem Ranked.replace {a v out rest : Labelled (WithTop Ordinal.{0})} {p : Char × WithTop Ordinal.{0}} (hp : isSign p.1 = true)
    (h : Ranked sc skipArg Reads (a ++ p :: (out ++ rest))) (hv : Ranked sc skipArg MayRead v) :
    Ranked sc skipArg Reads (a ++ (v ++ rest)) := by
  intro k b hb m hm
  rcases cons_suffix_append hb with hb | ⟨t, ht, rfl⟩
  · rcases cons_suffix_append hb with hb | ⟨t, ht, rfl⟩
    · exact h k b (hb.trans ⟨a ++ p :: out, by simp⟩) m hm
    · rw [text_append] at hm
      exact hv k t ht m hm.mayRead.of_append
  · -- the reference that is replaced was the next one after this part of the text
    have hsuffix : (('@', k) :: (t ++ p :: (out ++ rest))) <:+ a ++ p :: (out ++ rest) := by
      obtain ⟨a', rfl⟩ := ht
      exact ⟨a', by simp⟩
    refine h k _ hsuffix m ?_
    rw [text_append] at hm ⊢
    exact hm.mayRead.of_append.reads hp _

theorem weight_replace [Preorder α] {a v out rest : Labelled α} {p : Char × α} (hp : isSign p.1 = true)
    (hout : ∀ c ∈ text out, isSign c = false) (hv : ∀ k ∈ weight v, k < p.2) :
    Multiset.IsDershowitzMannaLT (weight (a ++ (v ++ rest))) (weight (a ++ p :: (out ++ rest))) := by
  have hzero : weight out = 0 := by
    have hnil : out.filter (fun p => isSign p.1) = [] := by
      rw [List.filter_eq_nil_iff]
      intro q hq
      rw [hout q.1 (List.mem_map_of_mem hq)]
      exact Bool.false_ne_true
    rw [weight, hnil]
    rfl
  have hcons : weight (p :: (out ++ rest)) = {p.2} + weight rest := by
    have hone : weight [p] = {p.2} := by
      rw [weight, List.filter_cons_of_pos (by exact hp)]
      rfl
    rw [← List.singleton_append, weight_append, weight_append, hone, hzero, zero_add]
  refine ⟨weight a + weight rest, weight v, {p.2}, Multiset.singleton_ne_zero _, ?_, ?_, ?_⟩
  · rw [weight_append, weight_append, add_comm (weight v), add_assoc]
  · rw [weight_append, hcons, add_comm {p.2}, add_assoc]
  · intro k hk
    exact ⟨p.2, Multiset.mem_singleton_self _, hv k hk⟩

theorem ranked_value {m value : List Char} (h : Acc (Refers sc skipArg) m) (hv : Valued sc skipArg m value) :
    Ranked sc skipArg MayRead (value.map fun c => (c, (h.rank : WithTop Ordinal.{0}))) := by
  apply ranked_const
  intro t ht m' hm hv'
  have hrefers : Refers sc skipArg m' m := ⟨value, hv, ⟨t, ht, hm⟩, hv'⟩
  exact ⟨h.inv hrefers, WithTop.coe_lt_coe.mpr (h.rank_lt_of_rel hrefers)⟩

theorem ranked_decimal (n : Int) : Ranked sc skipArg MayRead ((decimal n).map fun c => (c, ⊤)) := by
  apply ranked_const
  intro t ht
  exact absurd (ht.subset List.mem_cons_self) (not_mem_decimal n (by decide) (by decide))

end Labelled
end Labels

section Rounds

variable {sc : Scope} {skipArg : Option (List Char)} {st st' : SubstState} {r : Reference} {d : Denoted} {index : Option Int}
  {α : Type*}

theorem bracket_closed (h : lookupName sc skipArg r st.index = .ok (d, index)) (hd : d ≠ .unknown) :
    r.bracket = true → r.rest.head? = some '}' := by
  intro hb
  by_contra hhead
  unfold lookupName at h
  rw [if_pos (by simp [hb, hhead])] at h
  cases h
  exact hd rfl

theorem Round.cases (h : Round sc skipArg st st') :
    ∃ r index, findReference st.skipUntil st.text = some r ∧
      ((lookupName sc skipArg r st.index = .ok (.unknown, index) ∧ r.sign = '@' ∧ putIn sc skipArg st r = none ∧
          st' = { st with skipUntil := max st.skipUntil (r.before.length + 1), index }) ∨
        ((r.bracket = true → r.rest.head? = some '}') ∧ ∃ value, putIn sc skipArg st r = some value ∧
          ((∃ n, value = decimal n) ∨ r.sign = '@' ∧ Valued sc skipArg r.name value) ∧
            st' = { st with text := r.replace value, index })) := by
  obtain ⟨r, hr, hround⟩ := h
  unfold substRound at hround
  split at hround
  · cases hround
  · next d index hlookup =>
    refine ⟨r, index, hr, ?_⟩
    unfold putIn
    rw [hlookup]
    cases d with
    | unknown =>
      dsimp only at hround
      split at hround
      · next hs =>
        cases hround
        exact .inl ⟨rfl, hs, rfl, rfl⟩
      · cases hround
    | var v =>
      dsimp only at hround
      cases hround
      refine .inr ⟨bracket_closed hlookup nofun, _, rfl, ?_, rfl⟩
      split
      · exact .inl ⟨v.ivalue, rfl⟩
      · next hs =>
        have hvalued : Valued sc skipArg r.name v.svalue.toList := ⟨r, st.index, index, rfl, .inr ⟨v, hlookup, rfl⟩⟩
        have hsign := (stands_of_findReference hr).sign
        have hat : r.sign = '@' := by simpa [isSign, hs] using hsign
        exact .inr ⟨hat, hvalued⟩
    | argument value =>
      dsimp only at hround ⊢
      refine .inr ⟨bracket_closed hlookup nofun, ?_⟩
      split at hround
      · next hs =>
        cases index with
        | none => cases hround
        | some j =>
          dsimp only at hround
          split at hround
          · cases hround
          · cases hround
            rw [if_pos hs]
            exact ⟨_, rfl, .inl ⟨j, rfl⟩, rfl⟩
      · next hs =>
        cases value with
        | none => cases hround
        | some value =>
          cases hround
          have hvalued : Valued sc skipArg r.name value := ⟨r, st.index, index, rfl, .inl hlookup⟩
          have hsign := (stands_of_findReference hr).sign
          have hat : r.sign = '@' := by simpa [isSign, hs] using hsign
          rw [if_neg hs]
          exact ⟨_, rfl, .inr ⟨hat, hvalued⟩, rfl⟩

open Labelled

/-- The references of a state and, if these stay the same, those that have not been skipped. -/
def roundMeasure (st : SubstState) (l : Labelled α) : Multiset α × Nat :=
  (l.weight, (st.text.drop st.skipUntil).count '@')

/-- A labelled text is cut at a reference: what stands before it, its prefix, the rest of it, and what follows. -/
theorem Reference.Stands.cut {s : List Char} (h : r.Stands s) (hb : r.bracket = true → r.rest.head? = some '}')
    {l : Labelled α} (hl : l.text = s) :
    ∃ (a : Labelled α) (p : Char × α) (out rest : Labelled α), l = a ++ p :: (out ++ rest) ∧ a.text = r.before ∧
      p.1 = r.sign ∧ (∀ c ∈ out.text, isSign c = false) ∧ out.text ++ rest.text = r.opening ++ r.rest ∧
      rest.text = r.after := by
  obtain ⟨o, hout, hquiet⟩ := h.exists_after hb
  obtain ⟨a, l₁, rfl, ha, hl₁⟩ := List.map_eq_append_iff.mp (hl.trans h.text)
  obtain ⟨p, l₂, rfl, hsign, hl₂⟩ := List.map_eq_cons_iff.mp hl₁
  rw [hout] at hl₂
  obtain ⟨out, rest, rfl, ho, hrest⟩ := List.map_eq_append_iff.mp hl₂
  have ho : Labelled.text out = o := ho
  have hrest : Labelled.text rest = r.after := hrest
  exact ⟨a, p, out, rest, rfl, ha, hsign, ho ▸ hquiet, by rw [ho, hrest, hout], hrest⟩

/-- Each round that gets on brings the measure down. -/
theorem Round.lt (h : Round sc skipArg st st') (hp : st.Proper sc skipArg) {l : Labelled (WithTop Ordinal.{0})}
    (ht : l.text = st.text) (hl : l.Ranked sc skipArg Reads) :
    ∃ l' : Labelled (WithTop Ordinal.{0}), l'.text = st'.text ∧ l'.Ranked sc skipArg Reads ∧
      Prod.Lex Multiset.IsDershowitzMannaLT (· < ·) (roundMeasure st' l') (roundMeasure st l) := by
  obtain ⟨r, index, hr, ⟨hlookup, hs, -, rfl⟩ | ⟨hb, value, -, hvalue, rfl⟩⟩ := h.cases
  · have hle := hp.fresh r hr index hlookup hs
    exact ⟨l, ht, hl, .right _ ((stands_of_findReference hr).count_lt hs hle)⟩
  · have hstands := stands_of_findReference hr
    obtain ⟨a, p, out, rest, rfl, ha, hsign, hquiet, hread, hrest⟩ := hstands.cut hb ht
    have hps : isSign p.1 = true := hsign ▸ hstands.sign
    have hnew (k : WithTop Ordinal.{0}) (hv : Ranked sc skipArg MayRead (value.map fun c => (c, k)))
        (hlt : ∀ k' ∈ weight (value.map fun c => (c, k)), k' < p.2) :
        ∃ l' : Labelled (WithTop Ordinal.{0}), l'.text = r.replace value ∧ l'.Ranked sc skipArg Reads ∧
          Prod.Lex Multiset.IsDershowitzMannaLT (· < ·) (roundMeasure { st with text := r.replace value, index } l')
            (roundMeasure st (a ++ p :: (out ++ rest))) := by
      refine ⟨a ++ (value.map (fun c => (c, k)) ++ rest), ?_, hl.replace hps hv, .left _ _ (weight_replace hps hquiet hlt)⟩
      rw [text_append, text_append, text_const, ha, hrest, ← List.append_assoc]
      rfl
    rcases hvalue with ⟨n, rfl⟩ | ⟨hat, hvalue⟩
    · refine hnew ⊤ (ranked_decimal n) fun k hk => ?_
      obtain ⟨-, c, hc, hc'⟩ := mem_weight_const hk
      rcases Bool.or_eq_true_iff.mp hc' with hc' | hc'
      · exact absurd (of_decide_eq_true hc' ▸ hc) (not_mem_decimal n (by decide) (by decide))
      · exact absurd (of_decide_eq_true hc' ▸ hc) (not_mem_decimal n (by decide) (by decide))
    · have hread' : Reads (text (out ++ rest)) r.name := by
        rw [text_append, hread]
        have hscan := reads_scanName (r.opening ++ r.rest)
        rwa [hstands.scan] at hscan
      have hp1 : p = ('@', p.2) := Prod.ext (hsign.trans hat) rfl
      obtain ⟨hacc, hrank⟩ := hl p.2 (out ++ rest) ⟨a, by rw [← hp1]⟩ r.name hread' ⟨value, hvalue⟩
      refine hnew _ (ranked_value hacc hvalue) fun k hk => ?_
      rw [(mem_weight_const hk).1]
      exact hrank

theorem index_of_argument {value : List Char}
    (h : lookupName sc skipArg r st.index = .ok (.argument (some value), index)) :
    index ≠ none := by
  unfold lookupName at h
  split at h
  · cases h
  · split at h
    · cases h
    · split at h
      · cases h
      · split at h
        · cases h
        · split at h <;> cases h
          exact Option.some_ne_none _

theorem lookupName_unknown (h : lookupName sc skipArg r st.index = .ok (.unknown, index)) (i : Option Int) :
    ∃ index', lookupName sc skipArg r i = .ok (.unknown, index') := by
  unfold lookupName at h ⊢
  split at h
  · next hb => exact ⟨i, if_pos hb⟩
  · next hb =>
    rw [if_neg hb]
    split at h
    · cases h
    · next hn =>
      rw [if_neg hn]
      split at h
      · cases h
      · split at h
        · cases h
        · split at h <;> cases h
          exact ⟨_, rfl⟩

/-- When a round reads what it should not. -/
theorem substRound_undefined_iff :
    substRound sc skipArg st r = .error .undefined ↔
      lookupName sc skipArg r st.index = .error .undefined ∨
        ∃ index, lookupName sc skipArg r st.index = .ok (.argument none, index) ∧ ¬ (r.sign = '&' ∧ index ≠ none) := by
  unfold substRound
  cases hlookup : lookupName sc skipArg r st.index with
  | error e => simp
  | ok p =>
    obtain ⟨d, index⟩ := p
    cases d with
    | unknown =>
      dsimp only
      split <;> simp
    | var v => simp
    | argument value =>
      by_cases hs : r.sign = '&'
      · cases value with
        | none =>
          cases index with
          | none => simp [hs]
          | some j =>
            dsimp only
            rw [if_pos hs]
            split <;> simp [hs]
        | some value =>
          cases index with
          | none => exact absurd rfl (index_of_argument hlookup)
          | some j =>
            dsimp only
            rw [if_pos hs]
            split <;> simp
      · cases value <;> simp [hs]

theorem varSubstitute_of_round (h : Round sc skipArg st st') (hw : st.skipUntil ≤ st.text.length) (fuel : Nat) :
    varSubstitute sc skipArg (fuel + 1) st = varSubstitute sc skipArg fuel st' := by
  obtain ⟨r, hr, hround⟩ := h
  rw [varSubstitute, if_neg (Nat.not_lt.mpr hw), hr]
  dsimp only
  rw [hround]

theorem terminates_of_no_round (hp : st.Proper sc skipArg) (h : ¬ ∃ st', Round sc skipArg st st') :
    Terminates sc skipArg st := by
  have hw := Nat.not_lt.mpr hp.within
  cases hr : findReference st.skipUntil st.text with
  | none =>
    refine ⟨0, .ok st.text, ?_, fun h => by cases h⟩
    rw [varSubstitute, if_neg hw, hr]
  | some r =>
    have hround : substRound sc skipArg st r = .error .badVariable := by
      cases hround : substRound sc skipArg st r with
      | ok st' => exact absurd ⟨st', r, hr, hround⟩ h
      | error e =>
        cases e with
        | badVariable => rfl
        | undefined =>
          rcases substRound_undefined_iff.mp hround with hlookup | ⟨index, hlookup, hnot⟩
          · exact absurd hlookup (hp.lookup r hr)
          · exact absurd (hp.named r hr index hlookup) hnot
    refine ⟨1, .error .badVariable, ?_, fun h => by cases h⟩
    rw [varSubstitute, if_neg hw, hr]
    dsimp only
    rw [hround]

/-- A state that is not proper does not lead to a defined end. -/
theorem Terminates.proper (h : Terminates sc skipArg st) : st.Proper sc skipArg := by
  obtain ⟨fuel, result, hresult, hdefined⟩ := h
  have hwithin : st.skipUntil ≤ st.text.length := by
    by_contra hw
    rw [varSubstitute, if_pos (Nat.not_le.mp hw)] at hresult
    cases hresult
    exact hdefined rfl
  have hw := Nat.not_lt.mpr hwithin
  have hround : ∀ r ∈ findReference st.skipUntil st.text, substRound sc skipArg st r ≠ .error .undefined := by
    intro r hr hround
    rw [varSubstitute, if_neg hw, hr] at hresult
    cases fuel with
    | zero => cases hresult
    | succ fuel =>
      dsimp only at hresult
      rw [hround] at hresult
      cases hresult
      exact hdefined rfl
  refine ⟨hwithin, fun r hr hlookup => hround r hr (substRound_undefined_iff.mpr (.inl hlookup)), ?_, ?_⟩
  · intro r hr index hlookup
    by_contra hnot
    exact hround r hr (substRound_undefined_iff.mpr (.inr ⟨index, hlookup, hnot⟩))
  · intro r hr index hlookup hs
    by_contra hlt
    -- nothing changes but the index, which the search does not look at
    have hstuck (fuel : Nat) (i : Option Int) : varSubstitute sc skipArg fuel { st with index := i } = none := by
      induction fuel generalizing i with
      | zero =>
        rw [varSubstitute, if_neg hw]
        dsimp only
        rw [hr]
      | succ fuel ih =>
        obtain ⟨index', hlookup'⟩ := lookupName_unknown hlookup i
        have hsame : substRound sc skipArg { st with index := i } r = .ok { st with index := index' } := by
          unfold substRound
          dsimp only
          rw [hlookup']
          dsimp only
          rw [if_pos hs, Nat.max_eq_left (by omega)]
        rw [varSubstitute, if_neg hw]
        dsimp only
        rw [hr]
        dsimp only
        rw [hsame]
        exact ih index'
    rw [hstuck fuel st.index] at hresult
    cases hresult

theorem Terminates.round (h : Terminates sc skipArg st) (hr : Round sc skipArg st st') : Terminates sc skipArg st' := by
  have hwithin := h.proper.within
  obtain ⟨fuel, result, hresult, hdefined⟩ := h
  cases fuel with
  | zero =>
    obtain ⟨r, hr, -⟩ := hr
    rw [varSubstitute, if_neg (Nat.not_lt.mpr hwithin), hr] at hresult
    cases hresult
  | succ fuel =>
    rw [varSubstitute_of_round hr hwithin] at hresult
    exact ⟨fuel, result, hresult, hdefined⟩

/-- If a measure of the states that may be reached comes down in each round, the substitution comes to an end. -/
theorem terminates_of_measure {β : Type*} {lt : β → β → Prop} (hwf : WellFounded lt) {P : SubstState → β → Prop}
    (hproper : ∀ st b, P st b → st.Proper sc skipArg)
    (hround : ∀ st b st', P st b → Round sc skipArg st st' → ∃ b', P st' b' ∧ lt b' b) {b : β} (h : P st b) :
    Terminates sc skipArg st := by
  induction b using hwf.induction generalizing st with
  | _ b ih =>
    by_cases hnext : ∃ st', Round sc skipArg st st'
    · obtain ⟨st', hr⟩ := hnext
      obtain ⟨b', hb', hlt⟩ := hround st b st' h hr
      obtain ⟨fuel, result, hresult, hdefined⟩ := ih b' hlt hb'
      refine ⟨fuel + 1, result, ?_, hdefined⟩
      rw [varSubstitute_of_round hr (hproper st b h).within, hresult]
    · exact terminates_of_no_round (hproper st b h) hnext

theorem wellFounded_roundMeasure [Preorder α] [WellFoundedLT α] :
    WellFounded (Prod.Lex (Multiset.IsDershowitzMannaLT (α := α)) (· < · : Nat → Nat → Prop)) :=
  Multiset.wellFounded_isDershowitzMannaLT.prod_lex Nat.lt_wfRel.wf

/-- Where no value refers back to itself, the substitution ends if each of its rounds can get on. -/
theorem terminates_of_acc {s : List Char} (h : ∀ m, Mentions sc skipArg Reads s m → Acc (Refers sc skipArg) m)
    (hproper : ∀ st, Relation.ReflTransGen (Round sc skipArg) { text := s } st → st.Proper sc skipArg) :
    Terminates sc skipArg { text := s } := by
  refine terminates_of_measure (wellFounded_roundMeasure (α := WithTop Ordinal.{0}))
    (P := fun st b => (∀ st', Relation.ReflTransGen (Round sc skipArg) st st' → st'.Proper sc skipArg) ∧
      ∃ l : Labelled (WithTop Ordinal.{0}), text l = st.text ∧ l.Ranked sc skipArg Reads ∧ b = roundMeasure st l)
    ?_ ?_ ⟨hproper, _, text_const s ⊤, ranked_start h, rfl⟩
  · exact fun st b hp => hp.1 st .refl
  · rintro st b st' ⟨hp, l, ht, hl, rfl⟩ hr
    obtain ⟨l', ht', hl', hlt⟩ := hr.lt (hp st .refl) ht hl
    exact ⟨_, ⟨fun st'' hst => hp st'' (.head hr hst), l', ht', hl', rfl⟩, hlt⟩

section Depth

variable {x y : SubstState × List Nat} {n : Nat} {ds ds' : List Nat}

theorem Deepens.round (h : Deepens sc skipArg x y) : Round sc skipArg x.1 y.1 := by
  obtain ⟨r, hr, hround, -⟩ := h
  exact ⟨r, hr, hround⟩

theorem Round.deepens (h : Round sc skipArg st st') (ds : List Nat) : ∃ ds', Deepens sc skipArg (st, ds) (st', ds') := by
  obtain ⟨r, hr, hround⟩ := h
  exact ⟨_, r, hr, hround, rfl⟩

theorem Deepens.unique {y' : SubstState × List Nat} (h : Deepens sc skipArg x y) (h' : Deepens sc skipArg x y') :
    y = y' := by
  obtain ⟨r, hr, hround, hds⟩ := h
  obtain ⟨r', hr', hround', hds'⟩ := h'
  cases hr.symm.trans hr'
  exact Prod.ext (Except.ok.inj (hround.symm.trans hround')) (hds.trans hds'.symm)

theorem Within.deepens (h : Within sc skipArg n x) (hd : Deepens sc skipArg x y) : Within sc skipArg n y :=
  fun z hz => h z (.head hd hz)

/-- The references with the depth that is left to them. -/
def remaining (n : Nat) (l : Labelled Nat) : Labelled Nat := l.map fun p => (p.1, n - p.2)

theorem text_remaining (n : Nat) (l : Labelled Nat) : text (remaining n l) = text l := by
  simp [text, remaining, List.map_map, Function.comp_def]

/-- Each round that gets on, without getting too deep, brings the measure down. -/
theorem Deepens.lt (h : Deepens sc skipArg (st, ds) (st', ds')) (hp : st.Proper sc skipArg) {l : Labelled Nat}
    (ht : text l = st.text) (hds : l.map Prod.snd = ds) (hn : ∀ d ∈ ds', d ≤ n) :
    ∃ l' : Labelled Nat, text l' = st'.text ∧ l'.map Prod.snd = ds' ∧
      Prod.Lex Multiset.IsDershowitzMannaLT (· < ·) (roundMeasure st' (remaining n l'))
        (roundMeasure st (remaining n l)) := by
  obtain ⟨r, index, hr, hcases⟩ := h.round.cases
  obtain ⟨r', hr', -, hdepths⟩ := h
  dsimp only at hr hr' hcases hdepths
  cases hr.symm.trans hr'
  rcases hcases with ⟨hlookup, hs, hput, rfl⟩ | ⟨hb, value, hput, -, rfl⟩
  · rw [depthsAfter, hput] at hdepths
    have hle := hp.fresh r hr index hlookup hs
    exact ⟨l, ht, hds.trans hdepths.symm, .right _ ((stands_of_findReference hr).count_lt hs hle)⟩
  · have hstands := stands_of_findReference hr
    obtain ⟨a, p, out, rest, rfl, ha, hsign, hquiet, -, hrest⟩ := hstands.cut hb ht
    have hps : isSign p.1 = true := hsign ▸ hstands.sign
    have hbefore : r.before.length = (a.map Prod.snd).length := by rw [← ha, text, List.length_map, List.length_map]
    have hafter : r.after.length = (rest.map Prod.snd).length := by
      rw [← hrest, text, List.length_map, List.length_map]
    have hdepths' : ds' = a.map Prod.snd ++ (List.replicate value.length (p.2 + 1) ++ rest.map Prod.snd) := by
      have hdrop : ds.drop (ds.length - (rest.map Prod.snd).length) = rest.map Prod.snd := by
        have hsuffix : rest.map Prod.snd <:+ ds := by
          rw [← hds, List.map_append, List.map_cons, List.map_append, ← List.cons_append, ← List.append_assoc]
          exact List.suffix_append _ _
        exact (List.suffix_iff_eq_drop.mp hsuffix).symm
      have hget : ds.getD (a.map Prod.snd).length 0 = p.2 := by
        rw [← hds]
        simp
      have htake : ds.take (a.map Prod.snd).length = a.map Prod.snd := by
        rw [← hds, List.map_append]
        exact List.take_left
      rw [hdepths, depthsAfter, hput, hbefore, hafter]
      dsimp only
      rw [htake, hget, hdrop, List.append_assoc]
    refine ⟨a ++ (value.map (fun c => (c, p.2 + 1)) ++ rest), ?_, ?_, .left _ _ ?_⟩
    · rw [text_append, text_append, text_const, ha, hrest, ← List.append_assoc]
      rfl
    · rw [hdepths', List.map_append, List.map_append, List.map_map]
      simp [Function.comp_def]
    · simp only [remaining, List.map_append, List.map_cons]
      refine weight_replace (α := Nat) hps ?_ fun k hk => ?_
      · rw [← remaining, text_remaining]
        exact hquiet
      · rw [List.map_map] at hk
        obtain ⟨rfl, c, hc, -⟩ := mem_weight_const (α := Nat) hk
        have hdeep : p.2 + 1 ∈ ds' := by
          rw [hdepths']
          apply List.mem_append_right
          apply List.mem_append_left
          exact List.mem_replicate.mpr ⟨List.length_pos_of_mem hc |>.ne', rfl⟩
        have hle := hn _ hdeep
        show n - (p.2 + 1) < n - p.2
        omega

/-- As long as the values are nested no deeper than `n`, the substitution ends if each of its rounds can get on. -/
theorem terminates_of_within (h : Within sc skipArg n (st, ds)) (hlen : ds.length = st.text.length)
    (hproper : ∀ st', Relation.ReflTransGen (Round sc skipArg) st st' → st'.Proper sc skipArg) :
    Terminates sc skipArg st := by
  refine terminates_of_measure (wellFounded_roundMeasure (α := Nat))
    (P := fun st b => (∀ st', Relation.ReflTransGen (Round sc skipArg) st st' → st'.Proper sc skipArg) ∧
      ∃ l : Labelled Nat, text l = st.text ∧ Within sc skipArg n (st, l.map Prod.snd) ∧
        b = roundMeasure st (remaining n l))
    ?_ ?_ ⟨hproper, st.text.zip ds, ?_, ?_, rfl⟩
  · exact fun st b hp => hp.1 st .refl
  · rintro st b st' ⟨hp, l, ht, hw, rfl⟩ hr
    obtain ⟨ds', hd⟩ := hr.deepens (l.map Prod.snd)
    obtain ⟨l', ht', hds', hlt⟩ := hd.lt (hp st .refl) ht rfl (hw _ (.single hd))
    exact ⟨_, ⟨fun st'' hst => hp st'' (.head hr hst), l', ht', hds' ▸ hw.deepens hd, rfl⟩, hlt⟩
  · exact List.map_fst_zip hlen.ge
  · rw [List.map_snd_zip hlen.le]
    exact h

/-- The values that are put into the text before the end are nested only so deep. -/
theorem Terminates.exists_within (h : Terminates sc skipArg st) (ds : List Nat) :
    ∃ n, Within sc skipArg n (st, ds) := by
  obtain ⟨fuel, result, hresult, hdefined⟩ := id h
  induction fuel generalizing st ds with
  | zero =>
    refine ⟨ds.sum, fun y hy d hd => ?_⟩
    rcases Relation.ReflTransGen.cases_head hy with rfl | ⟨z, hz, -⟩
    · exact List.le_sum_of_mem hd
    · obtain ⟨r, hr, -⟩ := hz.round
      rw [varSubstitute, if_neg (Nat.not_lt.mpr h.proper.within), hr] at hresult
      cases hresult
  | succ fuel ih =>
    by_cases hround : ∃ st', Round sc skipArg st st'
    · obtain ⟨st', hr⟩ := hround
      obtain ⟨ds', hd⟩ := hr.deepens ds
      rw [varSubstitute_of_round hr h.proper.within] at hresult
      obtain ⟨n, hn⟩ := ih (h.round hr) ds' hresult
      refine ⟨max n ds.sum, fun y hy d hmem => ?_⟩
      rcases Relation.ReflTransGen.cases_head hy with rfl | ⟨z, hz, hzy⟩
      · exact (List.le_sum_of_mem hmem).trans (le_max_right _ _)
      · rw [← hd.unique hz] at hzy
        exact (hn y hzy d hmem).trans (le_max_left _ _)
    · refine ⟨ds.sum, fun y hy d hmem => ?_⟩
      rcases Relation.ReflTransGen.cases_head hy with rfl | ⟨z, hz, -⟩
      · exact List.le_sum_of_mem hmem
      · exact absurd ⟨z.1, hz.round⟩ hround

end Depth

theorem Terminates.proper_of_rounds (h : Terminates sc skipArg st)
    (hst : Relation.ReflTransGen (Round sc skipArg) st st') : st'.Proper sc skipArg := by
  have hends : Terminates sc skipArg st' := by
    induction hst with
    | refl => exact h
    | tail _ hround ih => exact ih.round hround
  exact hends.proper

/-- The substitution ends exactly if each of its rounds can get on and the values that it puts into the text are nested
only so deep. -/
theorem terminates_iff (s : List Char) :
    Terminates sc skipArg { text := s } ↔
      (∀ st, Relation.ReflTransGen (Round sc skipArg) { text := s } st → st.Proper sc skipArg) ∧
        ∃ n, NestedAtMost sc skipArg n s := by
  constructor
  · exact fun hends => ⟨fun st hst => hends.proper_of_rounds hst, hends.exists_within _⟩
  · rintro ⟨hproper, n, hn⟩
    exact terminates_of_within hn List.length_replicate hproper

theorem mem_of_checkArguments {key value : List Char} {currentArg : Option (List Char)} {j : Nat} {i : Int}
    {as : List Argument}
    (h : checkArguments key currentArg j as = .ok (some (value, i))) : ∃ a ∈ as, ∃ v ∈ a.value, value = v.toList := by
  induction as generalizing j with
  | nil => cases h
  | cons a as ih =>
    rw [checkArguments] at h
    split at h
    · obtain ⟨b, hb, hv⟩ := ih h
      exact ⟨b, List.mem_cons_of_mem _ hb, hv⟩
    · split at h
      · cases h
      · split at h
        · split at h
          · cases h
          · next v hv =>
            cases h
            exact ⟨a, List.mem_cons_self, v, hv, rfl⟩
        · obtain ⟨b, hb, hv⟩ := ih h
          exact ⟨b, List.mem_cons_of_mem _ hb, hv⟩

theorem Valued.cases {n value : List Char} (h : Valued sc skipArg n value) :
    (∃ key v, (sc.taskVars key = some v ∨ sc.vars key = some v) ∧ value = v.svalue.toList) ∨
      (∃ k, value = decimal k) ∨ ∃ a ∈ sc.arguments, ∃ v ∈ a.value, value = v.toList := by
  obtain ⟨r, index, index', -, h⟩ := h
  unfold lookupName at h
  split at h
  · simp at h
  · split at h
    · simp at h
    · split at h
      · next v hv =>
        simp only [Except.ok.injEq, Prod.mk.injEq, reduceCtorEq, false_and, Denoted.var.injEq, false_or] at h
        obtain ⟨w, ⟨rfl, -⟩, hw⟩ := h
        exact .inl ⟨_, v, .inl hv, hw⟩
      · split at h
        · next v hv =>
          simp only [Except.ok.injEq, Prod.mk.injEq, reduceCtorEq, false_and, Denoted.var.injEq, false_or] at h
          obtain ⟨w, ⟨rfl, -⟩, hw⟩ := h
          exact .inl ⟨_, v, .inr (Option.filter_eq_some_iff.mp hv).1, hw⟩
        · split at h
          · simp at h
          · next w j hw =>
            simp only [Except.ok.injEq, Prod.mk.injEq, Denoted.argument.injEq, Option.some.injEq, reduceCtorEq,
              false_and,
              exists_false, or_false] at h
            rw [← h.1]
            right
            unfold checkArgs at hw
            split at hw
            · cases hw
              exact .inl ⟨_, rfl⟩
            · split at hw
              · cases hw
                exact .inl ⟨_, rfl⟩
              · split at hw
                · cases hw
                  exact .inl ⟨_, rfl⟩
                · exact .inr (mem_of_checkArguments hw)
          · simp at h

/-- Where the values of variables and arguments hold no reference, none of them refers to anything. -/
theorem acc_of_plain (hvars : ∀ key v, sc.taskVars key = some v ∨ sc.vars key = some v → '@' ∉ v.svalue.toList)
    (hargs : ∀ a ∈ sc.arguments, ∀ v ∈ a.value, '@' ∉ v.toList) (m : List Char) : Acc (Refers sc skipArg) m := by
  refine ⟨m, fun n hn => ?_⟩
  obtain ⟨value, hvalue, ⟨s, hs, -⟩, -⟩ := hn
  have hmem : '@' ∈ value := hs.subset List.mem_cons_self
  obtain ⟨key, v, hv, rfl⟩ | ⟨k, rfl⟩ | ⟨a, ha, v, hv, rfl⟩ := hvalue.cases
  · exact absurd hmem (hvars key v hv)
  · exact absurd hmem (not_mem_decimal k (by decide) (by decide))
  · exact absurd hmem (hargs a ha v hv)

/-- Where the values hold no reference, the rounds need only get on. -/
theorem terminates_iff_of_plain {s : List Char}
    (hvars : ∀ key v, sc.taskVars key = some v ∨ sc.vars key = some v → '@' ∉ v.svalue.toList)
    (hargs : ∀ a ∈ sc.arguments, ∀ v ∈ a.value, '@' ∉ v.toList) :
    Terminates sc skipArg { text := s } ↔
      ∀ st, Relation.ReflTransGen (Round sc skipArg) { text := s } st → st.Proper sc skipArg :=
  ⟨fun hends _ hst => hends.proper_of_rounds hst, terminates_of_acc fun m _ => acc_of_plain hvars hargs m⟩

/-- A round that changes nothing is followed by the same one. -/
theorem not_terminates_of_round_self (h : Round sc skipArg st st) : ¬ Terminates sc skipArg st := by
  intro hends
  have hwithin := hends.proper.within
  obtain ⟨fuel, result, hresult, -⟩ := hends
  induction fuel with
  | zero =>
    obtain ⟨r, hr, -⟩ := h
    rw [varSubstitute, if_neg (Nat.not_lt.mpr hwithin), hr] at hresult
    cases hresult
  | succ fuel ih =>
    rw [varSubstitute_of_round h hwithin] at hresult
    exact ih hresult

end Rounds

/-- One variable. -/
def oneVariable (key svalue : String) : Scope where
  vars k := if k = key then some { caller := -1, svalue, ivalue := 1 } else none

example : varSubstitute (oneVariable "x" "a") none 3 { text := "@x;@NCORES;@y".toList } = some (.ok "a;0;@y".toList) := by
  decide +kernel

/-- The value of a variable is a reference to it; or a reference without a meaning follows the prefix of an index. -/
theorem not_terminates_self :
    ¬ Terminates (oneVariable "x" "@x") none { text := "@x".toList } ∧ ¬ Terminates {} none { text := "&user@host".toList } := by
  constructor
  · apply not_terminates_of_round_self
    exact ⟨⟨[], '@', false, ['x'], []⟩, by decide +kernel, by rfl⟩
  · intro h
    have hround : Round {} none { text := "&user@host".toList }
        { text := "&user@host".toList, skipUntil := 6, index := some (-1) } :=
      ⟨⟨"&user".toList, '@', false, "host".toList, []⟩, by decide +kernel, by rfl⟩
    have hfresh := (h.round hround).proper.fresh ⟨"&user".toList, '@', false, "host".toList, []⟩ (by decide +kernel)
      (some (-1)) (by rfl) rfl
    exact absurd hfresh (by decide)

end OphidiaWorkflow
