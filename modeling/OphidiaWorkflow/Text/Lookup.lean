import OphidiaWorkflow.Text.Expansion

/-!
Where the values come from that `oph_workflow_var_substitute` puts in the place of the references.

A reference without a name is not looked up: what is left of the last lookup is used for it.
-/
namespace OphidiaWorkflow

open Relation

section Lookup

variable (sc : Scope) (skipArg : Option (List Char))

/-- A round that starts within the text. -/
def Turn (st st' : SubstState) : Prop := st.skipUntil ≤ st.text.length ∧ Round sc skipArg st st'

/-- The loop gets to where the new text is built: the reference has a meaning, or `return_error` is negative, and the
test of `index` has let it pass. An index that was never set may have any value. -/
structure Builds (st : SubstState) (r : Reference) (d : Denoted) (index : Option Int) : Prop where
  within : st.skipUntil ≤ st.text.length
  found : findReference st.skipUntil st.text = some r
  lookup : lookupName sc skipArg r st.index = .ok (d, index)
  known : d ≠ .unknown
  passed : r.sign = '&' → ∀ value, d = .argument value → ∀ j, index = some j → 0 ≤ j

/-- A variable was found in one of the two tables, or the check on the arguments has set the value and the index. -/
inductive LookedUp (r : Reference) : Denoted → Option Int → Prop
  | taskVar {v index} (h : sc.taskVars (String.ofList r.name) = some v) : LookedUp r (.var v) index
  | var {v index} (h : sc.vars (String.ofList r.name) = some v) (hc : v.caller < 0 ∨ sc.isChildOf v.caller = true) :
    LookedUp r (.var v) index
  | argument {value j} (h : checkArgs sc r.name (skipArg.or (currentKey r)) = .ok (some (value, j))) :
    LookedUp r (.argument (some value)) (some j)

/-- A reference that ends before its name begins. -/
def Reference.Nameless (r : Reference) : Prop := r.name = [] ∧ (r.bracket = true → r.rest.head? = some '}')

end Lookup

section Rounds

variable {sc : Scope} {skipArg : Option (List Char)} {st st' : SubstState} {r : Reference} {d : Denoted} {index : Option Int}

theorem lookupName_of_nameless (h : r.Nameless) (index : Option Int) :
    lookupName sc skipArg r index = .ok (.argument none, index) := by
  have hb : (r.bracket && r.rest.head? != some '}') = false := by
    cases hr : r.bracket with
    | false => rfl
    | true => simp [h.2 hr]
  rw [lookupName, hb, if_neg (by decide), if_pos h.1]

theorem lookedUp_of_lookupName (h : lookupName sc skipArg r st.index = .ok (d, index)) (hd : d ≠ .unknown)
    (hr : ¬r.Nameless) : LookedUp sc skipArg r d index := by
  have hclosed := bracket_closed h hd
  unfold lookupName at h
  split at h
  · cases h
    exact absurd rfl hd
  · have hname : r.name ≠ [] := fun hn => hr ⟨hn, hclosed⟩
    rw [if_neg hname] at h
    split at h
    · next v hv =>
      cases h
      exact .taskVar hv
    · split at h
      · next v hv =>
        cases h
        obtain ⟨hv, hc⟩ := Option.filter_eq_some_iff.mp hv
        refine .var hv ?_
        simpa using hc
      · split at h
        · cases h
        · next value j hj =>
          cases h
          exact .argument hj
        · cases h
          exact absurd rfl hd

theorem Builds.lookedUp_iff (h : Builds sc skipArg st r d index) : LookedUp sc skipArg r d index ↔ ¬r.Nameless := by
  constructor
  · intro hl hr
    have hlookup := h.lookup
    rw [lookupName_of_nameless hr] at hlookup
    cases hlookup
    cases hl
  · exact lookedUp_of_lookupName h.lookup h.known

/-- A reference without a name gets there unless it is a `&` and a negative index is left. -/
theorem builds_of_nameless (hw : st.skipUntil ≤ st.text.length) (hf : findReference st.skipUntil st.text = some r)
    (hr : r.Nameless) (hi : ¬(r.sign = '&' ∧ ∃ j < 0, st.index = some j)) :
    Builds sc skipArg st r (.argument none) st.index where
  within := hw
  found := hf
  lookup := lookupName_of_nameless hr st.index
  known := fun h => by cases h
  passed hs _ _ j hj := by
    by_contra hneg
    exact hi ⟨hs, j, Int.not_le.mp hneg, hj⟩

/-- Every value that is put into the text was looked up, exactly if no reference without a name gets to the
replacement. -/
theorem all_lookedUp_iff (s : List Char) :
    (∀ st, ReflTransGen (Turn sc skipArg) { text := s } st →
        ∀ r d index, Builds sc skipArg st r d index → LookedUp sc skipArg r d index) ↔
      ∀ st, ReflTransGen (Turn sc skipArg) { text := s } st → st.skipUntil ≤ st.text.length →
        ∀ r, findReference st.skipUntil st.text = some r → r.Nameless → r.sign = '&' ∧ ∃ j < 0, st.index = some j := by
  constructor
  · intro h st hst hw r hr hn
    by_contra hi
    have hb : Builds sc skipArg st r (.argument none) st.index := builds_of_nameless hw hr hn hi
    exact hb.lookedUp_iff.mp (h st hst r _ _ hb) hn
  · intro h st hst r d index hb
    apply hb.lookedUp_iff.mpr
    intro hn
    obtain ⟨hs, j, hj, hi⟩ := h st hst hb.within r hb.found hn
    have hlookup := hb.lookup
    rw [lookupName_of_nameless hn] at hlookup
    cases hlookup
    exact absurd (hb.passed hs none rfl j hi) (Int.not_le.mpr hj)

end Rounds

/-- A `@` alone. -/
theorem not_all_lookedUp : ¬∀ st, ReflTransGen (Turn {} none) { text := "a=@".toList } st →
    ∀ r d index, Builds {} none st r d index → LookedUp {} none r d index := by
  intro h
  have hl := h { text := "a=@".toList } .refl ⟨"a=".toList, '@', false, [], []⟩ (.argument none) none
    ⟨by decide, by decide +kernel, by rfl, fun h => (by cases h), fun h => absurd h (by decide)⟩
  cases hl

end OphidiaWorkflow
