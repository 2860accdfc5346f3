import OphidiaWorkflow.Server.Filters

/-!
What the query of a massive operation selects.

The conditions are read as the database reads them, with any truth values of the single conditions.
-/
namespace OphidiaWorkflow.Filters

open Lib TaskString

/-! ### The text of the conditions -/

def textOf (ws : List (Word (List Char))) : List Char := ws.flatMap Word.text

section Text

variable {s s' x sep : List Char} {xs : List (List Char)} {c c' : Clauses} {ws ws' : List (Word (List Char))}

@[simp] theorem textOf_nil : textOf [] = [] := rfl

@[simp] theorem textOf_cons (w : Word (List Char)) : textOf (w :: ws) = w.text ++ textOf ws := List.flatMap_cons

@[simp] theorem textOf_append : textOf (ws ++ ws') = textOf ws ++ textOf ws' := List.flatMap_append

theorem intercalate_cons (sep x : List Char) (xs : List (List Char)) :
    sep.intercalate (x :: xs) = x ++ xs.flatMap fun y => sep ++ y := by
  induction xs generalizing x with
  | nil => simp
  | cons y xs ih => rw [List.intercalate_cons_cons, ih, List.flatMap_cons, List.append_assoc, List.append_assoc]

theorem textOf_separated (w : Word (List Char)) (xs : List (List Char)) :
    textOf (separated w xs) = w.text.intercalate xs := by
  induction xs with
  | nil => rfl
  | cons x xs ih =>
    cases xs with
    | nil => simp [separated, Word.text]
    | cons y xs =>
      rw [separated_cons_cons, textOf_cons, textOf_cons, ih, List.intercalate_cons_cons, List.append_assoc]
      rfl

theorem mem_separated {w : Word (List Char)} {a : List Char} (hw : ∀ a, w ≠ .condition a)
    (h : .condition a ∈ separated w xs) : a ∈ xs := by
  induction xs with
  | nil => cases h
  | cons x xs ih =>
    cases xs with
    | nil =>
      cases List.mem_singleton.mp h
      exact List.mem_cons_self
    | cons y xs =>
      rw [separated_cons_cons] at h
      rcases List.mem_cons.mp h with h | h
      · cases h
        exact List.mem_cons_self
      · rcases List.mem_cons.mp h with h | h
        · exact absurd h.symm (hw a)
        · exact List.mem_cons_of_mem _ (ih h)

theorem mem_separated_of_mem {w : Word (List Char)} {a : List Char} (h : a ∈ xs) : .condition a ∈ separated w xs := by
  induction xs with
  | nil => cases h
  | cons x xs ih =>
    cases xs with
    | nil =>
      cases List.mem_singleton.mp h
      exact List.mem_cons_self
    | cons y xs =>
      rw [separated_cons_cons]
      rcases List.mem_cons.mp h with rfl | h
      · exact List.mem_cons_self
      · exact List.mem_cons_of_mem _ (List.mem_cons_of_mem _ (ih h))

theorem orError_eq_ok {α : Type} {o : Option α} {a : α} : orError o = .ok a ↔ o = some a := by
  cases o with
  | none => exact ⟨nofun, nofun⟩
  | some b => exact ⟨fun h => by cases h; rfl, fun h => by cases h; rfl⟩

theorem orError_bind_ne {α β : Type} {o : Option α} {f : α → Except Stop β}
    (h : ∀ a, o = some a → f a ≠ .error .fuel) : orError o >>= f ≠ .error .fuel := by
  cases o with
  | none => exact nofun
  | some a => exact h a rfl

theorem append_eq_some (h : append s x = some s') : s' = s ++ x := by
  unfold append at h
  split at h
  · cases h
  · exact (Option.some.inj h).symm

/-- What does not fit into its own buffer does not fit into the other one either. -/
theorem append_printed (h : append s (printed x) = some s') : s' = s ++ x := by
  by_cases hx : x.length ≤ maxStringSize - 1
  · rw [append_eq_some h, printed, List.take_of_length_le hx]
  · unfold append printed at h
    rw [List.length_take, if_pos (by omega)] at h
    cases h

theorem joined_false (h : joined sep false xs s = some s') : s' = s ++ xs.flatMap fun x => sep ++ x := by
  induction xs generalizing s with
  | nil =>
    cases h
    exact (List.append_nil _).symm
  | cons x xs ih =>
    obtain ⟨s₁, h₁, h⟩ := Option.bind_eq_some_iff.mp h
    obtain ⟨s₂, h₂, h⟩ := Option.bind_eq_some_iff.mp h
    rw [ih h, append_printed h₂, append_eq_some h₁]
    simp

theorem joined_true (h : joined sep true xs s = some s') : s' = s ++ sep.intercalate xs := by
  cases xs with
  | nil =>
    cases h
    exact (List.append_nil _).symm
  | cons x xs =>
    obtain ⟨s₁, h₁, h⟩ := Option.bind_eq_some_iff.mp h
    rw [joined_false h, append_printed h₁, intercalate_cons, List.append_assoc]

theorem add_eq_some (h : c.add x = some c') : c'.conditions = c.conditions ++ x := by
  obtain ⟨s, hs, rfl⟩ := Option.map_eq_some_iff.mp h
  exact append_eq_some hs

theorem add_length_lt (h : c.add x = some c') : c'.conditions.length < maxStringSize := by
  obtain ⟨s, hs, rfl⟩ := Option.map_eq_some_iff.mp h
  unfold append at hs
  split at hs
  · cases hs
  · cases hs
    rw [List.length_append]
    omega

theorem add_printed (h : c.add (printed x) = some c') : c'.conditions = c.conditions ++ x := by
  obtain ⟨s, hs, rfl⟩ := Option.map_eq_some_iff.mp h
  exact append_printed hs

theorem addJoined_eq_some (h : c.addJoined sep xs = some c') : c'.conditions = c.conditions ++ sep.intercalate xs := by
  obtain ⟨s, hs, rfl⟩ := Option.map_eq_some_iff.mp h
  exact joined_true hs

theorem addTable_conditions (h : c.addTable x = some c') : c'.conditions = c.conditions := by
  obtain ⟨s, -, rfl⟩ := Option.map_eq_some_iff.mp h
  rfl

theorem addComma_conditions (h : c.addComma = some c') : c'.conditions = c.conditions := by
  unfold Clauses.addComma at h
  split at h
  · cases h
    rfl
  · exact addTable_conditions h

theorem addAnd_eq_some (hne : c.conditions ≠ []) (h : c.addAnd = some c') :
    c'.conditions = c.conditions ++ andText := by
  rw [Clauses.addAnd, if_neg hne] at h
  exact add_eq_some h

theorem addGroup_eq_some (hne : c.conditions ≠ []) (h : c.addGroup = some c') :
    c'.conditions = c.conditions ++ (andText ++ ['(']) := by
  rw [Clauses.addGroup, if_neg hne] at h
  exact add_eq_some h

end Text

/-! ### The single conditions -/

/-- A value that does not end the quotes it stands in. -/
def Unquoted (value : List Char) : Prop := ∀ c ∈ value, c ≠ '\\' ∧ c ≠ '\''

instance (value : List Char) : Decidable (Unquoted value) := List.decidableBAll _ value

/-- What the condition of a folder to be searched begins with. -/
def folderText : List Char := "container.idfolder='".toList

def isFolder (a : List Char) : Bool := folderText.isPrefixOf a

/-- A condition that is not about a folder to be searched. -/
structure Other (a : List Char) : Prop where
  condition : IsCondition a
  not_folder : isFolder a = false

section Conditions

variable {column value suffix : List Char} {negated : Bool}

theorem inert_decimal (n : Int) : InertText (decimal n) := by
  have hne {d : Char} (hd : d.isDigit = false) (hm : d ≠ '-') : ∀ c ∈ decimal n, c ≠ d :=
    fun c hc he => not_mem_decimal n hd hm (he ▸ hc)
  exact fun c hc => ⟨hne (by decide) (by decide) c hc, hne (by decide) (by decide) c hc,
    hne (by decide) (by decide) c hc,
    hne (by decide) (by decide) c hc, hne (by decide) (by decide) c hc⟩

theorem unquoted_decimal (n : Int) : Unquoted (decimal n) :=
  fun c hc => ⟨(inert_decimal n c hc).1, (inert_decimal n c hc).2.1⟩

theorem leads_comparison (hcolumn : InertText column) (hvalue : Unquoted value) :
    Leads {} (comparison column negated value) {} := by
  have hbang : InertText (bang negated) := by
    cases negated <;> decide
  have hopen : Leads {} "='".toList { quoted := true } := by decide
  have hclose : Leads { quoted := true } ['\''] {} := by decide
  exact (leads_inert hcolumn rfl).append ((leads_inert hbang rfl).append
    (hopen.append ((leads_quoted hvalue ⟨rfl, rfl⟩).append hclose)))

/-- The first character tells most conditions from those of the folders. -/
theorem other_of_head {a : List Char} {c : Char} (hhead : a.head? = some c) (hc : c ≠ '(' ∧ c ≠ 'c')
    (hleads : Leads {} a {}) : Other a := by
  obtain ⟨a, rfl⟩ := List.head?_eq_some_iff.mp hhead
  have hfolder : folderText = 'c' :: folderText.tail := by decide +kernel
  refine ⟨⟨List.cons_ne_nil _ _, fun h => hc.1 (Option.some.inj h), hleads⟩, ?_⟩
  rw [isFolder, hfolder, List.isPrefixOf_cons_cons, beq_false_of_ne hc.2.symm, Bool.false_and]

theorem isPrefixOf_append_eq_false {a b t : List Char} (h : a.isPrefixOf b = false ∧ b.isPrefixOf a = false) :
    a.isPrefixOf (b ++ t) = false := by
  rw [← Bool.not_eq_true, List.isPrefixOf_iff_prefix]
  intro hprefix
  rcases List.prefix_or_prefix_of_prefix hprefix (List.prefix_append b t) with hp | hp
  · rw [List.isPrefixOf_iff_prefix.mpr hp] at h
    cases h.1
  · rw [List.isPrefixOf_iff_prefix.mpr hp] at h
    cases h.2

theorem head?_append_of_some {a t : List Char} {c : Char} (h : a.head? = some c) : (a ++ t).head? = some c := by
  rw [List.head?_append, h, Option.some_or]

theorem other_subset (iv : Subset.Interval) : Other (subsetCondition negated iv) := by
  have hnot : Leads {} (notText negated ++ "mysql.oph_is_in_subset(datacube.iddatacube,".toList) { depth := 1 } := by
    cases negated <;> decide +kernel
  have hnumber (n : Int) : Leads { depth := 1 } (decimal n) { depth := 1 } := leads_inert (inert_decimal n) rfl
  have hcomma : Leads { depth := 1 } [','] { depth := 1 } := by decide
  have hclose : Leads { depth := 1 } [')'] {} := by decide
  have hhead : (notText negated ++ "mysql.oph_is_in_subset(datacube.iddatacube,".toList).head? =
      some (if negated then 'N' else 'm') := by
    cases negated <;> decide +kernel
  have hleads := hnot.append ((hnumber iv.start).append (hcomma.append ((hnumber (Subset.toLong iv.stride)).append
    (hcomma.append ((hnumber iv.stop).append hclose)))))
  simp only [List.cons_append, List.nil_append] at hleads
  unfold subsetCondition
  rw [← List.append_assoc]
  exact other_of_head (head?_append_of_some hhead) (by cases negated <;> decide) hleads

theorem inert_metadataName (h : InertText suffix) : InertText (metadataName suffix) :=
  InertText.append (by decide) h

theorem head?_metadataName : (metadataName suffix).head? = some 'm' :=
  head?_append_of_some (by decide)

theorem other_metadataJoin (h : InertText suffix) : Other (metadataJoin suffix) :=
  other_of_head (head?_append_of_some head?_metadataName) (by decide)
    (leads_inert ((inert_metadataName h).append (by decide)) rfl)

theorem other_metadataLabel (h : InertText suffix) (hvalue : Unquoted value) :
    Other (metadataLabel suffix negated value) :=
  other_of_head (head?_append_of_some (head?_append_of_some head?_metadataName)) (by decide)
    (leads_comparison ((inert_metadataName h).append (by decide)) hvalue)

theorem other_metadataValue (h : InertText suffix) (hvalue : Unquoted value) :
    Other (metadataValueCondition suffix negated value) := by
  have hconvert : Leads {} "CONVERT(".toList { depth := 1 } := by decide
  have hlike : Leads { depth := 1 } (".value USING latin1) ".toList ++ (notText negated ++ "LIKE '%".toList))
      { quoted := true } := by
    cases negated <;> decide +kernel
  have hclose : Leads { quoted := true } "%'".toList {} := by decide
  have hhead : "CONVERT(".toList.head? = some 'C' := by decide
  have hleads := hconvert.append ((leads_inert (inert_metadataName h) rfl).append
    (hlike.append ((leads_quoted hvalue ⟨rfl, rfl⟩).append hclose)))
  rw [List.append_assoc, List.append_assoc] at hleads
  exact other_of_head (head?_append_of_some hhead) (by decide) hleads

end Conditions

/-! ### What a filter adds -/

/-- The word between the conditions of a list. -/
def listWord (negated : Bool) : Word (List Char) := if negated then .and else .or

/-- Conditions in brackets, as they stand behind an `AND`. -/
def groupWords (negated : Bool) (xs : List (List Char)) : List (Word (List Char)) :=
  .opening :: (separated (listWord negated) xs ++ [.closing])

/-- The words add a value to the conjunction that is being read; it is true if all their conditions are. -/
structure Narrows (ws : List (Word (List Char))) : Prop where
  other : ∀ a, .condition a ∈ ws → Other a
  value : ∀ ρ : List Char → Bool, ∃ b,
    (∀ l ls, readWords ρ ⟨false, l, ls⟩ ws = some ⟨false, l.conj b, ls⟩) ∧
      ((∀ a, .condition a ∈ ws → ρ a = true) → b = true)

/-- What a filter does to the conditions. -/
def Extends (c c' : Clauses) : Prop := ∃ ws, Narrows ws ∧ c'.conditions = c.conditions ++ textOf ws

section Added

variable {ρ : List Char → Bool} {value : List Char} {negated : Bool} {xs items : List (List Char)}
  {c c' c'' : Clauses} {ws ws' : List (Word (List Char))} {filter : List Char → Clauses → Option Clauses}

theorem text_listWord (negated : Bool) : (listWord negated).text = listText negated := by
  cases negated <;> rfl

theorem listWord_ne (negated : Bool) (a : List Char) : listWord negated ≠ .condition a := by
  cases negated <;> nofun

theorem textOf_group (negated : Bool) (xs : List (List Char)) :
    textOf (groupWords negated xs) = '(' :: ((listText negated).intercalate xs ++ [')']) := by
  rw [groupWords, textOf_cons, textOf_append, textOf_separated, text_listWord]
  rfl

theorem operand_group (h : xs ≠ []) :
    Operand ρ (groupWords negated xs) (if negated then xs.all ρ else xs.any ρ) := by
  cases negated with
  | false => exact operand_separated_or h
  | true => exact (operand_separated_and h).brackets

theorem mem_group {a : List Char} (h : .condition a ∈ groupWords negated xs) : a ∈ xs := by
  rcases List.mem_cons.mp h with h | h
  · cases h
  · rcases List.mem_append.mp h with h | h
    · exact mem_separated (listWord_ne negated) h
    · cases List.mem_singleton.mp h

theorem narrows_nil : Narrows [] where
  other _ h := absurd h List.not_mem_nil
  value _ := ⟨true, fun l _ => by rw [Level.conj_true]; rfl, fun _ => rfl⟩

theorem Narrows.append (h : Narrows ws) (h' : Narrows ws') : Narrows (ws ++ ws') where
  other a ha := (List.mem_append.mp ha).elim (h.other a) (h'.other a)
  value ρ := by
    obtain ⟨b, hread, htrue⟩ := h.value ρ
    obtain ⟨b', hread', htrue'⟩ := h'.value ρ
    refine ⟨b && b', fun l ls => ?_, fun hall => ?_⟩
    · rw [readWords_append (hread l ls), hread', Level.conj_conj]
    · rw [htrue fun a ha => hall a (List.mem_append_left _ ha), htrue' fun a ha => hall a (List.mem_append_right _ ha)]
      rfl

theorem narrows_conditions (hne : xs ≠ []) (h : ∀ x ∈ xs, Other x) : Narrows (.and :: separated .and xs) where
  other a ha := by
    rcases List.mem_cons.mp ha with ha | ha
    · cases ha
    · exact h a (mem_separated (listWord_ne true) ha)
  value ρ := by
    refine ⟨xs.all ρ, (operand_separated_and hne).read_and, fun hall => List.all_eq_true.mpr fun x hx => hall x ?_⟩
    exact List.mem_cons_of_mem _ (mem_separated_of_mem hx)

theorem narrows_group (hne : xs ≠ []) (h : ∀ x ∈ xs, Other x) : Narrows (.and :: groupWords negated xs) where
  other a ha := by
    rcases List.mem_cons.mp ha with ha | ha
    · cases ha
    · exact h a (mem_group ha)
  value ρ := by
    refine ⟨_, (operand_group hne).read_and, fun hall => ?_⟩
    have htrue : ∀ x ∈ xs, ρ x = true := fun x hx => hall x (List.mem_cons_of_mem _ (List.mem_cons_of_mem _
      (List.mem_append_left _ (mem_separated_of_mem hx))))
    cases negated with
    | true => exact List.all_eq_true.mpr htrue
    | false =>
      obtain ⟨x, xs, rfl⟩ := List.exists_cons_of_ne_nil hne
      exact List.any_eq_true.mpr ⟨x, List.mem_cons_self, htrue x List.mem_cons_self⟩

theorem Extends.refl (c : Clauses) : Extends c c := ⟨[], narrows_nil, (List.append_nil _).symm⟩

theorem Extends.trans (h : Extends c c') (h' : Extends c' c'') : Extends c c'' := by
  obtain ⟨ws, hws, htext⟩ := h
  obtain ⟨ws', hws', htext'⟩ := h'
  exact ⟨ws ++ ws', hws.append hws', by rw [htext', htext, textOf_append, List.append_assoc]⟩

theorem Extends.ne_nil (h : Extends c c') (hne : c.conditions ≠ []) : c'.conditions ≠ [] := by
  obtain ⟨ws, -, htext⟩ := h
  rw [htext]
  exact List.append_ne_nil_of_left_ne_nil hne _

theorem valueList_eq (hne : value ≠ []) (h : valueList value = some items) : items = value.splitOn '|' := by
  unfold valueList at h
  split at h
  · next stored hstored =>
    split at h
    · cases h
    · have hroom : ∀ item ∈ value.splitOn '|', item.length < 1 + (countItems value).msize := fun item hi =>
        Nat.lt_one_add_iff.mpr (length_le_msize hi)
      unfold parseMultipleValueParam at hstored
      rw [if_neg hne] at hstored
      split at hstored
      · cases hstored
      · dsimp only at hstored
        rw [paramNum_countItems] at hstored
        cases (fillItems_eq hroom (Nat.lt_succ_self _) []).symm.trans hstored
        rw [List.nil_append, mapM_eq_some_iff, List.forall₂_map_left_iff] at h
        exact (List.forall₂_eq_eq_eq ▸ h.imp fun a b hab => Option.some.inj hab : value.splitOn '|' = items).symm
  · cases h

theorem valueList_ne_nil (hne : value ≠ []) (h : valueList value = some items) : items ≠ [] :=
  valueList_eq hne h ▸ List.splitOn_ne_nil _ _

theorem unquoted_of_valueList (hne : value ≠ []) (h : valueList value = some items) (hq : Unquoted value) :
    ∀ item ∈ items, Unquoted item := by
  rw [valueList_eq hne h]
  exact fun item hitem c hc => hq c (mem_of_mem_splitOn hitem hc)

theorem optional_some (hne : value ≠ []) : optional filter (some value) c = filter value c := if_neg hne

/-- A filter that does nothing without a value. -/
theorem extends_optional {value : Option (List Char)} (h : optional filter value c = some c')
    (hfilter : ∀ v, value = some v → v ≠ [] → filter v c = some c' → Extends c c') : Extends c c' := by
  unfold optional at h
  split at h
  · cases h
    exact .refl c
  · split at h
    · cases h
      exact .refl c
    · next v hne => exact hfilter v rfl hne h

end Added

section Filters

variable {value : List Char} {arg : Option (List Char)} {negated : Bool} {webServer : Option String} {c c' : Clauses}

theorem extends_filterOne {condition : List Char → Option (List Char)} (hne : c.conditions ≠ [])
    (hother : ∀ v, arg = some v → ∀ x, condition v = some x → Other x) (h : filterOne condition arg c = some c') :
    Extends c c' := by
  refine extends_optional h fun v hv _ h => ?_
  obtain ⟨x, hx, h⟩ := Option.bind_eq_some_iff.mp h
  obtain ⟨c₁, h₁, h⟩ := Option.bind_eq_some_iff.mp h
  refine ⟨.and :: separated .and [x], narrows_conditions (List.cons_ne_nil _ _) ?_, ?_⟩
  · exact fun y hy => List.mem_singleton.mp hy ▸ hother v hv x hx
  · rw [add_printed h, addAnd_eq_some hne h₁, textOf_cons, textOf_separated, List.intercalate_singleton,
      List.append_assoc]
    rfl

theorem other_datacube {column : List Char} (h : InertText column) (hhead : column.head? = some 'd')
    (hvalue : Unquoted value) : Other (comparison column negated value) :=
  other_of_head (head?_append_of_some hhead) (by decide) (leads_comparison h hvalue)

theorem extends_measure (hne : c.conditions ≠ []) (hq : ∀ v, arg = some v → Unquoted v)
    (h : filterMeasure negated arg c = some c') : Extends c c' := by
  refine extends_filterOne hne (fun v hv x hx => ?_) h
  cases hx
  exact other_datacube (by decide +kernel) (by decide +kernel) (hq v hv)

theorem extends_container (hne : c.conditions ≠ []) (hq : ∀ v, arg = some v → Unquoted v)
    (h : filterContainer negated arg c = some c') : Extends c c' := by
  refine extends_filterOne hne (fun v hv x hx => ?_) h
  cases hx
  have hcolumn : InertText "container.containername".toList := by decide +kernel
  refine ⟨⟨List.append_ne_nil_of_left_ne_nil (by decide +kernel) _, fun h => ?_, leads_comparison hcolumn (hq v hv)⟩,
    ?_⟩
  · have hhead : "container.containername".toList.head? = some 'c' := by decide +kernel
    rw [containerCondition, comparison, head?_append_of_some hhead] at h
    cases h
  · exact isPrefixOf_append_eq_false (by decide +kernel)

theorem extends_containerPid (hne : c.conditions ≠ []) (h : filterContainerPid webServer negated arg c = some c') :
    Extends c c' := by
  refine extends_filterOne hne (fun v hv x hx => ?_) h
  obtain ⟨rest, -, rfl⟩ := Option.map_eq_some_iff.mp hx
  exact other_datacube (by decide +kernel) (by decide +kernel) (unquoted_decimal _)

theorem extends_group {xs : List (List Char)} (hxs : xs ≠ []) (hother : ∀ x ∈ xs, Other x)
    (h : c'.conditions = c.conditions ++ (andText ++ ['(']) ++ (listText negated).intercalate xs ++ [')']) :
    Extends c c' := by
  refine ⟨.and :: groupWords negated xs, narrows_group hxs hother, ?_⟩
  rw [h, textOf_cons, textOf_group]
  simp [Word.text]

theorem extends_level (hne : c.conditions ≠ []) (h : filterLevel negated arg c = some c') : Extends c c' := by
  refine extends_optional h fun v hv hv0 h => ?_
  obtain ⟨items, hitems, h⟩ := Option.bind_eq_some_iff.mp h
  obtain ⟨c₁, h₁, h⟩ := Option.bind_eq_some_iff.mp h
  obtain ⟨c₂, h₂, h⟩ := Option.bind_eq_some_iff.mp h
  refine extends_group (mt List.map_eq_nil_iff.mp (valueList_ne_nil hv0 hitems)) ?_
    (by rw [add_eq_some h, addJoined_eq_some h₂, addGroup_eq_some hne h₁])
  intro x hx
  obtain ⟨item, -, rfl⟩ := List.mem_map.mp hx
  exact other_datacube (by decide +kernel) (by decide +kernel) (unquoted_decimal _)

theorem intervals_ne_nil {subset : Subset.OphSubset} (h : Subset.parse value 0 = .ok subset) :
    subset.intervals ≠ [] := by
  unfold Subset.parse at h
  split at h
  · cases h
  · split at h
    · cases h
    · next hnumber =>
      split at h
      · cases h
      · split at h
        · next haccepted =>
          cases h
          have hitems : Subset.items value ≠ [] := List.splitOn_ne_nil _ _
          obtain ⟨item, items, hcons⟩ := List.exists_cons_of_ne_nil hitems
          rw [hcons, Subset.scan] at haccepted ⊢
          split at haccepted
          · cases haccepted
          · exact List.cons_ne_nil _ _
        · cases h

theorem extends_usingSubset (hne : c.conditions ≠ []) (h : filterUsingSubset negated arg c = some c') :
    Extends c c' := by
  refine extends_optional h fun v hv hv0 h => ?_
  obtain ⟨c₁, h₁, h⟩ := Option.bind_eq_some_iff.mp h
  split at h
  · cases h
  · next subset hsubset =>
    obtain ⟨x, hx, h⟩ := Option.bind_eq_some_iff.mp h
    obtain ⟨c₂, h₂, h⟩ := Option.bind_eq_some_iff.mp h
    refine extends_group (mt List.map_eq_nil_iff.mp (intervals_ne_nil hsubset)) ?_
      (by rw [add_eq_some h, add_eq_some h₂, addGroup_eq_some hne h₁, joined_true hx, List.nil_append])
    intro x hx
    obtain ⟨iv, -, rfl⟩ := List.mem_map.mp hx
    exact other_subset iv

theorem other_parentConditions (idparent idcontainer : Int) :
    ∀ x ∈ parentConditions negated idparent idcontainer, Other x := by
  have hjoin {x : List Char} {d : Char} (hhead : x.head? = some d) (hd : d ≠ '(' ∧ d ≠ 'c') (h : InertText x) :
      Other x := other_of_head hhead hd (leads_inert h rfl)
  simp only [parentConditions, List.forall_mem_cons]
  refine ⟨hjoin (d := 'd') (by decide +kernel) (by decide) (by decide +kernel),
    hjoin (d := 't') (by decide +kernel) (by decide) (by decide +kernel),
    hjoin (d := 'h') (by decide +kernel) (by decide) (by decide +kernel),
    other_datacube (by decide +kernel) (by decide +kernel) (unquoted_decimal _),
    other_datacube (by decide +kernel) (by decide +kernel) (unquoted_decimal _), List.forall_mem_nil _⟩

theorem extends_parent (hne : c.conditions ≠ []) (h : filterParent webServer negated arg c = some c') :
    Extends c c' := by
  refine extends_optional h fun v hv hv0 h => ?_
  obtain ⟨⟨idcontainer, idparent⟩, -, h⟩ := Option.bind_eq_some_iff.mp h
  obtain ⟨c₁, h₁, h⟩ := Option.bind_eq_some_iff.mp h
  obtain ⟨c₂, h₂, h⟩ := Option.bind_eq_some_iff.mp h
  obtain ⟨c₃, h₃, h⟩ := Option.bind_eq_some_iff.mp h
  have h₁₂ : c₂.conditions = c.conditions := (addTable_conditions h₂).trans (addComma_conditions h₁)
  refine ⟨.and :: separated .and (parentConditions negated idparent idcontainer),
    narrows_conditions (List.cons_ne_nil _ _) (other_parentConditions idparent idcontainer), ?_⟩
  rw [add_printed h, addAnd_eq_some (h₁₂ ▸ hne) h₃, h₁₂, textOf_cons, textOf_separated, List.append_assoc]
  rfl

end Filters

/-! ### The metadata -/

/-- The conditions of the metadata, in their groups. -/
def metadataWords {α : Type} (w : Word (List Char)) (conditions : Nat → α → List (List Char)) :
    Nat → List α → List (Word (List Char))
  | _, [] => []
  | i, x :: xs =>
    (if i = 0 then [] else [w]) ++ (separated .and (conditions i x) ++ metadataWords w conditions (i + 1) xs)

section Metadata

variable {α : Type} {ρ : List Char → Bool} {w : Word (List Char)} {conditions : Nat → α → List (List Char)}
  {table : Nat → List Char} {i : Nat} {xs : List α} {c c' : Clauses} {value key : List Char} {arg : Option (List Char)}
  {negated : Bool}

theorem addMetadata_eq (h : addMetadata w.text table conditions i xs c = some c') :
    c'.conditions = c.conditions ++ textOf (metadataWords w conditions i xs) := by
  induction xs generalizing i c with
  | nil =>
    cases h
    exact (List.append_nil _).symm
  | cons x xs ih =>
    obtain ⟨c₁, h₁, h⟩ := Option.bind_eq_some_iff.mp h
    obtain ⟨c₂, h₂, h⟩ := Option.bind_eq_some_iff.mp h
    obtain ⟨c₃, h₃, h⟩ := Option.bind_eq_some_iff.mp h
    obtain ⟨c₄, h₄, h⟩ := Option.bind_eq_some_iff.mp h
    have hc₁ : c₁.conditions = c.conditions := by
      split at h₁
      · cases h₁
        rfl
      · exact addTable_conditions h₁
    have hc₃ : c₃.conditions = c.conditions ++ textOf (if i = 0 then [] else [w]) := by
      rw [← hc₁, ← addTable_conditions h₂]
      split at h₃
      · next hi =>
        cases h₃
        rw [if_pos hi]
        exact (List.append_nil _).symm
      · next hi =>
        rw [add_eq_some h₃, if_neg hi, textOf_cons, textOf_nil, List.append_nil]
    rw [ih h, add_printed h₄, hc₃, metadataWords, textOf_append, textOf_append, textOf_separated]
    simp only [List.append_assoc]
    rfl

theorem mem_metadataWords {a : List Char} (hw : ∀ a, w ≠ .condition a)
    (h : .condition a ∈ metadataWords w conditions i xs) : ∃ j, ∃ x ∈ xs, a ∈ conditions j x := by
  induction xs generalizing i with
  | nil => cases h
  | cons x xs ih =>
    rw [metadataWords] at h
    rcases List.mem_append.mp h with h | h
    · split at h
      · cases h
      · exact absurd (List.mem_singleton.mp h).symm (hw a)
    · rcases List.mem_append.mp h with h | h
      · exact ⟨i, x, List.mem_cons_self, mem_separated (listWord_ne true) h⟩
      · obtain ⟨j, y, hy, ha⟩ := ih h
        exact ⟨j, y, List.mem_cons_of_mem _ hy, ha⟩

/-- All that is asked of the metadata must hold. -/
theorem narrows_metadata (hother : ∀ i, ∀ x ∈ xs, conditions i x ≠ [] ∧ ∀ a ∈ conditions i x, Other a) :
    Narrows (metadataWords .and conditions (i + 1) xs) := by
  induction xs generalizing i with
  | nil => exact narrows_nil
  | cons x xs ih =>
    obtain ⟨hne, ha⟩ := hother (i + 1) x List.mem_cons_self
    exact (narrows_conditions hne ha).append (ih fun i y hy => hother i y (List.mem_cons_of_mem _ hy))

theorem narrows_allMetadata (hxs : xs ≠ [])
    (hother : ∀ i, ∀ x ∈ xs, conditions i x ≠ [] ∧ ∀ a ∈ conditions i x, Other a) :
    Narrows (.and :: metadataWords .and conditions 0 xs) := by
  obtain ⟨x, xs, rfl⟩ := List.exists_cons_of_ne_nil hxs
  obtain ⟨hne, ha⟩ := hother 0 x List.mem_cons_self
  exact (narrows_conditions hne ha).append (narrows_metadata fun i y hy => hother i y (List.mem_cons_of_mem _ hy))

/-- Each group but the first one starts another disjunct. -/
theorem readWords_metadata_or (hother : ∀ i, ∀ x ∈ xs, conditions i x ≠ [] ∧ ∀ a ∈ conditions i x, Other a)
    (l : Level) : ∃ l', readWords ρ ⟨false, l, []⟩ (metadataWords .or conditions (i + 1) xs) = some ⟨false, l', []⟩ ∧
      (xs = [] → l' = l) ∧ (xs ≠ [] → (∀ a, Other a → ρ a = true) → l'.current = true) := by
  induction xs generalizing i l with
  | nil => exact ⟨l, rfl, fun _ => rfl, fun h => absurd rfl h⟩
  | cons x xs ih =>
    obtain ⟨hne, ha⟩ := hother (i + 1) x List.mem_cons_self
    have hgroup := (operand_separated_and (ρ := ρ) hne).read_or l []
    obtain ⟨l', hl', hnil, hcons⟩ := @ih (i + 1) (fun i y hy => hother i y (List.mem_cons_of_mem _ hy))
      (l.disj.conj ((conditions (i + 1) x).all ρ))
    refine ⟨l', (readWords_append hgroup).trans hl', nofun, fun _ hall => ?_⟩
    by_cases hxs : xs = []
    · rw [hnil hxs, Level.current_conj, Level.current_disj, List.all_eq_true.mpr fun a h => hall a (ha a h)]
      rfl
    · exact hcons hxs hall

theorem other_keyConditions (negated : Bool) (i : Nat) (hq : Unquoted key) :
    metadataKeyConditions negated i key ≠ [] ∧ ∀ a ∈ metadataKeyConditions negated i key, Other a := by
  refine ⟨List.cons_ne_nil _ _, ?_⟩
  simp only [metadataKeyConditions, List.forall_mem_cons]
  exact ⟨other_metadataJoin (inert_decimal _), other_metadataLabel (inert_decimal _) hq, List.forall_mem_nil _⟩

theorem other_valueConditions (i : Nat) (hkey : Unquoted key) (hvalue : Unquoted value) :
    metadataValueConditions negated i (key, value) ≠ [] ∧
      ∀ a ∈ metadataValueConditions negated i (key, value), Other a := by
  have hsuffix : InertText (valueSuffix i) :=
    List.forall_mem_cons.mpr ⟨by decide, List.forall_mem_cons.mpr ⟨by decide, inert_decimal _⟩⟩
  refine ⟨List.cons_ne_nil _ _, ?_⟩
  simp only [metadataValueConditions, List.forall_mem_cons]
  exact ⟨other_metadataJoin hsuffix, other_metadataLabel hsuffix hkey, other_metadataValue hsuffix hvalue,
    List.forall_mem_nil _⟩

theorem extends_metadataKey (hne : c.conditions ≠ []) (hq : ∀ v, arg = some v → Unquoted v)
    (h : filterMetadataKey false arg c = some c') : Extends c c' := by
  refine extends_optional h fun v hv hv0 h => ?_
  obtain ⟨keys, hkeys, h⟩ := Option.bind_eq_some_iff.mp h
  obtain ⟨c₁, h₁, h⟩ := Option.bind_eq_some_iff.mp h
  obtain ⟨c₂, h₂, h⟩ := Option.bind_eq_some_iff.mp h
  have hc₁ := addComma_conditions h₁
  refine ⟨.and :: metadataWords .and (metadataKeyConditions false) 0 keys, narrows_allMetadata
    (valueList_ne_nil hv0 hkeys) fun i key hkey =>
      other_keyConditions false i (unquoted_of_valueList hv0 hkeys (hq v hv) key hkey), ?_⟩
  rw [addMetadata_eq (w := .and) h, addAnd_eq_some (hc₁ ▸ hne) h₂, hc₁, textOf_cons, List.append_assoc]
  rfl

theorem extends_metadataValue (hne : c.conditions ≠ []) (hkey0 : key ≠ []) (hkey : Unquoted key)
    (hq : ∀ v, arg = some v → Unquoted v) (h : filterMetadataValue false key arg c = some c') : Extends c c' := by
  refine extends_optional h fun v hv hv0 h => ?_
  obtain ⟨keys, hkeys, h⟩ := Option.bind_eq_some_iff.mp h
  obtain ⟨values, hvalues, h⟩ := Option.bind_eq_some_iff.mp h
  obtain ⟨_, hlen, h⟩ := Option.bind_eq_some_iff.mp h
  obtain ⟨c₁, h₁, h⟩ := Option.bind_eq_some_iff.mp h
  obtain ⟨c₂, h₂, h⟩ := Option.bind_eq_some_iff.mp h
  have hc₁ := addComma_conditions h₁
  have hlen : keys.length = values.length := by
    by_contra hn
    rw [guard, if_neg hn] at hlen
    cases hlen
  have hzip : keys.zip values ≠ [] := by
    obtain ⟨k, keys', rfl⟩ := List.exists_cons_of_ne_nil (valueList_ne_nil hkey0 hkeys)
    obtain ⟨u, values', rfl⟩ := List.exists_cons_of_ne_nil (valueList_ne_nil hv0 hvalues)
    exact List.cons_ne_nil _ _
  refine ⟨.and :: metadataWords .and (metadataValueConditions false) 0 (keys.zip values), narrows_allMetadata hzip
    fun i kv hkv => ?_, ?_⟩
  · obtain ⟨hk, hu⟩ := List.of_mem_zip hkv
    exact other_valueConditions i (unquoted_of_valueList hkey0 hkeys hkey kv.1 hk)
      (unquoted_of_valueList hv0 hvalues (hq v hv) kv.2 hu)
  · rw [addMetadata_eq (w := .and) h, addAnd_eq_some (hc₁ ▸ hne) h₂, hc₁, textOf_cons, List.append_assoc]
    rfl

end Metadata

end OphidiaWorkflow.Filters
