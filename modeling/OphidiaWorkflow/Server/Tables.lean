import OphidiaWorkflow.Lib.Fuel
import OphidiaWorkflow.Lib.Occurrence
import OphidiaWorkflow.Server.Selected

/-!
The tables that the query of a massive operation joins, and where its condition starts.
-/
namespace OphidiaWorkflow.Filters

open Lib TaskString

/-- What stands between the tables and the condition of `OPH_MF_QUERY`. -/
def whereText : List Char := " WHERE ".toList

/-- The condition of a query: what comes after its first `WHERE`. -/
def queryCondition (query : List Char) : List Char :=
  ((occurrence whereText query).map (·.drop whereText.length)).getD []

/-- More tables, none named like the word before the condition, and no fewer conditions. -/
structure Joins (c c' : Clauses) : Prop where
  tables : ∃ t, 'W' ∉ t ∧ c'.tables = c.tables ++ t
  conditions : c.conditions ≠ [] → c'.conditions ≠ []

section Joined

variable {c c' c'' : Clauses} {x sep : List Char} {xs : List (List Char)}

theorem Joins.refl (c : Clauses) : Joins c c := ⟨⟨[], List.not_mem_nil, (List.append_nil _).symm⟩, id⟩

theorem Joins.trans (h : Joins c c') (h' : Joins c' c'') : Joins c c'' := by
  obtain ⟨t, ht, htables⟩ := h.tables
  obtain ⟨t', ht', htables'⟩ := h'.tables
  refine ⟨⟨t ++ t', List.not_mem_append ht ht', ?_⟩, h'.conditions ∘ h.conditions⟩
  rw [htables', htables, List.append_assoc]

theorem Joins.of_conditions (htables : c'.tables = c.tables) (h : c'.conditions = c.conditions ++ x) : Joins c c' := by
  refine ⟨⟨[], List.not_mem_nil, htables.trans (List.append_nil _).symm⟩, fun hne => ?_⟩
  rw [h]
  exact List.append_ne_nil_of_left_ne_nil hne x

theorem joins_add (h : c.add x = some c') : Joins c c' := by
  have hc := add_eq_some h
  obtain ⟨s, -, rfl⟩ := Option.map_eq_some_iff.mp h
  exact .of_conditions rfl hc

theorem joins_addJoined (h : c.addJoined sep xs = some c') : Joins c c' := by
  have hc := addJoined_eq_some h
  obtain ⟨s, -, rfl⟩ := Option.map_eq_some_iff.mp h
  exact .of_conditions rfl hc

theorem joins_addAnd (h : c.addAnd = some c') : Joins c c' := by
  unfold Clauses.addAnd at h
  split at h
  · cases h
    exact .refl c
  · exact joins_add h

theorem joins_addGroup (h : c.addGroup = some c') : Joins c c' := by
  unfold Clauses.addGroup at h
  split at h
  · cases h
    exact ⟨⟨[], List.not_mem_nil, (List.append_nil _).symm⟩, fun _ => List.cons_ne_nil _ _⟩
  · exact joins_add h

theorem joins_addTable (hx : 'W' ∉ x) (h : c.addTable x = some c') : Joins c c' := by
  obtain ⟨s, hs, rfl⟩ := Option.map_eq_some_iff.mp h
  exact ⟨⟨x, hx, append_eq_some hs⟩, id⟩

theorem joins_addComma (h : c.addComma = some c') : Joins c c' := by
  unfold Clauses.addComma at h
  split at h
  · cases h
    exact .refl c
  · exact joins_addTable (by decide) h

end Joined

section Filters

variable {c c' : Clauses} {arg : Option (List Char)} {negated first : Bool} {webServer : Option String}
  {db : Folders.Ophidiadb} {x : Context} {args : Arguments} {recursive depth : Option (List Char)} {fuel : Nat}

theorem bind_joins {α : Type} {o : Option α} {f : α → Option Clauses} (h : o.bind f = some c')
    (hf : ∀ a, o = some a → f a = some c' → Joins c c') : Joins c c' := by
  obtain ⟨a, ha, h⟩ := Option.bind_eq_some_iff.mp h
  exact hf a ha h

/-- One step after the other. -/
theorem then_joins {o : Option Clauses} {f : Clauses → Option Clauses} (h : o.bind f = some c')
    (ho : ∀ c₁, o = some c₁ → Joins c c₁) (hf : ∀ c₁, f c₁ = some c' → Joins c₁ c') : Joins c c' := by
  obtain ⟨c₁, h₁, h⟩ := Option.bind_eq_some_iff.mp h
  exact (ho c₁ h₁).trans (hf c₁ h)

theorem joins_optional {filter : List Char → Clauses → Option Clauses} (h : optional filter arg c = some c')
    (hfilter : ∀ v, filter v c = some c' → Joins c c') : Joins c c' := by
  unfold optional at h
  split at h
  · cases h
    exact .refl c
  · split at h
    · cases h
      exact .refl c
    · exact hfilter _ h

theorem joins_filterOne {condition : List Char → Option (List Char)} (h : filterOne condition arg c = some c') :
    Joins c c' :=
  joins_optional h fun _ h => bind_joins h fun _ _ h => then_joins h (fun _ => joins_addAnd) fun _ => joins_add

theorem joins_level (h : filterLevel negated arg c = some c') : Joins c c' :=
  joins_optional h fun _ h => bind_joins h fun _ _ h => then_joins h (fun _ => joins_addGroup) fun _ h =>
    then_joins h (fun _ => joins_addJoined) fun _ => joins_add

theorem joins_usingSubset (h : filterUsingSubset negated arg c = some c') : Joins c c' := by
  refine joins_optional h fun v h => then_joins h (fun _ => joins_addGroup) fun c₁ h => ?_
  split at h
  · cases h
  · exact bind_joins h fun _ _ h => then_joins h (fun _ => joins_add) fun _ => joins_add

theorem joins_parent (h : filterParent webServer negated arg c = some c') : Joins c c' := by
  refine joins_optional h fun v h => bind_joins h fun ids _ h => ?_
  have htables : 'W' ∉ taskTables := by decide +kernel
  exact then_joins h (fun _ => joins_addComma) fun _ h => then_joins h (fun _ => joins_addTable htables) fun _ h =>
    then_joins h (fun _ => joins_addAnd) fun _ => joins_add

theorem not_mem_metadataTable {suffix : List Char} (h : 'W' ∉ suffix) : 'W' ∉ metadataTable suffix :=
  List.not_mem_append (by decide +kernel) (List.not_mem_append (by decide +kernel) h)

theorem joins_metadata {α : Type} {sep : List Char} {table : Nat → List Char} {i : Nat} {xs : List α}
    {conditions : Nat → α → List (List Char)} (htable : ∀ i, 'W' ∉ table i)
    (h : addMetadata sep table conditions i xs c = some c') : Joins c c' := by
  induction xs generalizing i c with
  | nil =>
    cases h
    exact .refl _
  | cons x xs ih =>
    refine then_joins h (fun c₁ h => ?_) fun c₁ h => then_joins h (fun c₂ h => ?_) fun c₂ h =>
      then_joins h (fun c₃ h => ?_) fun c₃ h => then_joins h (fun _ => joins_add) fun _ => ih
    · split at h
      · cases h
        exact .refl c
      · exact joins_addTable (by decide) h
    · exact joins_addTable (fun hm => htable i (List.mem_of_mem_take hm)) h
    · split at h
      · cases h
        exact .refl c₂
      · exact joins_add h

theorem joins_metadataKey (h : filterMetadataKey negated arg c = some c') : Joins c c' :=
  joins_optional h fun _ h => bind_joins h fun _ _ h => then_joins h (fun _ => joins_addComma) fun _ h =>
    then_joins h (fun _ => joins_addAnd) fun _ =>
      joins_metadata fun i => not_mem_metadataTable (not_mem_decimal i rfl (by decide))

theorem joins_metadataValue {key : List Char} (h : filterMetadataValue negated key arg c = some c') : Joins c c' := by
  have hsuffix (i : Nat) : 'W' ∉ valueSuffix i :=
    List.not_mem_cons_of_ne_of_not_mem (by decide) (List.not_mem_cons_of_ne_of_not_mem (by decide)
      (not_mem_decimal i rfl (by decide)))
  exact joins_optional h fun _ h => bind_joins h fun _ _ h => bind_joins h fun _ _ h => bind_joins h fun _ _ h =>
    then_joins h (fun _ => joins_addComma) fun _ h => then_joins h (fun _ => joins_addAnd) fun _ =>
      joins_metadata fun i => not_mem_metadataTable (hsuffix i)

theorem joins_addFolder {recursive id : Int} (h : addFolder db negated fuel recursive first id c = .ok c') :
    Joins c c' := by
  induction fuel generalizing recursive first id c c' with
  | zero => cases h
  | succ fuel ih =>
    rw [addFolder] at h
    obtain ⟨c₁, h₁, h⟩ := exists_of_bind_eq_ok h
    obtain ⟨c₂, h₂, h⟩ := exists_of_bind_eq_ok h
    rw [orError_eq_ok] at h₁ h₂
    have hc₁ : Joins c c₁ := by
      split at h₁
      · cases h₁
        exact .refl c
      · exact joins_add h₁
    refine (hc₁.trans (joins_add h₂)).trans ?_
    split at h
    · cases h
      exact .refl _
    · obtain ⟨subfolders, -, h⟩ := exists_of_bind_eq_ok h
      exact foldlM_ok_induct (Joins c₂) (.refl c₂) (fun c₃ id c₄ h₃ h₄ => h₃.trans (ih h₄)) h

theorem joins_path (h : filterPath x negated recursive depth arg c = some c') : Joins c c' := by
  refine joins_optional h fun path h => ?_
  split at h
  · cases h
  · split at h
    · split at h
      · cases h
      · exact then_joins h (fun _ => joins_addGroup) fun _ h =>
          then_joins h (fun _ h => joins_addFolder (eq_ok_of_toOption h)) fun _ => joins_add
    · cases h

theorem joins_common (h : commonFilters x args negated c = some c') : Joins c c' := by
  unfold commonFilters Arguments.filter at h
  refine then_joins h (fun _ => joins_level) fun _ h => then_joins h (fun _ => joins_filterOne) fun _ h =>
    then_joins h (fun _ => joins_parent) fun _ h => then_joins h (fun _ => joins_usingSubset) fun _ h => ?_
  split at h
  · exact joins_filterOne h
  · exact joins_filterOne h

theorem joins_metadataFilter (h : metadataFilter args c = some c') : Joins c c' := by
  unfold metadataFilter at h
  split at h
  · split at h
    · exact joins_metadataValue h
    · exact joins_metadataValue h
    · exact joins_metadataKey h
  · split at h
    · cases h
    · cases h
      exact .refl c

theorem joins_negatedMetadataFilter (h : negatedMetadataFilter args c = some c') : Joins c c' := by
  unfold negatedMetadataFilter at h
  split at h
  · split at h
    · cases h
    · exact joins_metadataKey h
  · split at h
    · cases h
    · cases h
      exact .refl c

theorem joins_filterClauses {args : Option Arguments} (h : filterClauses x args = some c) : Joins basicClauses c := by
  unfold filterClauses at h
  refine bind_joins h fun code _ h => ?_
  split at h
  · exact bind_joins h fun _ _ => joins_path
  · exact bind_joins h fun _ _ h => bind_joins h fun _ _ h => then_joins h (fun _ => joins_common) fun _ h =>
      then_joins h (fun _ => joins_metadataFilter) fun _ h => then_joins h (fun _ => joins_path) fun _ h =>
        then_joins h (fun _ => joins_common) fun _ h =>
          then_joins h (fun _ => joins_negatedMetadataFilter) fun _ => joins_path

end Filters

section Query

variable {x : Context} {args : Option Arguments} {c : Clauses} {query a : List Char}

theorem not_infix_whereText (ha : 'W' ∉ a) : ¬whereText <:+: a ++ whereText.dropLast := by
  rintro ⟨s, t, h⟩
  have hwhere : whereText = [' '] ++ 'W' :: "HERE ".toList := rfl
  have hlast : whereText.dropLast = [' '] ++ 'W' :: "HERE".toList := rfl
  -- the word is the only `W` on the right side, so it is the one on the left side too
  have hs : 'W' ∉ s := by
    have hcount := congrArg (List.count 'W') h
    rw [List.count_append, List.count_append, List.count_append, List.count_eq_zero_of_not_mem ha,
      show whereText.count 'W' = 1 by decide +kernel, show whereText.dropLast.count 'W' = 1 by decide +kernel] at hcount
    exact List.count_eq_zero.mp (by omega)
  have hleft : s ++ whereText ++ t = (s ++ [' ']) ++ 'W' :: ("HERE ".toList ++ t) := by
    rw [hwhere]
    simp
  rw [hleft, hlast, ← List.append_assoc] at h
  have hcut := congrArg (cutAt 'W') h
  rw [cutAt_append_cons _ (List.not_mem_append hs (by decide)),
    cutAt_append_cons _ (List.not_mem_append ha (by decide))] at hcut
  have hlen := congrArg List.length (Prod.mk.inj (Option.some.inj hcut)).2
  rw [List.length_append] at hlen
  exact absurd hlen (by have : "HERE ".toList.length = 5 := rfl; have : "HERE".toList.length = 4 := rfl; omega)

theorem occurrence_whereText (ha : 'W' ∉ a) (b : List Char) :
    occurrence whereText (a ++ (whereText ++ b)) = some (whereText ++ b) := by
  rw [← List.append_assoc, occurrence_append_left ⟨a, [], List.append_nil _⟩,
    occurrence_append_self (not_infix_whereText ha)]
  rfl

theorem queryCondition_query (hc : 'W' ∉ c.tables) (hne : c.conditions ≠ []) :
    queryCondition c.query = c.conditions := by
  have hselect : 'W' ∉ "SELECT DISTINCT datacube.iddatacube, datacube.idcontainer FROM ".toList := by decide +kernel
  have hquery : c.query = "SELECT DISTINCT datacube.iddatacube, datacube.idcontainer FROM ".toList ++ c.tables ++
      (whereText ++ c.conditions) := by
    rw [Clauses.query, if_neg hne, List.append_assoc]
    rfl
  rw [queryCondition, hquery, occurrence_whereText (List.not_mem_append hselect hc), Option.map_some, List.drop_left]
  rfl

/-- The query is not cut off. -/
def Fits (x : Context) (args : Option Arguments) : Prop :=
  ∀ c ∈ filterClauses x args, c.query.length < maxStringSize

instance (x : Context) (args : Option Arguments) : Decidable (Fits x args) :=
  inferInstanceAs (Decidable (∀ c ∈ filterClauses x args, _))

/-- The condition of a query that fits is the one that the filters have written. -/
theorem filter_eq_some (hfit : Fits x args) (h : filter x args = some query) :
    ∃ c, filterClauses x args = some c ∧ queryCondition query = c.conditions := by
  obtain ⟨c, hc, rfl⟩ := Option.map_eq_some_iff.mp h
  refine ⟨c, hc, ?_⟩
  obtain ⟨⟨t, ht, htables⟩, hne⟩ := joins_filterClauses hc
  have hbasic : 'W' ∉ basicClauses.tables := by decide +kernel
  have hlen := hfit c hc
  rw [printed, List.take_of_length_le (by omega)]
  exact queryCondition_query (htables ▸ List.not_mem_append hbasic ht) (hne (by decide +kernel))

end Query

end OphidiaWorkflow.Filters
