import OphidiaWorkflow.Lib.Digraph
import OphidiaWorkflow.Server.Tables

/-!
The folders that the query of a massive operation searches, and whether it leaves the home of the session.
-/
namespace OphidiaWorkflow.Filters

open Lib TaskString Folders

/-- From one to the other in a number of steps. -/
def InSteps {α : Type} (R : α → α → Prop) : Nat → α → α → Prop
  | 0, a, b => a = b
  | n + 1, a, c => ∃ b, R a b ∧ InSteps R n b c

theorem InSteps.reflTransGen {α : Type} {R : α → α → Prop} {n : Nat} {a b : α} (h : InSteps R n a b) :
    Relation.ReflTransGen R a b := by
  induction n generalizing a with
  | zero =>
    cases h
    exact .refl
  | succ n ih =>
    obtain ⟨c, hac, hcb⟩ := h
    exact .head hac (ih hcb)

/-- The second folder is one of those that the database lists for the first one. -/
def Subfolder (db : Ophidiadb) (a b : Int) : Prop := ∃ l, getSubfolders db a = some l ∧ b ∈ l

/-- How far below a folder the flag lets the search go. -/
def Allowed (recursive : Int) (n : Nat) : Prop := n = 0 ∨ 0 < recursive ∨ (n : Int) < -recursive

/-- The folder is searched. -/
def Searched (db : Ophidiadb) (recursive root id : Int) : Prop :=
  ∃ n, Allowed recursive n ∧ InSteps (Subfolder db) n root id

/-- The folders of the database are trees. -/
structure Forest (db : Ophidiadb) : Prop where
  nodup : ∀ {a l}, getSubfolders db a = some l → l.Nodup
  unique : ∀ {a b c}, Subfolder db a c → Subfolder db b c → a = b
  acyclic : Acyclic (Subfolder db)

section Search

variable {db : Ophidiadb} {negated first : Bool} {recursive root id : Int} {n fuel fuel' : Nat} {ids : List Int}
  {c c' c₁ c₂ : Clauses}

theorem allowed_succ : Allowed recursive (n + 1) ↔ deeper recursive ≠ 0 ∧ Allowed (deeper recursive) n := by
  unfold Allowed deeper
  split <;> omega

theorem searched_iff : Searched db recursive root id ↔
    id = root ∨ deeper recursive ≠ 0 ∧ ∃ sub, Subfolder db root sub ∧ Searched db (deeper recursive) sub id := by
  constructor
  · rintro ⟨n, hn, hid⟩
    cases n with
    | zero => exact .inl (Eq.symm hid)
    | succ n =>
      obtain ⟨sub, hsub, hid⟩ := hid
      exact .inr ⟨(allowed_succ.mp hn).1, sub, hsub, n, (allowed_succ.mp hn).2, hid⟩
  · rintro (rfl | ⟨hne, sub, hsub, n, hn, hid⟩)
    · exact ⟨0, .inl rfl, rfl⟩
    · exact ⟨n + 1, allowed_succ.mpr ⟨hne, hn⟩, sub, hsub, hid⟩

/-- The text that a folder and those below it add. -/
def folderList (negated first : Bool) (ids : List Int) : List Char :=
  if first then (listText negated).intercalate (ids.map (folderCondition negated))
  else (ids.map (folderCondition negated)).flatMap fun x => listText negated ++ x

theorem folderList_cons_false (id : Int) (ids : List Int) : folderList negated false (id :: ids) =
    listText negated ++ folderCondition negated id ++ folderList negated false ids := List.flatMap_cons

theorem folderList_cons (id : Int) (ids : List Int) : folderList negated first (id :: ids) =
    (if first then [] else listText negated) ++ folderCondition negated id ++ folderList negated false ids := by
  cases first with
  | false => exact folderList_cons_false id ids
  | true => exact intercalate_cons _ _ _

theorem folderList_append (ids ids' : List Int) :
    folderList negated false (ids ++ ids') = folderList negated false ids ++ folderList negated false ids' := by
  unfold folderList
  simp

theorem Searched.reaches (h : Searched db recursive root id) : Relation.ReflTransGen (Subfolder db) root id := by
  obtain ⟨n, -, h⟩ := h
  exact h.reflTransGen

/-- The folders below, each with all that is searched below it. -/
theorem foldlM_addFolder_lists {l : List Int} (hl : ∀ sub ∈ l, Subfolder db root sub)
    (ih : ∀ {id c c'}, addFolder db negated fuel recursive false id c = .ok c' →
      ∃ ids, c'.conditions = c.conditions ++ folderList negated false (id :: ids) ∧
        (∀ f, f ∈ id :: ids ↔ Searched db recursive id f) ∧ (Forest db → (id :: ids).Nodup))
    (h : l.foldlM (fun c id => addFolder db negated fuel recursive false id c) c = .ok c') :
    ∃ ids, c'.conditions = c.conditions ++ folderList negated false ids ∧
      (∀ f, f ∈ ids ↔ ∃ sub ∈ l, Searched db recursive sub f) ∧ (Forest db → l.Nodup → ids.Nodup) := by
  induction l generalizing c with
  | nil =>
    cases h
    exact ⟨[], (List.append_nil _).symm, fun f => by simp, fun _ _ => List.nodup_nil⟩
  | cons sub l ihl =>
    rw [List.foldlM_cons] at h
    obtain ⟨c₁, h₁, h⟩ := exists_of_bind_eq_ok h
    obtain ⟨ids, htext, hids, hnodup⟩ := ih h₁
    obtain ⟨ids', htext', hids', hnodup'⟩ := ihl (fun s hs => hl s (List.mem_cons_of_mem _ hs)) h
    refine ⟨sub :: ids ++ ids', by rw [htext', htext, folderList_append, List.append_assoc], fun f => ?_,
      fun hdb hl' => ?_⟩
    · rw [List.mem_append, hids, hids']
      simp only [List.mem_cons, exists_eq_or_imp]
    · obtain ⟨hsub, hl'⟩ := List.nodup_cons.mp hl'
      refine List.nodup_append.mpr ⟨hnodup hdb, hnodup' hdb hl', fun f hf f' hf' he => hsub ?_⟩
      -- what is below two folders of one folder is below the same one
      subst he
      obtain ⟨sub', hsub', hbelow⟩ := (hids' f).mp hf'
      rw [hdb.acyclic.eq_of_reaches hdb.unique (hl sub List.mem_cons_self) (hl sub' (List.mem_cons_of_mem _ hsub'))
        ((hids f).mp hf).reaches hbelow.reaches]
      exact hsub'

/-- The folders in the text are those that are searched, each after the one above it. -/
theorem addFolder_lists (h : addFolder db negated fuel recursive first root c = .ok c') :
    ∃ ids, c'.conditions = c.conditions ++ folderList negated first (root :: ids) ∧
      (∀ f, f ∈ root :: ids ↔ Searched db recursive root f) ∧ (Forest db → (root :: ids).Nodup) := by
  induction fuel generalizing recursive first root c c' with
  | zero => cases h
  | succ fuel ih =>
    rw [addFolder] at h
    obtain ⟨c₁, h₁, h⟩ := exists_of_bind_eq_ok h
    obtain ⟨c₂, h₂, h⟩ := exists_of_bind_eq_ok h
    rw [orError_eq_ok] at h₁ h₂
    have htext : c₂.conditions = c.conditions ++
        ((if first then [] else listText negated) ++ folderCondition negated root) := by
      rw [add_printed h₂, ← List.append_assoc]
      congr 1
      cases first with
      | false => exact add_eq_some h₁
      | true =>
        cases h₁
        exact (List.append_nil _).symm
    by_cases hdeep : deeper recursive = 0
    · rw [if_pos hdeep] at h
      cases h
      refine ⟨[], ?_, fun f => ?_, fun _ => List.nodup_singleton root⟩
      · rw [htext, folderList_cons]
        exact congrArg _ (List.append_nil _).symm
      · rw [List.mem_singleton, searched_iff, or_iff_left fun hd => hd.1 hdeep]
    · rw [if_neg hdeep] at h
      obtain ⟨subfolders, hsub, h⟩ := exists_of_bind_eq_ok h
      rw [orError_eq_ok] at hsub
      have hmem (sub : Int) : Subfolder db root sub ↔ sub ∈ subfolders := by
        constructor
        · rintro ⟨l, hl, hm⟩
          rw [hsub] at hl
          cases hl
          exact hm
        · exact fun hm => ⟨subfolders, hsub, hm⟩
      obtain ⟨ids, htext', hids, hnodup⟩ := foldlM_addFolder_lists (fun sub hs => (hmem sub).mpr hs) ih h
      refine ⟨ids, ?_, fun f => ?_, fun hdb => ?_⟩
      · rw [htext', htext, folderList_cons, List.append_assoc]
      · rw [List.mem_cons, hids, searched_iff, and_iff_right hdeep]
        exact or_congr_right (exists_congr fun sub => and_congr (hmem sub).symm Iff.rfl)
      · refine List.nodup_cons.mpr ⟨fun hroot => ?_, hnodup hdb (hdb.nodup hsub)⟩
        obtain ⟨sub, hs, hbelow⟩ := (hids root).mp hroot
        exact hdb.acyclic root (.head' ((hmem sub).mpr hs) hbelow.reaches)

theorem folderCondition_ne_nil (id : Int) : folderCondition negated id ≠ [] :=
  List.append_ne_nil_of_left_ne_nil (by decide +kernel) _

theorem addFolder_room (h₁ : (if first then some c else c.add (listText negated)) = some c₁)
    (h₂ : c₁.add (printed (folderCondition negated root)) = some c₂) :
    c.conditions.length < c₂.conditions.length ∧ c₂.conditions.length < maxStringSize := by
  have hc₁ : c.conditions.length ≤ c₁.conditions.length := by
    split at h₁
    · cases h₁
      exact Nat.le_refl _
    · rw [add_eq_some h₁, List.length_append]
      omega
  have hpos := List.length_pos_iff.mpr (@folderCondition_ne_nil negated root)
  refine ⟨?_, add_length_lt h₂⟩
  rw [add_printed h₂, List.length_append]
  omega

/-- Every folder takes room in the buffer, so the recursion ends, even if a folder is below itself. -/
theorem addFolder_ends (hfuel : maxStringSize - c.conditions.length < fuel) :
    addFolder db negated fuel recursive first root c ≠ .error .fuel := by
  induction fuel generalizing recursive first root c with
  | zero => cases hfuel
  | succ fuel ih =>
    rw [addFolder]
    refine orError_bind_ne fun c₁ h₁ => orError_bind_ne fun c₂ h₂ => ?_
    obtain ⟨hlonger, hroom⟩ := addFolder_room h₁ h₂
    split
    · intro h
      cases h
    · refine orError_bind_ne fun subfolders _ => ?_
      refine foldlM_ne_error (fun c => maxStringSize - c.conditions.length < fuel) (by omega) fun c id hc => ?_
      refine ⟨ih hc, fun c' h => ?_⟩
      obtain ⟨ids, htext, -, -⟩ := addFolder_lists h
      rw [htext, List.length_append]
      omega

/-- A search that has come to its end does not depend on the fuel. -/
theorem addFolder_fuel (h : addFolder db negated fuel recursive first root c ≠ .error .fuel) (hfuel : fuel ≤ fuel') :
    addFolder db negated fuel' recursive first root c = addFolder db negated fuel recursive first root c := by
  induction fuel generalizing fuel' recursive first root c with
  | zero => exact absurd rfl h
  | succ fuel ih =>
    obtain ⟨fuel', rfl⟩ := Nat.exists_eq_add_of_le' (Nat.le_trans (Nat.le_add_left 1 fuel) hfuel)
    rw [addFolder] at h
    rw [addFolder, addFolder]
    refine bind_congr_of_ne_error h fun c₁ _ h => bind_congr_of_ne_error h fun c₂ _ h => ?_
    by_cases hdeep : deeper recursive = 0
    · rw [if_pos hdeep, if_pos hdeep]
    · rw [if_neg hdeep] at h
      rw [if_neg hdeep, if_neg hdeep]
      refine bind_congr_of_ne_error h fun subfolders _ h => ?_
      exact foldlM_congr_of_ne_error (fun c id hc => ih hc (Nat.le_of_succ_le_succ hfuel)) h

end Search

/-! ### What the whole condition says -/

/-- The condition is read up to its end, with these values of its last level. -/
def Reads (ρ : List Char → Bool) (c : Clauses) (l : Level) : Prop :=
  ∃ ws, c.conditions = textOf ws ∧ (∀ a, .condition a ∈ ws → IsCondition a) ∧ readWords ρ {} ws = some ⟨false, l, []⟩

/-- All conditions hold that are not about a folder to be searched. -/
def OthersHold (ρ : List Char → Bool) : Prop := ∀ a, Other a → ρ a = true

/-- The values of the arguments stay in their quotes. -/
def Arguments.Unquoted (args : Arguments) : Prop := ∀ name v, args name = some v → Filters.Unquoted v

section Read

variable {ρ : List Char → Bool} {x : Context} {args : Arguments} {negated : Bool} {l : Level} {c c' : Clauses}
  {xs : List (List Char)} {recursive depth : Option (List Char)} {path : List Char}

theorem Reads.holds (h : Reads ρ c l) : holds ρ c.conditions = some l.value := by
  obtain ⟨ws, htext, hws, hread⟩ := h
  rw [htext]
  exact holds_text hws hread

theorem Reads.eq_true {b : Bool} (h : Reads ρ c (({} : Level).conj b)) (hc : Lib.holds ρ c.conditions = some true) :
    b = true := by
  rw [h.holds] at hc
  exact Option.some.inj hc

theorem Reads.ne_nil (h : Reads ρ c l) : c.conditions ≠ [] := by
  intro hnil
  have hholds := h.holds
  rw [hnil] at hholds
  cases hholds

theorem Reads.extends (h : Reads ρ c l) (he : Extends c c') :
    ∃ b, Reads ρ c' (l.conj b) ∧ (OthersHold ρ → b = true) := by
  obtain ⟨ws, htext, hws, hread⟩ := h
  obtain ⟨ws', hnarrows, htext'⟩ := he
  obtain ⟨b, hb, htrue⟩ := hnarrows.value ρ
  refine ⟨b, ⟨ws ++ ws', by rw [htext', htext, textOf_append], fun a ha => ?_, ?_⟩, fun hall =>
    htrue fun a ha => hall a (hnarrows.other a ha)⟩
  · exact (List.mem_append.mp ha).elim (hws a) fun ha => (hnarrows.other a ha).condition
  · rw [readWords_append hread, hb]

theorem Reads.group (h : Reads ρ c l) (hne : xs ≠ []) (hxs : ∀ a ∈ xs, IsCondition a)
    (htext' : c'.conditions = c.conditions ++ textOf (.and :: groupWords negated xs)) :
    Reads ρ c' (l.conj (if negated then xs.all ρ else xs.any ρ)) := by
  obtain ⟨ws, htext, hws, hread⟩ := h
  refine ⟨ws ++ .and :: groupWords negated xs, by rw [htext', htext, textOf_append], fun a ha => ?_, ?_⟩
  · rcases List.mem_append.mp ha with ha | ha
    · exact hws a ha
    · rcases List.mem_cons.mp ha with ha | ha
      · cases ha
      · exact hxs a (mem_group ha)
  · rw [readWords_append hread, (operand_group hne).read_and]

theorem other_basic : Other "datacube.idcontainer=container.idcontainer".toList :=
  other_of_head (c := 'd') (by decide +kernel) (by decide) (leads_inert (by decide +kernel) rfl)

theorem reads_basic (ρ : List Char → Bool) :
    ∃ b, Reads ρ basicClauses (({} : Level).conj b) ∧ (OthersHold ρ → b = true) := by
  refine ⟨_, ⟨[.condition "datacube.idcontainer=container.idcontainer".toList], (List.append_nil _).symm, ?_, rfl⟩,
    fun h => h _ other_basic⟩
  intro a ha
  cases List.mem_singleton.mp ha
  exact other_basic.condition

theorem isCondition_folder (negated : Bool) (id : Int) : IsCondition (folderCondition negated id) := by
  have hhead : "container.idfolder".toList.head? = some 'c' := by decide +kernel
  refine ⟨folderCondition_ne_nil id, fun h => ?_, leads_comparison (by decide +kernel) (unquoted_decimal id)⟩
  rw [folderCondition, comparison, head?_append_of_some hhead] at h
  cases h

theorem isFolder_folderCondition (id : Int) : isFolder (folderCondition false id) = true :=
  List.isPrefixOf_iff_prefix.mpr ⟨decimal id ++ ['\''], by
    unfold folderCondition comparison folderText
    rw [show "container.idfolder='".toList = "container.idfolder".toList ++ "='".toList by decide +kernel]
    simp [bang]⟩

theorem other_negatedFolder (id : Int) : Other (folderCondition true id) := by
  refine ⟨isCondition_folder true id, ?_⟩
  unfold folderCondition comparison
  rw [← List.append_assoc]
  exact isPrefixOf_append_eq_false (by decide +kernel)

/-- The path leads to a folder that the session may use; this and what is searched below it is listed. -/
theorem filterPath_eq (hne : c.conditions ≠ []) (hpath : path ≠ [])
    (h : filterPath x negated recursive depth (some path) c = some c') :
    ∃ root ids permission, (∃ out, pathParsing x.db [] path false = .ok (root, out)) ∧
      checkFolderSession x.db x.fuel root x.sessionid.toList = some (.ok permission) ∧ permission ≠ 0 ∧
      c'.conditions = c.conditions ++ textOf (.and :: groupWords negated ((root :: ids).map (folderCondition negated))) ∧
      ∀ f, f ∈ root :: ids ↔ Searched x.db (recursiveFlag recursive depth) root f := by
  rw [filterPath, optional_some hpath] at h
  split at h
  · cases h
  · next root out hparse =>
    split at h
    · next permission hcheck =>
      split at h
      · cases h
      · next hpermission =>
        obtain ⟨c₁, h₁, h⟩ := Option.bind_eq_some_iff.mp h
        obtain ⟨c₂, h₂, h⟩ := Option.bind_eq_some_iff.mp h
        obtain ⟨ids, htext, hids, -⟩ := addFolder_lists (eq_ok_of_toOption h₂)
        refine ⟨root, ids, permission, ⟨out, hparse⟩, hcheck, hpermission, ?_, hids⟩
        rw [add_eq_some h, htext, addGroup_eq_some hne h₁, textOf_cons, textOf_group]
        simp [Word.text, folderList]
    · cases h

theorem bind_extends {f g : Clauses → Option Clauses} (h : (f c).bind g = some c')
    (hf : ∀ c₁, f c = some c₁ → Extends c c₁)
    (hg : ∀ c₁, Extends c c₁ → g c₁ = some c' → Extends c₁ c') : Extends c c' := by
  obtain ⟨c₁, h₁, h⟩ := Option.bind_eq_some_iff.mp h
  exact (hf c₁ h₁).trans (hg c₁ (hf c₁ h₁) h)

theorem extends_common (hq : args.Unquoted) (hne : c.conditions ≠ []) (h : commonFilters x args negated c = some c') :
    Extends c c' := by
  unfold commonFilters Arguments.filter at h
  refine bind_extends h (fun c₁ h₁ => extends_level hne h₁) fun c₁ he h => ?_
  replace hne := he.ne_nil hne
  refine bind_extends h (fun c₂ h₂ => extends_measure hne (hq _) h₂) fun c₂ he h => ?_
  replace hne := he.ne_nil hne
  refine bind_extends h (fun c₃ h₃ => extends_parent hne h₃) fun c₃ he h => ?_
  replace hne := he.ne_nil hne
  refine bind_extends h (fun c₄ h₄ => extends_usingSubset hne h₄) fun c₄ he h => ?_
  replace hne := he.ne_nil hne
  split at h
  · next container hcontainer =>
    refine extends_container hne (fun v hv => ?_) h
    cases hv
    exact hq _ _ (Option.filter_eq_some_iff.mp hcontainer).1
  · exact extends_containerPid hne h

theorem extends_positiveMetadata (hq : args.Unquoted) (hne : c.conditions ≠ [])
    (hvalue : args.given "metadata_value!" = none)
    (h : metadataFilter args c = some c') : Extends c c' := by
  have hgiven {name : String} {v : List Char} (hv : args.given name = some v) : Filters.Unquoted v ∧ v ≠ [] := by
    obtain ⟨hv, hne⟩ := Option.filter_eq_some_iff.mp hv
    exact ⟨hq _ _ hv, by simpa using hne⟩
  unfold metadataFilter at h
  rw [hvalue] at h
  split at h
  · next key hkey =>
    split at h
    · next value hv =>
      refine extends_metadataValue hne (hgiven hkey).2 (hgiven hkey).1 (fun v he => ?_) h
      cases he
      exact (hgiven hv).1
    · next heq => cases heq
    · refine extends_metadataKey hne (fun v he => ?_) h
      cases he
      exact (hgiven hkey).1
  · split at h
    · cases h
    · cases h
      exact .refl c

theorem extendedPath_ne_nil {code path ext : List Char} (h : extendedPath x code path = some ext) : ext ≠ [] := by
  unfold extendedPath at h
  simp only [Option.ite_none_right_eq_some, Option.some.injEq] at h
  rw [← h.2]
  exact List.append_ne_nil_of_left_ne_nil (List.cons_ne_nil _ _) _

theorem extends_negatedPath {arg : Option (List Char)} (hne : c.conditions ≠ [])
    (h : filterPath x true recursive depth arg c = some c') : Extends c c' := by
  refine extends_optional h fun path hpath hne' _ => ?_
  obtain ⟨root, ids, -, -, -, -, htext, -⟩ := filterPath_eq hne hne' (hpath ▸ h)
  refine ⟨_, narrows_group (by simp) fun a ha => ?_, htext⟩
  obtain ⟨id, -, rfl⟩ := List.mem_map.mp ha
  exact other_negatedFolder id

theorem given_of_negatedMetadata (h : negatedMetadataFilter args c = some c') :
    args.given "metadata_value!" = none := by
  unfold negatedMetadataFilter at h
  split at h
  · split at h
    · cases h
    · next hnone =>
      have hnone : args "metadata_value!" = none := by
        cases hv : args "metadata_value!" with
        | none => rfl
        | some v => simp [hv] at hnone
      rw [Arguments.given, hnone]
      rfl
  · split at h
    · cases h
    · next hnone => simpa using hnone

/-- With two keys that are excluded or more, the last one alone decides about a disjunct. -/
theorem Reads.excluded {key : List Char} (h : Reads ρ c l) (hkey : key ≠ []) (hq : Filters.Unquoted key)
    (hc : filterMetadataKey true (some key) c = some c') :
    ∃ l', Reads ρ c' l' ∧ ('|' ∉ key → ∃ b, l' = l.conj b) ∧ ('|' ∈ key → OthersHold ρ → l'.current = true) := by
  rw [filterMetadataKey, optional_some hkey] at hc
  obtain ⟨keys, hkeys, hc⟩ := Option.bind_eq_some_iff.mp hc
  obtain ⟨c₁, h₁, hc⟩ := Option.bind_eq_some_iff.mp hc
  obtain ⟨c₂, h₂, hc⟩ := Option.bind_eq_some_iff.mp hc
  have hc₁ := addComma_conditions h₁
  have hother : ∀ i, ∀ k ∈ keys, metadataKeyConditions true i k ≠ [] ∧ ∀ a ∈ metadataKeyConditions true i k, Other a :=
    fun i k hk => other_keyConditions true i (unquoted_of_valueList hkey hkeys hq k hk)
  have htext :
      c'.conditions = c.conditions ++ textOf (.and :: metadataWords .or (metadataKeyConditions true) 0 keys) := by
    rw [addMetadata_eq (w := .or) hc, addAnd_eq_some (hc₁ ▸ h.ne_nil) h₂, hc₁, textOf_cons, List.append_assoc]
    rfl
  have hsplit := valueList_eq hkey hkeys
  obtain ⟨k, rest, rfl⟩ := List.exists_cons_of_ne_nil (valueList_ne_nil hkey hkeys)
  obtain ⟨hne, hk⟩ := hother 0 k List.mem_cons_self
  have hrest := fun i j hj => hother i j (List.mem_cons_of_mem _ hj)
  have hfirst := (operand_separated_and (ρ := ρ) hne).read_and l []
  obtain ⟨l', hl', hnil, hcons⟩ := @readWords_metadata_or _ ρ (metadataKeyConditions true) 0 rest hrest
    (l.conj ((metadataKeyConditions true 0 k).all ρ))
  obtain ⟨ws, hws, hconditions, hread⟩ := h
  refine ⟨l', ⟨ws ++ .and :: metadataWords .or (metadataKeyConditions true) 0 (k :: rest), ?_, fun a ha => ?_, ?_⟩, ?_,
    ?_⟩
  · rw [htext, hws, textOf_append]
  · rcases List.mem_append.mp ha with ha | ha
    · exact hconditions a ha
    · rcases List.mem_cons.mp ha with ha | ha
      · cases ha
      · obtain ⟨i, k', hk', ha⟩ := mem_metadataWords (listWord_ne false) ha
        exact ((hother i k' hk').2 a ha).condition
  · rw [readWords_append hread]
    exact (readWords_append hfirst).trans hl'
  · intro hbar
    rw [List.splitOn_eq_singleton hbar] at hsplit
    cases hsplit
    exact ⟨_, hnil rfl⟩
  · intro hbar hall
    refine hcons (fun hr => ?_) hall
    have hlen := congrArg List.length hsplit
    rw [length_splitOn, hr] at hlen
    have hpos := List.count_pos_iff.mpr hbar
    rw [List.length_singleton] at hlen
    omega

end Read

/-! ### The home of the session -/

/-- The database answers with the rows of the table, also the query for the folders in a folder. -/
structure FoldersAnswer (T : FolderTable) (sessionid : List Char) (home : Int) (db : Ophidiadb) : Prop
    extends SessionAnswers T sessionid home db where
  subfolders : ∀ id, db.query (subfoldersQuery id) =
    some ⟨1, (T.rows.filter fun f => f.idparent = some id).map fun f => [some (decimal f.idfolder)]⟩

/-- The folder is the home or below it. -/
def BelowHome (T : FolderTable) (home id : Int) : Prop := Relation.ReflTransGen (Parent T.rows) id home

section Home

variable {T : FolderTable} {db : Ophidiadb} {sessionid : List Char} {home id root permission recursive : Int}
  {fuel : Nat} {x : Context} {args : Arguments} {c : Clauses} {query : List Char} {negated first : Bool}

/-- The parent of a folder has a row too. -/
theorem exists_parent {f : Folder} (hf : f ∈ T.rows) {p : Int} (hp : f.idparent = some p) :
    ∃ g ∈ T.rows, g.idfolder = p := by
  have key {l : List (Int × List Char)} (h : Descends T.rows f.idfolder l) : ∃ g ∈ T.rows, g.idfolder = p := by
    generalize hid : f.idfolder = id at h
    cases h with
    | root hm =>
      have he := List.inj_on_of_nodup_map T.nodup hf hm hid
      rw [he] at hp
      cases hp
    | @child _ p' _ _ hm hd =>
      have he := List.inj_on_of_nodup_map T.nodup hf hm hid
      rw [he] at hp
      cases hp
      exact hd.exists_row
  obtain ⟨l, hl⟩ := T.rooted f hf
  exact key hl

theorem parent_of_onlyField {s : List Char} (hT : SessionAnswers T sessionid home db)
    (h : onlyField db (parentIdQuery id) = .ok (some s)) : Parent T.rows id (readInt s) := by
  by_cases hrow : ∃ f ∈ T.rows, f.idfolder = id
  · obtain ⟨f, hf, rfl⟩ := hrow
    rw [onlyField_parent hT hf] at h
    obtain ⟨p, hp, rfl⟩ := Option.map_eq_some_iff.mp (Except.ok.inj h)
    obtain ⟨g, hg, rfl⟩ := exists_parent hf hp
    rw [readInt_decimal (T.range g hg).2]
    exact (T.parent_iff hf).mpr hp
  · have hnone : (T.rows.filter fun f => f.idfolder = id) = [] :=
      List.filter_eq_nil_iff.mpr fun f hf => by simpa using fun he => hrow ⟨f, hf, he⟩
    unfold onlyField at h
    rw [hT.parent, hnone] at h
    split at h <;> cases h

/-- The loop goes from a folder to its parent until it is at the home. -/
theorem belowHome_of_searchHome (hT : SessionAnswers T sessionid home db)
    (h : searchHome db home fuel id = some (.ok permission)) (hp : permission ≠ 0) : BelowHome T home id := by
  induction fuel generalizing id with
  | zero => cases h
  | succ fuel ih =>
    rw [searchHome] at h
    split at h
    · cases h
    · cases h
      exact absurd rfl hp
    · next s hs =>
      have hparent := parent_of_onlyField hT hs
      split at h
      · next hhome => exact .single (hhome ▸ hparent)
      · exact .head hparent (ih h)

/-- What the check of a folder lets pass is below the home. -/
theorem belowHome_of_check (hT : SessionAnswers T sessionid home db) (hh : toInt32 home = home)
    (h : checkFolderSession db fuel root sessionid = some (.ok permission)) (hp : permission ≠ 0) :
    BelowHome T home root := by
  unfold checkFolderSession at h
  rw [hT.connected, getSessionHomeId_eq hT hh] at h
  split at h
  · cases h
  · split at h
    · cases h
    · dsimp only at h
      split at h
      · next he => exact he ▸ .refl
      · exact belowHome_of_searchHome hT h hp

/-- The folders that the database lists are those whose parent is the folder, in the order of the table. -/
theorem getSubfolders_eq (hT : FoldersAnswer T sessionid home db) :
    getSubfolders db id = if id = 0 ∨ mysqlBuflen ≤ (subfoldersQuery id).length then none
      else some ((T.rows.filter fun f => f.idparent = some id).map Folder.idfolder) := by
  have hread : ((T.rows.filter fun f => f.idparent = some id).map fun f => [some (decimal f.idfolder)]).mapM
      (fun row => (field row 0).map readInt) =
      some ((T.rows.filter fun f => f.idparent = some id).map Folder.idfolder) := by
    rw [mapM_eq_some_iff, List.forall₂_map_left_iff, List.forall₂_map_right_iff, List.forall₂_same]
    exact fun f hf => congrArg some (readInt_decimal (T.range f (List.mem_of_mem_filter hf)).2)
  rw [getSubfolders, hT.connected, hT.subfolders]
  dsimp only
  rw [hread]
  simp only [Bool.not_true, Bool.false_eq_true, false_or, ne_eq, not_true_eq_false, if_false]
  split
  · rfl
  · split
    · next hnil =>
      rw [List.map_eq_nil_iff.mp hnil]
      rfl
    · rfl

theorem length_subfoldersQuery (h : toInt32 id = id) : (subfoldersQuery id).length < mysqlBuflen := by
  have hbase : subfoldersText.length = 45 := by decide +kernel
  have hid := length_decimal_int32 h
  rw [subfoldersQuery, List.length_append, List.length_append, List.length_singleton, hbase, mysqlBuflen]
  omega

theorem subfolder_iff (hT : FoldersAnswer T sessionid home db) : Subfolder db root id ↔ Parent T.rows id root := by
  unfold Subfolder
  rw [getSubfolders_eq hT]
  constructor
  · rintro ⟨l, hl, hid⟩
    obtain ⟨-, hl⟩ := Option.ite_none_left_eq_some.mp hl
    cases hl
    obtain ⟨f, hf, rfl⟩ := List.mem_map.mp hid
    obtain ⟨hf, hparent⟩ := List.mem_filter.mp hf
    exact (T.parent_iff hf).mpr (of_decide_eq_true hparent)
  · rintro ⟨name, hf⟩
    obtain ⟨g, hg, rfl⟩ := exists_parent hf rfl
    have hlen := length_subfoldersQuery (T.range g hg).2
    rw [if_neg (not_or.mpr ⟨(T.range g hg).1, Nat.not_le.mpr hlen⟩)]
    exact ⟨_, rfl, List.mem_map.mpr ⟨_, List.mem_filter.mpr ⟨hf, decide_eq_true rfl⟩, rfl⟩⟩

theorem subfolder_eq (hT : FoldersAnswer T sessionid home db) : Subfolder db = Function.swap (Parent T.rows) := by
  funext a b
  exact propext (subfolder_iff hT)

theorem acc_parent {l : List (Int × List Char)} (h : Descends T.rows id l) :
    Acc (Function.swap (Parent T.rows)) id := by
  induction h with
  | @root id name hm =>
    refine ⟨_, fun p hp => ?_⟩
    cases (T.parent_iff hm).mp hp
  | @child id p name l hm _ ih =>
    refine ⟨_, fun p' hp => ?_⟩
    cases (T.parent_iff hm).mp hp
    exact ih

theorem forest_of_answers (hT : FoldersAnswer T sessionid home db) : Forest db where
  nodup h := by
    rw [getSubfolders_eq hT] at h
    obtain ⟨-, h⟩ := Option.ite_none_left_eq_some.mp h
    cases h
    exact T.nodup.sublist (List.filter_sublist.map _)
  unique h h' := by
    obtain ⟨name, hm⟩ := (subfolder_iff hT).mp h
    exact Option.some.inj ((T.parent_iff hm).mp ((subfolder_iff hT).mp h'))
  acyclic := by
    rw [subfolder_eq hT]
    refine acyclic_of_acc fun p id hp => ?_
    obtain ⟨name, hm⟩ := hp
    obtain ⟨l, hl⟩ := T.rooted _ hm
    exact acc_parent hl

/-- A database with the folders of the table and one session. -/
def folderDb (T : FolderTable) (sessionid : List Char) (home : Int) : Ophidiadb where
  connected := true
  query s :=
    if subfoldersText.isPrefixOf s then
      some ⟨1, (T.rows.filter fun f => f.idparent.any fun p => subfoldersQuery p = s).map
        fun f => [some (decimal f.idfolder)]⟩
    else if parentIdText.isPrefixOf s then
      some ⟨1, (T.rows.filter fun f => parentIdQuery f.idfolder = s).map fun f => [f.idparent.map decimal]⟩
    else if s = sessionQuery sessionid then some ⟨1, [[some (decimal home)]]⟩
    else if s = rootQuery then
      some ⟨1, (T.rows.filter fun f => f.idparent = none).map fun f => [some (decimal f.idfolder)]⟩
    else
      some ⟨1, (T.rows.filter fun f => f.idparent.any fun p => childQuery p f.foldername = s).map
        fun f => [some (decimal f.idfolder)]⟩

theorem isPrefixOf_append (a t : List Char) : a.isPrefixOf (a ++ t) = true :=
  List.isPrefixOf_iff_prefix.mpr (List.prefix_append a t)

theorem foldersAnswer_folderDb (T : FolderTable) (hs : sessionid.length ≤ 1024) (home : Int) :
    FoldersAnswer T sessionid home (folderDb T sessionid home) where
  connected := rfl
  varchar := hs
  session := by
    have hsub : subfoldersText.isPrefixOf (sessionQuery sessionid) = false :=
      isPrefixOf_append_eq_false (by decide +kernel)
    have hparent : parentIdText.isPrefixOf (sessionQuery sessionid) = false :=
      isPrefixOf_append_eq_false (by decide +kernel)
    simp only [folderDb, hsub, hparent, Bool.false_eq_true, if_true, if_false]
  parent id := by
    have hsub : subfoldersText.isPrefixOf (parentIdQuery id) = false := isPrefixOf_append_eq_false (by decide +kernel)
    have hparent : parentIdText.isPrefixOf (parentIdQuery id) = true := isPrefixOf_append _ _
    have hfilter : (T.rows.filter fun f => parentIdQuery f.idfolder = parentIdQuery id) =
        T.rows.filter fun f => f.idfolder = id := by
      refine List.filter_congr fun f _ => decide_eq_decide.mpr ?_
      exact ⟨parentIdQuery_inj, fun h => h ▸ rfl⟩
    simp only [folderDb, hsub, hparent, hfilter, Bool.false_eq_true, if_true, if_false]
  subfolders id := by
    have hsub : subfoldersText.isPrefixOf (subfoldersQuery id) = true := isPrefixOf_append _ _
    have hinj (p : Int) : subfoldersQuery p = subfoldersQuery id ↔ p = id :=
      ⟨fun h => decimal_injective (List.append_cancel_right (List.append_cancel_left h)), fun h => h ▸ rfl⟩
    have hfilter : (T.rows.filter fun f => f.idparent.any fun p => subfoldersQuery p = subfoldersQuery id) =
        T.rows.filter fun f => f.idparent = some id := by
      refine List.filter_congr fun f _ => ?_
      cases f.idparent <;> simp [hinj]
    simp only [folderDb, hsub, hfilter, if_true]

/--
The search below a folder ends, also if a folder is below itself: more fuel changes nothing. Where the folders are a
tree, it adds to the query, each once, the folders below the first one down to the depth of the flag.
-/
theorem addFolder_spec (hne : c.conditions ≠ []) :
    addFolder db negated folderFuel recursive first root c ≠ .error .fuel ∧
    (∀ fuel, folderFuel ≤ fuel → addFolder db negated fuel recursive first root c =
      addFolder db negated folderFuel recursive first root c) ∧
    ∀ c', FoldersAnswer T sessionid home db → addFolder db negated folderFuel recursive first root c = .ok c' →
      ∃ ids, c'.conditions = c.conditions ++ folderList negated first ids ∧ ids.Nodup ∧
        ∀ f, f ∈ ids ↔ ∃ n, Allowed recursive n ∧ InSteps (Function.swap (Parent T.rows)) n root f := by
  have hroom : maxStringSize - c.conditions.length < folderFuel :=
    Nat.sub_lt (by decide) (List.length_pos_iff.mpr hne)
  refine ⟨addFolder_ends hroom, fun fuel hfuel => addFolder_fuel (addFolder_ends hroom) hfuel, fun c' hT h => ?_⟩
  obtain ⟨ids, htext, hids, hnodup⟩ := addFolder_lists h
  refine ⟨root :: ids, htext, hnodup (forest_of_answers hT), fun f => ?_⟩
  rw [hids, Searched, subfolder_eq hT]

theorem addFolder_spec_home :
    ∃ c', addFolder (folderDb homeTable "s".toList 2) false folderFuel 1 true 1 basicClauses = .ok c' ∧
    ∃ ids, c'.conditions = basicClauses.conditions ++ folderList false true ids ∧ ids.Nodup ∧
      ∀ f, f ∈ ids ↔ ∃ n, Allowed 1 n ∧ InSteps (Function.swap (Parent homeTable.rows)) n 1 f := by
  have hsome : (addFolder (folderDb homeTable "s".toList 2) false folderFuel 1 true 1
      basicClauses).toOption.isSome = true := by decide +kernel
  obtain ⟨c', h⟩ := Option.isSome_iff_exists.mp hsome
  have h := eq_ok_of_toOption h
  exact ⟨c', h, (addFolder_spec (by decide +kernel)).2.2 c' (foldersAnswer_folderDb homeTable (by decide) 2) h⟩

theorem belowHome_of_searched (hT : FoldersAnswer T sessionid home db) (h : Searched db recursive root id)
    (hroot : BelowHome T home root) : BelowHome T home id := by
  obtain ⟨n, -, h⟩ := h
  induction n generalizing root with
  | zero => exact h ▸ hroot
  | succ n ih =>
    obtain ⟨sub, hsub, h⟩ := h
    exact ih (.head ((subfolder_iff hT).mp hsub) hroot) h

theorem conditions_belowHome_iff (hT : FoldersAnswer T x.sessionid.toList home x.db) (hh : toInt32 home = home)
    (hq : args.Unquoted) (h : filterClauses x (some args) = some c) :
    (∀ ρ, holds ρ c.conditions = some true → ∃ id, BelowHome T home id ∧ ρ (folderCondition false id) = true) ↔
      ∀ keys ∈ args.given "metadata_key!", '|' ∉ keys := by
  unfold filterClauses at h
  obtain ⟨code, -, h⟩ := Option.bind_eq_some_iff.mp h
  obtain ⟨path, hpath, h⟩ := Option.bind_eq_some_iff.mp h
  obtain ⟨negatedPath, -, h⟩ := Option.bind_eq_some_iff.mp h
  obtain ⟨c₁, h₁, h⟩ := Option.bind_eq_some_iff.mp h
  obtain ⟨c₂, h₂, h⟩ := Option.bind_eq_some_iff.mp h
  obtain ⟨c₃, h₃, h⟩ := Option.bind_eq_some_iff.mp h
  obtain ⟨c₄, h₄, h⟩ := Option.bind_eq_some_iff.mp h
  obtain ⟨c₅, h₅, h⟩ := Option.bind_eq_some_iff.mp h
  have hvalue := given_of_negatedMetadata h₅
  -- the filters up to the metadata that are excluded, with the folders in the conjunction
  have hfolders (ρ : List Char → Bool) : ∃ b, Reads ρ c₄ (({} : Level).conj b) ∧
      (b = true → ∃ id, BelowHome T home id ∧ ρ (folderCondition false id) = true) := by
    obtain ⟨b, hb, -⟩ := reads_basic ρ
    have h₂' := extends_common hq hb.ne_nil h₁
    obtain ⟨b', hb', -⟩ := hb.extends (h₂'.trans (extends_positiveMetadata hq (h₂'.ne_nil hb.ne_nil) hvalue h₂))
    obtain ⟨root, ids, permission, -, hcheck, hpermission, htext, hids⟩ :=
      filterPath_eq hb'.ne_nil (extendedPath_ne_nil hpath) h₃
    have hgroup := hb'.group (by simp) (fun a ha => by
      obtain ⟨id, -, rfl⟩ := List.mem_map.mp ha
      exact isCondition_folder false id) htext
    obtain ⟨b'', hb'', -⟩ := hgroup.extends (extends_common hq hgroup.ne_nil h₄)
    simp only [Level.conj_conj, Bool.false_eq_true, if_false] at hb''
    refine ⟨_, hb'', fun htrue => ?_⟩
    have hany : ((root :: ids).map (folderCondition false)).any ρ = true := by grind
    obtain ⟨a, ha, hρ⟩ := List.any_eq_true.mp hany
    obtain ⟨id, hid, rfl⟩ := List.mem_map.mp ha
    exact ⟨id, belowHome_of_searched hT ((hids id).mp hid)
      (belowHome_of_check hT.toSessionAnswers hh hcheck hpermission), hρ⟩
  unfold negatedMetadataFilter at h₅
  cases hkeys : args.given "metadata_key!" with
  | none =>
    rw [hkeys, hvalue] at h₅
    cases h₅
    refine ⟨fun _ => by simp, fun _ ρ hρ => ?_⟩
    obtain ⟨b, hb, hb'⟩ := hfolders ρ
    obtain ⟨b', hb₆, -⟩ := hb.extends (extends_negatedPath hb.ne_nil h)
    rw [Level.conj_conj] at hb₆
    exact hb' (Bool.and_eq_true_iff.mp (hb₆.eq_true hρ)).1
  | some keys =>
    obtain ⟨hsome, hne⟩ := Option.filter_eq_some_iff.mp hkeys
    have hne : keys ≠ [] := by simpa using hne
    rw [hkeys] at h₅
    dsimp only at h₅
    split at h₅
    · cases h₅
    · constructor
      · intro hselects keys' hkeys' hbar
        cases hkeys'
        -- all hold that are not about a folder, and none of the others
        let ρ : List Char → Bool := fun a => !isFolder a
        have hothers : OthersHold ρ := fun a ha => by simp [ρ, ha.not_folder]
        obtain ⟨b, hb, -⟩ := hfolders ρ
        obtain ⟨l, hl, -, hlast⟩ := hb.excluded hne (hq _ _ hsome) h₅
        obtain ⟨b', hb₆, htrue⟩ := hl.extends (extends_negatedPath hl.ne_nil h)
        obtain ⟨id, -, hρ⟩ := hselects ρ (by
          rw [hb₆.holds, htrue hothers, Level.conj_true, Level.value, hlast hbar hothers, Bool.or_true])
        simp [ρ, isFolder_folderCondition] at hρ
      · intro hbar ρ hρ
        obtain ⟨b, hb, hb'⟩ := hfolders ρ
        obtain ⟨l, hl, hone, -⟩ := hb.excluded hne (hq _ _ hsome) h₅
        obtain ⟨b', rfl⟩ := hone (hbar keys rfl)
        obtain ⟨b'', hb₆, -⟩ := hl.extends (extends_negatedPath hl.ne_nil h)
        rw [Level.conj_conj, Level.conj_conj] at hb₆
        exact hb' (Bool.and_eq_true_iff.mp (hb₆.eq_true hρ)).1

/--
What the query selects is in the home of the session or below it, whatever holds of the single cubes, exactly if not
more than one metadata key is excluded: the second one starts a disjunct that has no folders.
-/
theorem selects_belowHome_iff (hT : FoldersAnswer T x.sessionid.toList home x.db) (hh : toInt32 home = home)
    (hq : args.Unquoted) (hfit : Fits x (some args)) (h : filter x (some args) = some query) :
    (∀ ρ, holds ρ (queryCondition query) = some true →
        ∃ id, BelowHome T home id ∧ ρ (folderCondition false id) = true) ↔
      ∀ keys ∈ args.given "metadata_key!", '|' ∉ keys := by
  obtain ⟨c, hc, hquery⟩ := filter_eq_some hfit h
  rw [hquery]
  exact conditions_belowHome_iff hT hh hq hc

end Home

/-- The session `home`, whose folder has a folder in it. -/
def homeContext : Context where
  db := folderDb homeTable "http://s/sessions/home/exp".toList 2
  webServer := some "http://s"
  sessionid := "http://s/sessions/home/exp"
  cwd := ['/']
  fuel := 4

/-- All the folders, with metadata that are excluded. -/
def excluding (keys : List Char) : Arguments := fun name =>
  if name = "recursive" then some "yes".toList else if name = "metadata_key!" then some keys else none

theorem unquoted_excluding {keys : List Char} (h : Unquoted keys) : (excluding keys).Unquoted := by
  intro name v hv
  unfold excluding at hv
  split at hv
  · cases hv
    decide +kernel
  · obtain ⟨-, hv⟩ := Option.ite_none_right_eq_some.mp hv
    cases hv
    exact h

theorem selects_belowHome_excluding : ∃ query query', filter homeContext (some (excluding ['a'])) = some query ∧
    filter homeContext (some (excluding ['a', '|', 'b'])) = some query' ∧
    (∀ ρ, holds ρ (queryCondition query) = some true →
      ∃ id, BelowHome homeTable 2 id ∧ ρ (folderCondition false id) = true) ∧
    ¬ ∀ ρ, holds ρ (queryCondition query') = some true →
      ∃ id, BelowHome homeTable 2 id ∧ ρ (folderCondition false id) = true := by
  have hlen : "http://s/sessions/home/exp".toList.length ≤ 1024 := by decide +kernel
  have hT := foldersAnswer_folderDb homeTable hlen 2
  have hone : (filter homeContext (some (excluding ['a']))).isSome = true := by decide +kernel
  have htwo : (filter homeContext (some (excluding ['a', '|', 'b']))).isSome = true := by decide +kernel
  have hfit : Fits homeContext (some (excluding ['a'])) := by decide +kernel
  have hfit' : Fits homeContext (some (excluding ['a', '|', 'b'])) := by decide +kernel
  obtain ⟨query, h⟩ := Option.isSome_iff_exists.mp hone
  obtain ⟨query', h'⟩ := Option.isSome_iff_exists.mp htwo
  refine ⟨query, query', h, h', ?_, fun hall => ?_⟩
  · refine (selects_belowHome_iff hT (by decide) (unquoted_excluding (by decide)) hfit h).mpr fun keys hkeys => ?_
    cases hkeys
    decide
  · have hkeys := (selects_belowHome_iff hT (by decide) (unquoted_excluding (by decide)) hfit' h').mp hall
    exact hkeys _ rfl (by decide)

end OphidiaWorkflow.Filters
