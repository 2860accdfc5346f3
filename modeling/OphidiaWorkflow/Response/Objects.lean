import Mathlib.Data.List.Nodup
import OphidiaWorkflow.Response.Builder

/-!
What holds of each object of a document from its creation on.

A creation that fails leaves an object with keys but with no room for values, and no later call repairs it.
-/
namespace OphidiaWorkflow.Response
open Lib

/-! ### Stored arrays -/

section Store

variable {accepts : List (List Char) → List Char → Bool} {stored l l' : List (List Char)} {b : Bool}

theorem store_prefix (h : store accepts stored l = (b, l')) : ∃ t, t <+: l ∧ l' = stored ++ t := by
  induction l generalizing stored with
  | nil =>
    cases h
    exact ⟨[], List.prefix_rfl, (List.append_nil _).symm⟩
  | cons s l ih =>
    rw [store] at h
    split at h
    · obtain ⟨t, ht, rfl⟩ := ih h
      exact ⟨s :: t, (List.prefix_cons_inj s).mpr ht, by rw [List.append_assoc, List.singleton_append]⟩
    · cases h
      exact ⟨[], List.nil_prefix, (List.append_nil _).symm⟩

theorem store_true (h : store accepts stored l = (true, l')) : l' = stored ++ l := by
  induction l generalizing stored with
  | nil =>
    cases h
    exact (List.append_nil _).symm
  | cons s l ih =>
    rw [store] at h
    split at h
    · rw [ih h, List.append_assoc, List.singleton_append]
    · cases h

/-- A property of the stored part that every accepted element keeps. -/
theorem store_keeps {P : List (List Char) → Prop} (hP : ∀ st s, P st → accepts st s = true → P (st ++ [s]))
    (hst : P stored) (h : store accepts stored l = (b, l')) : P l' := by
  induction l generalizing stored with
  | nil =>
    cases h
    exact hst
  | cons s l ih =>
    rw [store] at h
    split at h
    · next hs => exact ih (hP stored s hst hs) h
    · cases h
      exact hst

theorem storeKeys_nodup (h : storeKeys l = (b, l')) : l'.Nodup := by
  refine store_keeps (P := List.Nodup) (fun st s hst hs => ?_) List.nodup_nil h
  exact List.nodup_append.mpr ⟨hst, List.pairwise_singleton _ s, fun a ha c hc hac =>
    of_decide_eq_true hs (List.mem_singleton.mp hc ▸ hac ▸ ha)⟩

/-- The first key is never refused. -/
theorem storeKeys_ne_nil (hl : l ≠ []) (h : storeKeys l = (b, l')) : l' ≠ [] := by
  cases l with
  | nil => exact absurd rfl hl
  | cons s l =>
    have h' : store (fun stored key => key ∉ stored) [s] l = (b, l') := h
    obtain ⟨t, -, rfl⟩ := store_prefix h'
    exact List.cons_ne_nil _ _

theorem storeTypes_correct (h : storeTypes l = (b, l')) : ∀ t ∈ l', isTypeCorrect t = true := by
  refine store_keeps (P := fun l => ∀ t ∈ l, isTypeCorrect t = true) (fun st s hst hs => ?_) (by simp) h
  exact List.forall_mem_append.mpr ⟨hst, List.forall_mem_singleton.mpr hs⟩

theorem storeKeys_true (h : storeKeys l = (true, l')) : l' = l := store_true h

theorem storeTypes_true (h : storeTypes l = (true, l')) : l' = l := store_true h

theorem storeKeys_forall {P : List Char → Prop} (hl : ∀ s ∈ l, P s) (h : storeKeys l = (b, l')) : ∀ s ∈ l', P s := by
  obtain ⟨t, ht, rfl⟩ := store_prefix h
  exact fun s hs => hl s (ht.mem hs)

theorem storeTypes_forall {P : List Char → Prop} (hl : ∀ s ∈ l, P s) (h : storeTypes l = (b, l')) :
    ∀ s ∈ l', P s := by
  obtain ⟨t, ht, rfl⟩ := store_prefix h
  exact fun s hs => hl s (ht.mem hs)

theorem storeKeys_of_nodup (h : l.Nodup) : storeKeys l = (true, l) := by
  have hgen (l : List (List Char)) (stored : List (List Char)) (h : (stored ++ l).Nodup) :
      store (fun stored key => key ∉ stored) stored l = (true, stored ++ l) := by
    induction l generalizing stored with
    | nil => rw [store, List.append_nil]
    | cons s l ih =>
      have hs : s ∉ stored := fun hs => (List.nodup_append.mp h).2.2 s hs s List.mem_cons_self rfl
      rw [store, if_pos (decide_eq_true hs), ih _ (by simpa using h)]
      simp
  exact hgen l [] h

theorem storeTypes_of_correct (h : ∀ t ∈ l, isTypeCorrect t = true) : storeTypes l = (true, l) := by
  have hgen (l stored : List (List Char)) (h : ∀ t ∈ l, isTypeCorrect t = true) :
      store (fun _ type => isTypeCorrect type) stored l = (true, stored ++ l) := by
    induction l generalizing stored with
    | nil => rw [store, List.append_nil]
    | cons s l ih =>
      rw [store, if_pos (h s List.mem_cons_self), ih _ fun t ht => h t (List.mem_cons_of_mem _ ht)]
      simp
  exact hgen l [] h

end Store

/-! ### The invariants -/

/-- What the writer asks of a grid. -/
def ObjGrid.Whole (o : ObjGrid) : Prop :=
  o.keys.length = o.fieldtypes.length ∧ o.valuesNum2 = o.keys.length

/-- What the writer asks of a grid with measures. -/
structure ObjMultigrid.Whole (o : ObjMultigrid) : Prop where
  measurename : o.measurename.isSome = true
  measuretype : o.measuretype.isSome = true
  rowfieldtypes : o.rowkeys.length = o.rowfieldtypes.length
  rowvalues : o.rowvaluesNum2 = o.rowkeys.length
  colfieldtypes : o.colkeys.length = o.colfieldtypes.length
  colvalues : o.colvaluesNum2 = o.colkeys.length
  measures : o.measurevaluesNum2 = o.colvalues.length
  rows : o.measurevalues.length = o.rowvalues.length

/-- What the writer asks of the nodes of a tree or a graph. -/
def ObjGraph.Whole (o : ObjGraph) : Prop :=
  (o.nodekeys ≠ [] → o.nodevaluesNum2 = o.nodekeys.length) ∧
    (o.nodevalues ≠ [] → o.nodevalues.length = o.nodelinks.length)

structure ObjGrid.Inv (o : ObjGrid) : Prop where
  keys_ne_nil : o.keys ≠ []
  nodup : o.keys.Nodup
  types : ∀ t ∈ o.fieldtypes, isTypeCorrect t = true
  rows : ∀ row ∈ o.values, row.length = o.valuesNum2
  whole : o.valuesNum2 ≠ 0 → o.Whole

structure ObjMultigrid.Inv (o : ObjMultigrid) : Prop where
  rowkeys_ne_nil : o.rowkeys ≠ []
  rowkeys_nodup : o.rowkeys.Nodup
  rowtypes : ∀ t ∈ o.rowfieldtypes, isTypeCorrect t = true
  colkeys_nodup : o.colkeys.Nodup
  coltypes : ∀ t ∈ o.colfieldtypes, isTypeCorrect t = true
  colrows : ∀ row ∈ o.colvalues, row.length = o.colvaluesNum2
  rows : ∀ row ∈ o.rowvalues, row.length = o.rowvaluesNum2
  measurerows : ∀ row ∈ o.measurevalues, row.length = o.measurevaluesNum2
  rows_measures : o.measurevalues.length = o.rowvalues.length
  measuretype : ∀ t ∈ o.measuretype, isTypeCorrect t = true
  complete : o.rowvaluesNum2 ≠ 0 →
    o.rowvaluesNum2 = o.rowkeys.length ∧ o.colvaluesNum2 = o.colkeys.length ∧
      o.measurevaluesNum2 = o.colvalues.length ∧ o.measurename.isSome = true ∧ o.measuretype.isSome = true ∧
      o.rowfieldtypes ≠ [] ∧ o.colkeys ≠ [] ∧ o.colfieldtypes ≠ [] ∧ o.colvalues ≠ []

/-- A number as the library prints an `int`. -/
def IsNode (s : List Char) (n : Nat) : Prop := s = decimal n ∧ toInt32 n = n

structure ObjGraph.Inv (directed : Bool) (o : ObjGraph) : Prop where
  nodup : o.nodekeys.Nodup
  num2 : o.nodevaluesNum2 = 0 ∨ o.nodevaluesNum2 = o.nodekeys.length
  rows : ∀ row ∈ o.nodevalues, row.length = o.nodevaluesNum2
  nodes : o.nodevalues.length = if o.nodevaluesNum2 = 0 then 0 else o.nodelinks.length
  links : ∀ i, ∀ l ∈ o.linksOf i, toInt32 i = i ∧ ∃ n < o.nodelinks.length, n ≠ i ∧ IsNode l.node n
  once : ∀ i, ((o.linksOf i).map Link.node).Nodup
  oneway : directed = false → ∀ i j, linksTo (o.linksOf i) j = true → linksTo (o.linksOf j) i = false

structure ObjTree.Inv (o : ObjTree) : Prop where
  graph : o.toObjGraph.Inv true
  root : ∀ s ∈ o.rootnode, ∃ n, IsNode s n

/-- What holds of an object of a class in every document. -/
def Inv : (c : ObjClass) → c.Obj → Prop
  | .text, _ => True
  | .grid, o => ObjGrid.Inv o
  | .multigrid, o => ObjMultigrid.Inv o
  | .tree, o => ObjTree.Inv o
  | .digraph, o => ObjGraph.Inv true o
  | .graph, o => ObjGraph.Inv false o

/-- The creation of the object has failed. -/
def Broken : (c : ObjClass) → c.Obj → Prop
  | .text, _ => False
  | .grid, o => ObjGrid.valuesNum2 o = 0
  | .multigrid, o => ObjMultigrid.rowvaluesNum2 o = 0
  | .tree, o => ObjGraph.nodekeys (ObjTree.toObjGraph o) ≠ [] ∧ ObjGraph.nodevaluesNum2 (ObjTree.toObjGraph o) = 0
  | .digraph, o => ObjGraph.nodekeys o ≠ [] ∧ ObjGraph.nodevaluesNum2 o = 0
  | .graph, o => ObjGraph.nodekeys o ≠ [] ∧ ObjGraph.nodevaluesNum2 o = 0

/-- What the writer asks of an object. -/
def Whole : (c : ObjClass) → c.Obj → Prop
  | .text, _ => True
  | .grid, o => ObjGrid.Whole o
  | .multigrid, o => ObjMultigrid.Whole o
  | .tree, o => (ObjTree.rootnode o).isSome = true ∧ ObjGraph.Whole (ObjTree.toObjGraph o)
  | .digraph, o => ObjGraph.Whole o
  | .graph, o => ObjGraph.Whole o

def graphTexts (o : ObjGraph) : List (List Char) :=
  o.title :: (o.description.toList ++ o.nodekeys ++ o.nodevalues.flatten ++
    o.nodelinks.flatten.flatMap fun l => l.node :: l.description.toList)

/-- The texts that the writer prints of an object. -/
def texts : (c : ObjClass) → c.Obj → List (List Char)
  | .text, o => ObjText.title o :: (ObjText.message o).toList
  | .grid, o => ObjGrid.title o :: ((ObjGrid.description o).toList ++ ObjGrid.keys o ++ ObjGrid.fieldtypes o ++
      (ObjGrid.values o).flatten)
  | .multigrid, o =>
    ObjMultigrid.title o :: ((ObjMultigrid.description o).toList ++ (ObjMultigrid.measurename o).toList ++
      (ObjMultigrid.measuretype o).toList ++ ObjMultigrid.rowkeys o ++ ObjMultigrid.rowfieldtypes o ++
      (ObjMultigrid.rowvalues o).flatten ++ ObjMultigrid.colkeys o ++ ObjMultigrid.colfieldtypes o ++
      (ObjMultigrid.colvalues o).flatten ++ (ObjMultigrid.measurevalues o).flatten)
  | .tree, o => (ObjTree.rootnode o).toList ++ graphTexts (ObjTree.toObjGraph o)
  | .digraph, o => graphTexts o
  | .graph, o => graphTexts o

/-! ### Creation -/

section New

variable {title measurename measuretype : List Char} {description : Option (List Char)}
  {keys fieldtypes rowkeys rowfieldtypes colkeys colfieldtypes : List (List Char)}
  {colvalues : List (List (List Char))} {nodekeys : Option (List (List Char))} {code : Code} {P : List Char → Prop}

/-- A grid is created with its keys and types, or it stays without room for values. -/
theorem newGrid_cases {o : ObjGrid} (h : newGrid title description keys fieldtypes = (code, o)) :
    (o.title = title ∧ o.description = description ∧ o.values = [] ∧ (∃ b, storeKeys keys = (b, o.keys)) ∧
      (o.fieldtypes = [] ∨ ∃ b, storeTypes fieldtypes = (b, o.fieldtypes))) ∧
    (code = .badParam ∧ o.valuesNum2 = 0 ∨
      code = .success ∧ o.keys = keys ∧ o.fieldtypes = fieldtypes ∧ keys.length = fieldtypes.length ∧
        o.valuesNum2 = keys.length) := by
  unfold newGrid at h
  rcases hk : storeKeys keys with ⟨b, ks⟩
  rcases ht : storeTypes fieldtypes with ⟨b', ts⟩
  simp only [hk, ht] at h
  split at h
  · cases h
    exact ⟨⟨rfl, rfl, rfl, ⟨b, rfl⟩, .inl rfl⟩, .inl ⟨rfl, rfl⟩⟩
  · next hb =>
    split at h
    · cases h
      exact ⟨⟨rfl, rfl, rfl, ⟨b, rfl⟩, .inr ⟨b', rfl⟩⟩, .inl ⟨rfl, rfl⟩⟩
    · next hb' =>
      cases h
      refine ⟨⟨rfl, rfl, rfl, ⟨b, rfl⟩, .inr ⟨b', rfl⟩⟩, .inr ⟨rfl, ?_, ?_, ?_, rfl⟩⟩
      · rw [show b = true by simpa using hb] at hk
        exact storeKeys_true hk
      · rw [show b' = true by simp at hb'; exact hb'.1] at ht
        exact storeTypes_true ht
      · simp at hb'
        exact hb'.2

theorem newGrid_inv {o : ObjGrid} (hk : keys ≠ []) (h : newGrid title description keys fieldtypes = (code, o)) :
    o.Inv := by
  obtain ⟨⟨-, -, hv, ⟨b, hks⟩, hts⟩, hcases⟩ := newGrid_cases h
  refine ⟨storeKeys_ne_nil hk hks, storeKeys_nodup hks, ?_, by simp [hv], fun h0 => ?_⟩
  · rcases hts with hts | ⟨b', hts⟩
    · simp [hts]
    · exact storeTypes_correct hts
  · rcases hcases with ⟨-, hn⟩ | ⟨-, rfl, rfl, hl, hn⟩
    · exact absurd hn h0
    · exact ⟨hl, hn⟩

/-- With room for values a grid with measures is complete; a creation that fails leaves no room. -/
theorem newMultigrid_cases {o : ObjMultigrid}
    (h : newMultigrid title description rowkeys rowfieldtypes colkeys colfieldtypes colvalues measurename measuretype =
      some (code, o)) :
    ((∃ b, storeKeys rowkeys = (b, o.rowkeys)) ∧
      (o.rowfieldtypes = [] ∨ ∃ b, storeTypes rowfieldtypes = (b, o.rowfieldtypes)) ∧
      (o.colkeys = [] ∨ ∃ b, storeKeys colkeys = (b, o.colkeys)) ∧
      (o.colfieldtypes = [] ∨ ∃ b, storeTypes colfieldtypes = (b, o.colfieldtypes)) ∧
      (o.colvalues = [] ∨ o.colvalues = colvalues.map fun values => values.take colkeys.length) ∧
      (∀ row ∈ o.colvalues, row.length = o.colvaluesNum2) ∧ o.rowvalues = [] ∧ o.measurevalues = [] ∧
      o.title = title ∧ o.description = description ∧ (∀ s ∈ o.measurename, s = measurename) ∧
      ∀ t ∈ o.measuretype, t = measuretype ∧ isTypeCorrect t = true) ∧
    (code = .badParam ∧ o.rowvaluesNum2 = 0 ∨
      code = .success ∧ o.rowkeys = rowkeys ∧ o.rowfieldtypes = rowfieldtypes ∧ o.colkeys = colkeys ∧
        o.colfieldtypes = colfieldtypes ∧ o.colvalues = (colvalues.map fun values => values.take colkeys.length) ∧
        o.rowvaluesNum2 = rowkeys.length ∧ o.colvaluesNum2 = colkeys.length ∧
        o.measurevaluesNum2 = colvalues.length ∧ o.measurename = some measurename ∧
        o.measuretype = some measuretype) := by
  unfold newMultigrid at h
  rcases hrk : storeKeys rowkeys with ⟨b₁, rk⟩
  rcases hrt : storeTypes rowfieldtypes with ⟨b₂, rt⟩
  rcases hck : storeKeys colkeys with ⟨b₃, ck⟩
  rcases hct : storeTypes colfieldtypes with ⟨b₄, ct⟩
  simp only [hrk, hrt, hck, hct] at h
  split at h
  · cases h
    exact ⟨⟨⟨b₁, rfl⟩, .inl rfl, .inl rfl, .inl rfl, .inl rfl, by simp, rfl, rfl, rfl, rfl, by simp, by simp⟩,
      .inl ⟨rfl, rfl⟩⟩
  split at h
  · cases h
    exact ⟨⟨⟨b₁, rfl⟩, .inr ⟨b₂, rfl⟩, .inl rfl, .inl rfl, .inl rfl, by simp, rfl, rfl, rfl, rfl, by simp, by simp⟩,
      .inl ⟨rfl, rfl⟩⟩
  split at h
  · cases h
    exact ⟨⟨⟨b₁, rfl⟩, .inr ⟨b₂, rfl⟩, .inr ⟨b₃, rfl⟩, .inl rfl, .inl rfl, by simp, rfl, rfl, rfl, rfl, by simp,
      by simp⟩, .inl ⟨rfl, rfl⟩⟩
  split at h
  · cases h
    exact ⟨⟨⟨b₁, rfl⟩, .inr ⟨b₂, rfl⟩, .inr ⟨b₃, rfl⟩, .inr ⟨b₄, rfl⟩, .inl rfl, by simp, rfl, rfl, rfl, rfl,
      by simp, by simp⟩, .inl ⟨rfl, rfl⟩⟩
  next hb₁ hb₂ hb₃ hb₄ =>
  split at h
  · cases h
  · next hshort =>
    have hlen : ∀ row ∈ colvalues.map (fun values => values.take colkeys.length), row.length = colkeys.length := by
      intro row hrow
      obtain ⟨values, hvalues, rfl⟩ := List.mem_map.mp hrow
      have hle : colkeys.length ≤ values.length := by
        by_contra hlt
        exact hshort (List.any_eq_true.mpr ⟨values, hvalues, decide_eq_true (Nat.lt_of_not_le hlt)⟩)
      rw [List.length_take, Nat.min_eq_left hle]
    split at h
    · cases h
      exact ⟨⟨⟨b₁, rfl⟩, .inr ⟨b₂, rfl⟩, .inr ⟨b₃, rfl⟩, .inr ⟨b₄, rfl⟩, .inr rfl, hlen, rfl, rfl, rfl, rfl,
        by simp, by simp⟩, .inl ⟨rfl, rfl⟩⟩
    · next htype =>
      cases h
      rw [show b₁ = true by simpa using hb₁] at hrk
      rw [show b₂ = true by simpa using hb₂] at hrt
      rw [show b₃ = true by simpa using hb₃] at hck
      rw [show b₄ = true by simpa using hb₄] at hct
      refine ⟨⟨⟨b₁, rfl⟩, .inr ⟨b₂, rfl⟩, .inr ⟨b₃, rfl⟩, .inr ⟨b₄, rfl⟩, .inr rfl, hlen, rfl, rfl, rfl, rfl,
        by simp, ?_⟩, .inr ⟨rfl, storeKeys_true hrk, storeTypes_true hrt, storeKeys_true hck, storeTypes_true hct,
        rfl, rfl, rfl, rfl, rfl, rfl⟩⟩
      rintro t ⟨⟩
      exact ⟨rfl, by simpa using htype⟩

theorem newMultigrid_inv {o : ObjMultigrid} (hrk : rowkeys ≠ []) (hrt : rowfieldtypes ≠ []) (hck : colkeys ≠ [])
    (hct : colfieldtypes ≠ []) (hcv : colvalues ≠ [])
    (h : newMultigrid title description rowkeys rowfieldtypes colkeys colfieldtypes colvalues measurename measuretype =
      some (code, o)) : o.Inv := by
  obtain ⟨⟨⟨b, hrk'⟩, hrt', hck', hct', -, hlen, hr, hm, -, -, -, ht⟩, hcases⟩ := newMultigrid_cases h
  refine ⟨storeKeys_ne_nil hrk hrk', storeKeys_nodup hrk', ?_, ?_, ?_, hlen, by simp [hr], by simp [hm],
    by simp [hr, hm],
    fun t htm => (ht t htm).2, fun h0 => ?_⟩
  · rcases hrt' with hrt' | ⟨b', hrt'⟩
    · simp [hrt']
    · exact storeTypes_correct hrt'
  · rcases hck' with hck' | ⟨b', hck'⟩
    · simp [hck']
    · exact storeKeys_nodup hck'
  · rcases hct' with hct' | ⟨b', hct'⟩
    · simp [hct']
    · exact storeTypes_correct hct'
  · rcases hcases with ⟨-, hn⟩ | ⟨-, e₁, e₂, e₃, e₄, e₅, n₁, n₂, n₃, e₆, e₇⟩
    · exact absurd hn h0
    · rw [e₁, e₂, e₃, e₄, e₅, e₆, e₇]
      exact ⟨n₁, n₂, by simpa using n₃, rfl, rfl, hrt, hck, hct, by simpa using hcv⟩

/-- A graph is created with its keys, or it stays without room for values. -/
theorem newGraph_cases {o : ObjGraph} (h : newGraph title description nodekeys = (code, o)) :
    (o.title = title ∧ o.description = description ∧ o.nodevalues = [] ∧ o.nodelinks = [] ∧
      ∃ b, storeKeys (nodekeys.getD []) = (b, o.nodekeys)) ∧
    (code = .badParam ∧ o.nodekeys ≠ [] ∧ o.nodevaluesNum2 = 0 ∨
      code = .success ∧ o.nodekeys = nodekeys.getD [] ∧ o.nodevaluesNum2 = (nodekeys.getD []).length) := by
  cases nodekeys with
  | none =>
    cases h
    exact ⟨⟨rfl, rfl, rfl, rfl, true, rfl⟩, .inr ⟨rfl, rfl, rfl⟩⟩
  | some ks =>
    rcases hk : storeKeys ks with ⟨b, stored⟩
    simp only [newGraph, hk] at h
    split at h
    · next hb =>
      cases h
      refine ⟨⟨rfl, rfl, rfl, rfl, b, hk⟩, .inl ⟨rfl, storeKeys_ne_nil ?_ hk, rfl⟩⟩
      rintro rfl
      cases hk
      cases hb
    · next hb =>
      cases h
      rw [show b = true by simpa using hb] at hk
      exact ⟨⟨rfl, rfl, rfl, rfl, true, hk⟩, .inr ⟨rfl, storeKeys_true hk, rfl⟩⟩

theorem linksOf_eq_nil {o : ObjGraph} (h : o.nodelinks = []) (i : Nat) : o.linksOf i = [] := by
  rw [ObjGraph.linksOf, h]
  rfl

theorem newGraph_inv {o : ObjGraph} (directed : Bool) (h : newGraph title description nodekeys = (code, o)) :
    o.Inv directed := by
  obtain ⟨⟨-, -, hv, hl, b, hk⟩, hcases⟩ := newGraph_cases h
  refine ⟨storeKeys_nodup hk, ?_, by simp [hv], by simp [hv, hl], fun i l hm => ?_, fun i => ?_, fun _ i j hm => ?_⟩
  · rcases hcases with ⟨-, -, hn⟩ | ⟨-, hks, hn⟩
    · exact .inl hn
    · exact .inr (hks ▸ hn)
  · rw [linksOf_eq_nil hl] at hm
    cases hm
  · rw [linksOf_eq_nil hl]
    exact List.nodup_nil
  · rw [linksOf_eq_nil hl] at hm
    cases hm

end New

/-! ### Rows, nodes and links -/

section Change

variable {values rowvalues measurevalues : List (List Char)} {nodevalues : Option (List (List Char))}
  {description : Option (List Char)} {code : Code} {directed : Bool} {node1 node2 : Nat}

theorem gridRow_cases {o o' : ObjGrid} (h : o.addRow values = some (code, o')) :
    code = .success ∧ o' = { o with values := o.values ++ [values.take o.valuesNum2] } ∧
      o.valuesNum2 ≤ values.length := by
  unfold ObjGrid.addRow at h
  split at h
  · cases h
  · next hlen =>
    cases h
    exact ⟨rfl, rfl, Nat.le_of_not_lt hlen⟩

theorem gridRow_inv {o o' : ObjGrid} (hi : o.Inv) (h : o.addRow values = some (code, o')) : o'.Inv := by
  obtain ⟨-, rfl, hlen⟩ := gridRow_cases h
  refine ⟨hi.keys_ne_nil, hi.nodup, hi.types, List.forall_mem_append.mpr ⟨hi.rows, ?_⟩, hi.whole⟩
  exact List.forall_mem_singleton.mpr (List.length_take_of_le hlen)

theorem multigridRow_cases {o o' : ObjMultigrid} (h : o.addRow rowvalues measurevalues = some (code, o')) :
    code = .success ∧
      o' = { o with
        measurevalues := o.measurevalues ++ [measurevalues.take o.measurevaluesNum2]
        rowvalues := o.rowvalues ++ [rowvalues.take o.rowvaluesNum2] } ∧
      o.measurevaluesNum2 ≤ measurevalues.length ∧ o.rowvaluesNum2 ≤ rowvalues.length := by
  unfold ObjMultigrid.addRow at h
  split at h
  · cases h
  · next hlen =>
    cases h
    rw [not_or, Nat.not_lt, Nat.not_lt] at hlen
    exact ⟨rfl, rfl, hlen⟩

theorem multigridRow_inv {o o' : ObjMultigrid} (hi : o.Inv) (h : o.addRow rowvalues measurevalues = some (code, o')) :
    o'.Inv := by
  obtain ⟨-, rfl, hm, hr⟩ := multigridRow_cases h
  refine { hi with
    rows := List.forall_mem_append.mpr ⟨hi.rows, List.forall_mem_singleton.mpr (List.length_take_of_le hr)⟩
    measurerows := List.forall_mem_append.mpr ⟨hi.measurerows, List.forall_mem_singleton.mpr (List.length_take_of_le hm)⟩
    rows_measures := ?_ }
  simpa using hi.rows_measures

/-- A node that is refused changes nothing; otherwise it comes with its values, if there are keys, and no links. -/
theorem addNode_cases {o o' : ObjGraph} (h : o.addNode nodevalues = some (code, o')) :
    code = .badParam ∧ o' = o ∨
    code = .success ∧ (
      (∃ values, nodevalues = some values ∧ o.nodevaluesNum2 ≠ 0 ∧ o.nodevaluesNum2 ≤ values.length ∧
        o' = { o with
          nodevalues := o.nodevalues ++ [values.take o.nodevaluesNum2], nodelinks := o.nodelinks ++ [[]] }) ∨
      nodevalues = none ∧ o.nodevaluesNum2 = 0 ∧ o' = { o with nodelinks := o.nodelinks ++ [[]] }) := by
  cases nodevalues with
  | some values =>
    simp only [ObjGraph.addNode] at h
    split at h
    · cases h
      exact .inl ⟨rfl, rfl⟩
    · next hn =>
      split at h
      · cases h
      · next hlen =>
        cases h
        exact .inr ⟨rfl, .inl ⟨values, rfl, hn, Nat.le_of_not_lt hlen, rfl⟩⟩
  | none =>
    simp only [ObjGraph.addNode] at h
    split at h
    · cases h
      exact .inl ⟨rfl, rfl⟩
    · next hn =>
      cases h
      exact .inr ⟨rfl, .inr ⟨rfl, not_not.mp hn, rfl⟩⟩

theorem linksOf_append_nil (o : ObjGraph) (values : List (List (List Char))) (i : Nat) :
    ({ o with nodevalues := values, nodelinks := o.nodelinks ++ [[]] } : ObjGraph).linksOf i = o.linksOf i := by
  unfold ObjGraph.linksOf
  rw [List.getD_eq_getElem?_getD, List.getD_eq_getElem?_getD, List.getElem?_append]
  split
  · rfl
  · next hi =>
    rw [List.getElem?_eq_none (Nat.le_of_not_lt hi)]
    cases i - o.nodelinks.length <;> rfl

/-- A node without links keeps the invariant on the links. -/
theorem links_append_nil {o : ObjGraph} (hi : o.Inv directed) {values : List (List (List Char))}
    (hrows : ∀ row ∈ values, row.length = o.nodevaluesNum2)
    (hnodes : values.length = if o.nodevaluesNum2 = 0 then 0 else o.nodelinks.length + 1) :
    ({ o with nodevalues := values, nodelinks := o.nodelinks ++ [[]] } : ObjGraph).Inv directed := by
  refine ⟨hi.nodup, hi.num2, hrows, ?_, fun i l hl => ?_, fun i => ?_, fun hd i j hij => ?_⟩
  · rw [hnodes, List.length_append]
    rfl
  · rw [linksOf_append_nil] at hl
    obtain ⟨hsource, n, hn, hni, hl⟩ := hi.links i l hl
    exact ⟨hsource, n, by rw [List.length_append]; exact Nat.lt_succ_of_lt hn, hni, hl⟩
  · rw [linksOf_append_nil]
    exact hi.once i
  · rw [linksOf_append_nil] at hij ⊢
    exact hi.oneway hd i j hij

theorem addNode_inv {o o' : ObjGraph} (hi : o.Inv directed) (h : o.addNode nodevalues = some (code, o')) :
    o'.Inv directed := by
  rcases addNode_cases h with ⟨-, rfl⟩ | ⟨-, ⟨values, -, hn, hlen, rfl⟩ | ⟨-, hn, rfl⟩⟩
  · exact hi
  · refine links_append_nil hi (List.forall_mem_append.mpr ⟨hi.rows, ?_⟩) ?_
    · exact List.forall_mem_singleton.mpr (List.length_take_of_le hlen)
    · rw [List.length_append, hi.nodes, if_neg hn, if_neg hn]
      rfl
  · refine links_append_nil hi hi.rows ?_
    rw [hi.nodes, if_pos hn, if_pos hn]

theorem addLink_cases {o o' : ObjGraph} (h : o.addLink directed node1 node2 description = (code, o')) :
    code = .badParam ∧ o' = o ∨
    code = .success ∧ node1 ≠ node2 ∧ node1 < o.nodelinks.length ∧ node2 < o.nodelinks.length ∧
      (directed = false → linksTo (o.linksOf node2) node1 = false) ∧ linksTo (o.linksOf node1) node2 = false ∧
      o' = { o with nodelinks := o.nodelinks.modify node1 (· ++ [{ node := decimal node2, description }]) } := by
  unfold ObjGraph.addLink at h
  split at h
  · next hnodes =>
    split at h
    · cases h
      exact .inl ⟨rfl, rfl⟩
    · next hback =>
      split at h
      · cases h
        exact .inl ⟨rfl, rfl⟩
      · next hlink =>
        cases h
        refine .inr ⟨rfl, hnodes.1, hnodes.2.1, hnodes.2.2, ?_, by simpa using hlink, rfl⟩
        rintro rfl
        simpa using hback
  · cases h
    exact .inl ⟨rfl, rfl⟩

theorem linksOf_modify (o : ObjGraph) (h : node1 < o.nodelinks.length) (l : Link) (i : Nat) :
    ({ o with nodelinks := o.nodelinks.modify node1 (· ++ [l]) } : ObjGraph).linksOf i =
      if i = node1 then o.linksOf i ++ [l] else o.linksOf i := by
  unfold ObjGraph.linksOf
  rw [List.getD_eq_getElem?_getD, List.getD_eq_getElem?_getD, List.getElem?_modify]
  split
  · next hi =>
    rw [if_pos hi.symm, ← hi, List.getElem?_eq_getElem h]
    rfl
  · next hi =>
    rw [if_neg (Ne.symm hi)]
    simp

theorem linksTo_append (links : List Link) (n m : Nat) (description : Option (List Char)) :
    linksTo (links ++ [{ node := decimal n, description }]) m = (linksTo links m || decide (n = m)) := by
  unfold linksTo
  rw [List.any_append, List.any_cons, List.any_nil, Bool.or_false]
  congr 1
  refine decide_eq_decide.mpr ⟨fun h => ?_, fun h => by rw [h]⟩
  exact Int.ofNat_inj.mp (decimal_injective h)

theorem addLink_inv {o o' : ObjGraph} (hi : o.Inv directed) (h1 : toInt32 node1 = node1) (h2 : toInt32 node2 = node2)
    (h : o.addLink directed node1 node2 description = (code, o')) : o'.Inv directed := by
  rcases addLink_cases h with ⟨-, rfl⟩ | ⟨-, hne, h1len, h2len, hback, hnew, rfl⟩
  · exact hi
  have hlinks := linksOf_modify o h1len { node := decimal node2, description }
  refine ⟨hi.nodup, hi.num2, hi.rows, ?_, fun i l hl => ?_, fun i => ?_, fun hd i j hij => ?_⟩
  · rw [hi.nodes, List.length_modify]
  · rw [List.length_modify]
    rw [hlinks] at hl
    split at hl
    · next hin =>
      rcases List.mem_append.mp hl with hl | hl
      · exact hi.links i l hl
      · cases List.mem_singleton.mp hl
        exact ⟨hin ▸ h1, node2, h2len, hin ▸ hne.symm, rfl, h2⟩
    · exact hi.links i l hl
  · rw [hlinks]
    split
    · next hin =>
      rw [List.map_append]
      refine List.nodup_append.mpr ⟨hi.once i, List.pairwise_singleton _ _, fun s hs t ht hst => ?_⟩
      obtain ⟨l, hl, rfl⟩ := List.mem_map.mp hs
      have hto : linksTo (o.linksOf node1) node2 = true :=
        List.any_eq_true.mpr ⟨l, hin ▸ hl, decide_eq_true (hst.trans (List.mem_singleton.mp ht))⟩
      rw [hnew] at hto
      cases hto
    · exact hi.once i
  · -- the only new link is from `node1` to `node2`
    have hto (a b : Nat) :
        linksTo (({ o with nodelinks := o.nodelinks.modify node1 (· ++ [{ node := decimal node2, description }]) } :
          ObjGraph).linksOf a) b = (linksTo (o.linksOf a) b || (decide (a = node1) && decide (node2 = b))) := by
      rw [hlinks]
      split
      · next ha => rw [linksTo_append, decide_eq_true ha, Bool.true_and]
      · next ha => rw [decide_eq_false ha, Bool.false_and, Bool.or_false]
    rw [hto] at hij ⊢
    rcases Bool.or_eq_true_iff.mp hij with hold | hlast
    · rw [hi.oneway hd i j hold, Bool.false_or]
      by_contra hc
      simp only [Bool.not_eq_false, Bool.and_eq_true, decide_eq_true_eq] at hc
      obtain ⟨rfl, rfl⟩ := hc
      rw [hback hd] at hold
      cases hold
    · simp only [Bool.and_eq_true, decide_eq_true_eq] at hlast
      obtain ⟨rfl, rfl⟩ := hlast
      rw [hback hd, Bool.false_or, decide_eq_false (Ne.symm hne), Bool.false_and]

end Change
end OphidiaWorkflow.Response
