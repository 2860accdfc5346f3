import OphidiaWorkflow.Response.Objects

/-!
What a call does to one object, for all the classes: the objects it creates and those it changes.
-/
namespace OphidiaWorkflow.Response
open Lib

/-- An object as a call leaves it that creates it and answers `code`; `P` holds of the texts the call was given. -/
inductive New (P : List Char → Prop) : (c : ObjClass) → Code → c.Obj → Prop
  | text {o : ObjText} (title : P o.title) (message : ∀ s ∈ o.message, P s) : New P .text .success o
  | grid {title : List Char} {description : Option (List Char)} {keys fieldtypes : List (List Char)} {code : Code}
      {o : ObjGrid} (ht : P title) (hd : ∀ s ∈ description, P s) (hk : ∀ s ∈ keys, P s)
      (hf : ∀ s ∈ fieldtypes, P s) (keys_ne_nil : keys ≠ [])
      (h : newGrid title description keys fieldtypes = (code, o)) : New P .grid code o
  | multigrid {title measurename measuretype : List Char} {description : Option (List Char)}
      {rowkeys rowfieldtypes colkeys colfieldtypes : List (List Char)} {colvalues : List (List (List Char))}
      {code : Code} {o : ObjMultigrid} (ht : P title) (hd : ∀ s ∈ description, P s) (hrk : ∀ s ∈ rowkeys, P s)
      (hrf : ∀ s ∈ rowfieldtypes, P s) (hck : ∀ s ∈ colkeys, P s) (hcf : ∀ s ∈ colfieldtypes, P s)
      (hcv : ∀ row ∈ colvalues, ∀ s ∈ row, P s) (hmn : P measurename) (hmt : P measuretype)
      (nonempty : rowkeys ≠ [] ∧ rowfieldtypes ≠ [] ∧ colkeys ≠ [] ∧ colfieldtypes ≠ [] ∧ colvalues ≠ [])
      (h : newMultigrid title description rowkeys rowfieldtypes colkeys colfieldtypes colvalues measurename
        measuretype = some (code, o)) : New P .multigrid code o
  | tree {title : List Char} {description : Option (List Char)} {nodekeys : Option (List (List Char))} {code : Code}
      {o : ObjTree} (ht : P title) (hd : ∀ s ∈ description, P s) (hk : ∀ ks ∈ nodekeys, ∀ s ∈ ks, P s)
      (h : newTree title description nodekeys = (code, o)) : New P .tree code o
  | digraph {title : List Char} {description : Option (List Char)} {nodekeys : Option (List (List Char))}
      {code : Code} {o : ObjGraph} (ht : P title) (hd : ∀ s ∈ description, P s)
      (hk : ∀ ks ∈ nodekeys, ∀ s ∈ ks, P s) (h : newGraph title description nodekeys = (code, o)) :
      New P .digraph code o
  | graph {title : List Char} {description : Option (List Char)} {nodekeys : Option (List (List Char))}
      {code : Code} {o : ObjGraph} (ht : P title) (hd : ∀ s ∈ description, P s)
      (hk : ∀ ks ∈ nodekeys, ∀ s ∈ ks, P s) (h : newGraph title description nodekeys = (code, o)) :
      New P .graph code o

/-- An object before and after a call about its rows, its nodes, its root or its links. -/
inductive Change (P : List Char → Prop) : (c : ObjClass) → Code → c.Obj → c.Obj → Prop
  | row {values : List (List Char)} {code : Code} {o o' : ObjGrid} (hv : ∀ s ∈ values, P s)
      (h : o.addRow values = some (code, o')) : Change P .grid code o o'
  | measures {rowvalues measurevalues : List (List Char)} {code : Code} {o o' : ObjMultigrid}
      (hr : ∀ s ∈ rowvalues, P s) (hm : ∀ s ∈ measurevalues, P s)
      (h : o.addRow rowvalues measurevalues = some (code, o')) : Change P .multigrid code o o'
  | treeNode {nodevalues : Option (List (List Char))} {code : Code} {o o' : ObjTree}
      (hv : ∀ values ∈ nodevalues, ∀ s ∈ values, P s) (h : o.addNode nodevalues = some (code, o')) :
      Change P .tree code o o'
  | root {n : Nat} {code : Code} {o o' : ObjTree} (hn : toInt32 n = n) (h : o.setRoot n = (code, o')) :
      Change P .tree code o o'
  | treeLink {n m : Nat} {description : Option (List Char)} {code : Code} {o o' : ObjTree} (hn : toInt32 n = n)
      (hm : toInt32 m = m) (hd : ∀ s ∈ description, P s) (h : o.addLink n m description = (code, o')) :
      Change P .tree code o o'
  | digraphNode {nodevalues : Option (List (List Char))} {code : Code} {o o' : ObjGraph}
      (hv : ∀ values ∈ nodevalues, ∀ s ∈ values, P s) (h : o.addNode nodevalues = some (code, o')) :
      Change P .digraph code o o'
  | digraphLink {n m : Nat} {description : Option (List Char)} {code : Code} {o o' : ObjGraph} (hn : toInt32 n = n)
      (hm : toInt32 m = m) (hd : ∀ s ∈ description, P s) (h : o.addLink true n m description = (code, o')) :
      Change P .digraph code o o'
  | graphNode {nodevalues : Option (List (List Char))} {code : Code} {o o' : ObjGraph}
      (hv : ∀ values ∈ nodevalues, ∀ s ∈ values, P s) (h : o.addNode nodevalues = some (code, o')) :
      Change P .graph code o o'
  | graphLink {n m : Nat} {description : Option (List Char)} {code : Code} {o o' : ObjGraph} (hn : toInt32 n = n)
      (hm : toInt32 m = m) (hd : ∀ s ∈ description, P s) (h : o.addLink false n m description = (code, o')) :
      Change P .graph code o o'

section

variable {P : List Char → Prop} {c : ObjClass} {code : Code} {o o' : c.Obj}

theorem ObjTree.ext {t t' : ObjTree} (h : t'.toObjGraph = t.toObjGraph) (hr : t'.rootnode = t.rootnode) : t' = t := by
  cases t
  cases t'
  cases h
  cases hr
  rfl

theorem newTree_cases {title : List Char} {description : Option (List Char)} {nodekeys : Option (List (List Char))}
    {t : ObjTree} (h : newTree title description nodekeys = (code, t)) :
    newGraph title description nodekeys = (code, t.toObjGraph) ∧ t.rootnode = none := by
  rcases hg : newGraph title description nodekeys with ⟨code', g⟩
  rw [newTree, hg] at h
  cases h
  exact ⟨rfl, rfl⟩

theorem treeNode_cases {nodevalues : Option (List (List Char))} {t t' : ObjTree}
    (h : t.addNode nodevalues = some (code, t')) :
    t.toObjGraph.addNode nodevalues = some (code, t'.toObjGraph) ∧ t'.rootnode = t.rootnode := by
  obtain ⟨⟨code', g⟩, hg, h⟩ := Option.map_eq_some_iff.mp h
  cases h
  exact ⟨hg, rfl⟩

theorem treeLink_cases {n m : Nat} {description : Option (List Char)} {t t' : ObjTree}
    (h : t.addLink n m description = (code, t')) :
    t.toObjGraph.addLink true n m description = (code, t'.toObjGraph) ∧ t'.rootnode = t.rootnode := by
  rcases hg : t.toObjGraph.addLink true n m description with ⟨code', g⟩
  rw [ObjTree.addLink, hg] at h
  cases h
  exact ⟨rfl, rfl⟩

theorem setRoot_cases {n : Nat} {t t' : ObjTree} (h : t.setRoot n = (code, t')) :
    code = .badParam ∧ t' = t ∨
      code = .success ∧ t.rootnode = none ∧ t' = { t with rootnode := some (decimal n) } := by
  unfold ObjTree.setRoot at h
  split at h
  · cases h
    exact .inl ⟨rfl, rfl⟩
  · next hr =>
    cases h
    exact .inr ⟨rfl, hr, rfl⟩

theorem New.inv (h : New P c code o) : Inv c o := by
  cases h with
  | text => trivial
  | grid _ _ _ _ hk h => exact newGrid_inv hk h
  | multigrid _ _ _ _ _ _ _ _ _ hn h => exact newMultigrid_inv hn.1 hn.2.1 hn.2.2.1 hn.2.2.2.1 hn.2.2.2.2 h
  | tree _ _ _ h =>
    obtain ⟨h, hr⟩ := newTree_cases h
    exact ⟨newGraph_inv true h, by simp [hr]⟩
  | digraph _ _ _ h => exact newGraph_inv true h
  | graph _ _ _ h => exact newGraph_inv false h

theorem Change.inv (h : Change P c code o o') (hi : Inv c o) : Inv c o' := by
  cases h with
  | row _ h => exact gridRow_inv hi h
  | measures _ _ h => exact multigridRow_inv hi h
  | treeNode _ h =>
    obtain ⟨h, hr⟩ := treeNode_cases h
    exact ⟨addNode_inv hi.graph h, hr ▸ hi.root⟩
  | root hn h =>
    rcases setRoot_cases h with ⟨-, rfl⟩ | ⟨-, -, rfl⟩
    · exact hi
    · refine ⟨hi.graph, ?_⟩
      rintro s ⟨⟩
      exact ⟨_, rfl, hn⟩
  | treeLink hn hm _ h =>
    obtain ⟨h, hr⟩ := treeLink_cases h
    exact ⟨addLink_inv hi.graph hn hm h, hr ▸ hi.root⟩
  | digraphNode _ h => exact addNode_inv hi h
  | digraphLink hn hm _ h => exact addLink_inv hi hn hm h
  | graphNode _ h => exact addNode_inv hi h
  | graphLink hn hm _ h => exact addLink_inv hi hn hm h

/-- A creation that is answered with an error leaves a broken object. -/
theorem New.broken (h : New P c code o) (hc : code ≠ .success) : Broken c o := by
  cases h with
  | text => exact absurd rfl hc
  | grid _ _ _ _ _ h =>
    rcases (newGrid_cases h).2 with ⟨-, hn⟩ | ⟨rfl, -⟩
    · exact hn
    · exact absurd rfl hc
  | multigrid _ _ _ _ _ _ _ _ _ _ h =>
    rcases (newMultigrid_cases h).2 with ⟨-, hn⟩ | ⟨rfl, -⟩
    · exact hn
    · exact absurd rfl hc
  | tree _ _ _ h =>
    rcases (newGraph_cases (newTree_cases h).1).2 with ⟨-, hn⟩ | ⟨rfl, -⟩
    · exact hn
    · exact absurd rfl hc
  | digraph _ _ _ h =>
    rcases (newGraph_cases h).2 with ⟨-, hn⟩ | ⟨rfl, -⟩
    · exact hn
    · exact absurd rfl hc
  | graph _ _ _ h =>
    rcases (newGraph_cases h).2 with ⟨-, hn⟩ | ⟨rfl, -⟩
    · exact hn
    · exact absurd rfl hc

/-- The keys and the room for the values stay as the creation left them. -/
theorem addNode_broken {g g' : ObjGraph} {nodevalues : Option (List (List Char))}
    (h : g.addNode nodevalues = some (code, g')) : Broken .graph g' ↔ Broken .graph g := by
  rcases addNode_cases h with ⟨-, rfl⟩ | ⟨-, ⟨values, -, -, -, rfl⟩ | ⟨-, -, rfl⟩⟩ <;> rfl

theorem addLink_broken {g g' : ObjGraph} {directed : Bool} {n m : Nat} {description : Option (List Char)}
    (h : g.addLink directed n m description = (code, g')) : Broken .graph g' ↔ Broken .graph g := by
  rcases addLink_cases h with ⟨-, rfl⟩ | ⟨-, -, -, -, -, -, rfl⟩ <;> rfl

theorem Change.broken_iff (h : Change P c code o o') : Broken c o' ↔ Broken c o := by
  cases h with
  | row _ h =>
    obtain ⟨-, rfl, -⟩ := gridRow_cases h
    rfl
  | measures _ _ h =>
    obtain ⟨-, rfl, -⟩ := multigridRow_cases h
    rfl
  | treeNode _ h => exact addNode_broken (treeNode_cases h).1
  | root _ h => rcases setRoot_cases h with ⟨-, rfl⟩ | ⟨-, -, rfl⟩ <;> rfl
  | treeLink _ _ _ h => exact addLink_broken (treeLink_cases h).1
  | digraphNode _ h => exact addNode_broken h
  | digraphLink _ _ _ h => exact addLink_broken h
  | graphNode _ h => exact addNode_broken h
  | graphLink _ _ _ h => exact addLink_broken h

/-- The writer refuses what is broken. -/
theorem not_whole_of_broken (hi : Inv c o) (hb : Broken c o) : ¬ Whole c o := by
  intro hw
  cases c with
  | text => exact hb
  | grid => exact hi.keys_ne_nil (List.eq_nil_of_length_eq_zero (hw.2 ▸ hb))
  | multigrid => exact hi.rowkeys_ne_nil (List.eq_nil_of_length_eq_zero (hw.rowvalues ▸ hb))
  | tree => exact hb.1 (List.eq_nil_of_length_eq_zero (hw.2.1 hb.1 ▸ hb.2))
  | digraph => exact hb.1 (List.eq_nil_of_length_eq_zero (hw.1 hb.1 ▸ hb.2))
  | graph => exact hb.1 (List.eq_nil_of_length_eq_zero (hw.1 hb.1 ▸ hb.2))

/-- A call that is refused leaves the object as it is. -/
theorem Change.eq_of_refused (h : Change P c code o o') (hc : code ≠ .success) : o' = o := by
  cases h with
  | row _ h => exact absurd (gridRow_cases h).1 hc
  | measures _ _ h => exact absurd (multigridRow_cases h).1 hc
  | root _ h =>
    rcases setRoot_cases h with ⟨-, rfl⟩ | ⟨rfl, -⟩
    · rfl
    · exact absurd rfl hc
  | treeNode _ h =>
    obtain ⟨h, hr⟩ := treeNode_cases h
    rcases addNode_cases h with ⟨-, he⟩ | ⟨rfl, -⟩
    · exact ObjTree.ext he hr
    · exact absurd rfl hc
  | treeLink _ _ _ h =>
    obtain ⟨h, hr⟩ := treeLink_cases h
    rcases addLink_cases h with ⟨-, he⟩ | ⟨rfl, -⟩
    · exact ObjTree.ext he hr
    · exact absurd rfl hc
  | digraphNode _ h =>
    rcases addNode_cases h with ⟨-, rfl⟩ | ⟨rfl, -⟩
    · rfl
    · exact absurd rfl hc
  | digraphLink _ _ _ h =>
    rcases addLink_cases h with ⟨-, rfl⟩ | ⟨rfl, -⟩
    · rfl
    · exact absurd rfl hc
  | graphNode _ h =>
    rcases addNode_cases h with ⟨-, rfl⟩ | ⟨rfl, -⟩
    · rfl
    · exact absurd rfl hc
  | graphLink _ _ _ h =>
    rcases addLink_cases h with ⟨-, rfl⟩ | ⟨rfl, -⟩
    · rfl
    · exact absurd rfl hc

end
end OphidiaWorkflow.Response
