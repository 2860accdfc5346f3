import OphidiaWorkflow.Response.RoundTrip

/-!
The trees of a document that have no root yet, over the calls that the reader makes.
-/
namespace OphidiaWorkflow.Response
open Lib

section Execute

variable {as : List Action} {d d' : Document}

/-- When the reader succeeds, all it has done is calls that have succeeded. -/
theorem execute_induction {Q : List Action → Document → Prop}
    (hstep : ∀ call as d d', d.call call = some (.success, d') → Q as d' → Q (.call call :: as) d)
    (hd : Q [] d') (h : execute as d = some (.success, d')) : Q as d := by
  induction as generalizing d with
  | nil =>
    cases h
    exact hd
  | cons a as ih =>
    cases a with
    | call c =>
      obtain ⟨⟨code, d₁⟩, hcall, h⟩ := Option.bind_eq_some_iff.mp h
      dsimp only at h
      split at h
      · next hc =>
        cases hc
        exact hstep c as d d₁ hcall (ih h)
      · cases h
    | memory => cases h
    | generic => cases h
    | crash => cases h

/-- A property that each of these calls keeps holds of the document in the end. -/
theorem execute_keeps {Q : Document → Prop}
    (hstep : ∀ call d d', .call call ∈ as → Q d → d.call call = some (.success, d') → Q d') (hd : Q d)
    (h : execute as d = some (.success, d')) : Q d' := by
  refine execute_induction (Q := fun bs d => (∀ a ∈ bs, a ∈ as) → Q d → Q d') (fun c bs d₀ d₁ hcall ih hsub hd => ?_)
    (fun _ hd => hd) h (fun a ha => ha) hd
  have hsub := List.forall_mem_cons.mp hsub
  exact ih hsub.2 (hstep c d₀ d₁ hsub.1 hd hcall)

end Execute

/-! ### Roots -/

/-- A tree without a root. -/
def isUnrooted : (c : ObjClass) → c.Obj → Bool
  | .tree, o => (ObjTree.rootnode o).isNone
  | _, _ => false

def Entry.unrooted (r : Entry) : Nat := r.objcontent.countP (isUnrooted r.objclass)

/-- The number of the trees without a root. -/
def Document.unrooted (d : Document) : Nat := (d.response.map Entry.unrooted).sum

/-- The trees that a call creates when it succeeds. -/
def Call.trees : Call → Nat
  | .tree .. => 1
  | _ => 0

/-- The roots that a call sets when it succeeds. -/
def Call.roots : Call → Nat
  | .treeRoot .. => 1
  | _ => 0

section Unrooted

variable {d d' : Document} {c : ObjClass} {objkey : List Char} {missing : Code} {call : Call}

theorem unrooted_replace (d : Document) {rs rs' : List Entry} {l : List c.Obj} (l' : List c.Obj)
    (hd : d.response = rs ++ { objclass := c, objkey, objcontent := l } :: rs') :
    ({ d with response := rs ++ { objclass := c, objkey, objcontent := l' } :: rs' } : Document).unrooted +
        l.countP (isUnrooted c) = d.unrooted + l'.countP (isUnrooted c) := by
  unfold Document.unrooted
  rw [hd]
  simp only [List.map_append, List.map_cons, List.sum_append, List.sum_cons, Entry.unrooted]
  omega

theorem addObject_unrooted {built : Option (Code × c.Obj)}
    (h : d.addObject c objkey built = some (.success, d')) :
    ∃ o, built = some (.success, o) ∧ d'.unrooted = d.unrooted + [o].countP (isUnrooted c) := by
  unfold Document.addObject at h
  split at h
  · next hmem =>
    obtain ⟨⟨code, rs⟩, hr, h⟩ := Option.map_eq_some_iff.mp h
    cases h
    rcases onEntry_cases hr with ⟨hc, -⟩ | ⟨pre, r, r', post, hd, -, hpush, rfl⟩
    · cases hc
    · rcases push_cases hpush with ⟨-, hc⟩ | ⟨key, l, o, rfl, hb, rfl⟩
      · cases hc
      · refine ⟨o, hb, ?_⟩
        have hsum := unrooted_replace d (l ++ [o]) hd
        rw [List.countP_append] at hsum
        dsimp only
        omega
  · split at h
    · next d₁ hd₁ =>
      obtain ⟨⟨code, o⟩, hb, h⟩ := Option.map_eq_some_iff.mp h
      cases h
      refine ⟨o, hb, ?_⟩
      unfold Document.unrooted
      simp [Entry.unrooted]
    · cases h

theorem onResponse_unrooted {f : c.Obj → Option (Code × c.Obj)} (hm : missing ≠ .success)
    (h : d.onResponse objkey missing (Entry.onObject c f) = some (.success, d')) :
    ∃ o o', f o = some (.success, o') ∧
      d'.unrooted + [o].countP (isUnrooted c) = d.unrooted + [o'].countP (isUnrooted c) := by
  obtain ⟨⟨code, rs⟩, hr, h⟩ := Option.map_eq_some_iff.mp h
  cases h
  rcases onEntry_cases hr with ⟨hc, -⟩ | ⟨pre, r, r', post, hd, -, hobj, rfl⟩
  · exact absurd hc.symm hm
  · rcases onObject_cases hobj with ⟨-, hc⟩ | ⟨key, init, o, o', rfl, hf, rfl⟩
    · cases hc
    · refine ⟨o, o', hf, ?_⟩
      have hsum := unrooted_replace d (init ++ [o']) hd
      rw [List.countP_append, List.countP_append] at hsum
      dsimp only
      omega

theorem onGraph_unrooted {f : Bool → ObjGraph → Option (Code × ObjGraph)} {code : Code}
    (h : d.onResponse objkey missing (Entry.onGraph f) = some (code, d')) : d'.unrooted = d.unrooted := by
  obtain ⟨⟨code, rs⟩, hr, h⟩ := Option.map_eq_some_iff.mp h
  cases h
  rcases onEntry_cases hr with ⟨-, rfl, -⟩ | ⟨pre, r, r', post, hd, -, hobj, rfl⟩
  · rfl
  · unfold Entry.onGraph at hobj
    split at hobj
    · rcases onObject_cases hobj with ⟨rfl, -⟩ | ⟨key, init, o, o', rfl, hf, rfl⟩
      · rw [← hd]
      · have hsum := unrooted_replace d (init ++ [o']) hd
        simpa [isUnrooted] using hsum
    · rcases onObject_cases hobj with ⟨rfl, -⟩ | ⟨key, init, o, o', rfl, hf, rfl⟩
      · rw [← hd]
      · have hsum := unrooted_replace d (init ++ [o']) hd
        simpa [isUnrooted] using hsum

/-- Each tree is created without a root, and no root is set twice. -/
theorem call_unrooted (h : d.call call = some (.success, d')) : d'.unrooted + call.roots = d.unrooted + call.trees := by
  have hsame (hr : d'.response = d.response) : d'.unrooted = d.unrooted := by
    rw [Document.unrooted, hr, Document.unrooted]
  have hadd {c : ObjClass} {key : List Char} {built : Option (Code × c.Obj)} (hc : c ≠ .tree)
      (h : d.addObject c key built = some (.success, d')) : d'.unrooted = d.unrooted := by
    obtain ⟨o, -, ho⟩ := addObject_unrooted h
    cases c with
    | tree => exact absurd rfl hc
    | _ => exact ho
  have hchange {c : ObjClass} {key : List Char} {f : c.Obj → Option (Code × c.Obj)}
      (hf : ∀ o o', f o = some (.success, o') → isUnrooted c o' = isUnrooted c o)
      (h : d.onResponse key .badParam (Entry.onObject c f) = some (.success, d')) : d'.unrooted = d.unrooted := by
    obtain ⟨o, o', hfo, ho⟩ := onResponse_unrooted (by simp) h
    rw [List.countP_singleton, List.countP_singleton, hf o o' hfo] at ho
    exact Nat.add_right_cancel ho
  cases call with
  | consumer name =>
    refine hsame ?_
    have h : d.addConsumer name = (.success, d') := Option.some.inj h
    unfold Document.addConsumer at h
    split at h
    · cases h
    · split at h <;> cases h
      rfl
  | source =>
    refine hsame ?_
    have h := Option.some.inj h
    unfold Document.setSource at h
    split at h <;> cases h
    rfl
  | sourceDetail =>
    refine hsame ?_
    have h := Option.some.inj h
    unfold Document.addSourceDetail at h
    split at h
    · cases congrArg Prod.snd h
      rfl
    · cases h
  | extraDetail =>
    refine hsame ?_
    have h := Option.some.inj h
    unfold Document.addExtraDetail at h
    split at h
    · cases congrArg Prod.snd h
      rfl
    · cases h
  | text key title =>
    cases title with
    | none => cases h
    | some title => exact hadd (by simp) h
  | grid key title description keys fieldtypes =>
    cases title with
    | none => cases h
    | some title =>
      unfold Document.call Document.addGrid at h
      dsimp only at h
      split at h
      · cases h
      · exact hadd (by simp) h
  | gridRow => exact hchange (fun _ _ _ => rfl) h
  | multigrid =>
    unfold Document.call Document.addMultigrid at h
    dsimp only at h
    split at h
    · split at h
      · cases h
      · exact hadd (by simp) h
    · cases h
  | multigridRow => exact hchange (fun _ _ _ => rfl) h
  | tree key title description nodekeys =>
    cases title with
    | none => cases h
    | some title =>
      obtain ⟨o, hb, ho⟩ := addObject_unrooted h
      have hroot := (newTree_cases (Option.some.inj hb)).2
      rw [List.countP_singleton, isUnrooted, hroot] at ho
      exact ho
  | treeNode =>
    refine hchange (fun o o' ho => ?_) h
    exact congrArg Option.isNone (treeNode_cases ho).2
  | treeRoot key n =>
    unfold Document.call Document.setTreeRoot at h
    dsimp only at h
    split at h
    · cases h
    · obtain ⟨o, o', hf, ho⟩ := onResponse_unrooted (by simp) h
      rcases setRoot_cases (Option.some.inj hf) with ⟨hc, -⟩ | ⟨-, hroot, rfl⟩
      · cases hc
      · have ho' : d'.unrooted + 1 = d.unrooted := by simpa [isUnrooted, hroot] using ho
        exact ho'
  | treeLink =>
    unfold Document.call Document.addTreeLink at h
    dsimp only at h
    split at h
    · cases h
    · refine hchange (fun o o' ho => ?_) h
      exact congrArg Option.isNone (treeLink_cases (Option.some.inj ho)).2
  | graph key isDigraph title =>
    cases title with
    | none => cases h
    | some title =>
      unfold Document.call Document.addGraph at h
      dsimp only at h
      split at h
      · exact hadd (by simp) h
      · exact hadd (by simp) h
  | graphNode => exact onGraph_unrooted h
  | graphLink =>
    unfold Document.call Document.addGraphLink at h
    dsimp only at h
    split at h
    · cases h
    · exact onGraph_unrooted h

/-- The trees that a list of actions creates, less the roots that it sets. -/
def Action.balance : Action → Int
  | .call c => c.trees - c.roots
  | _ => 0

theorem execute_unrooted {as : List Action} (h : execute as d = some (.success, d')) :
    (d'.unrooted : Int) = d.unrooted + (as.map Action.balance).sum := by
  refine execute_induction (Q := fun as d => (d'.unrooted : Int) = d.unrooted + (as.map Action.balance).sum)
    (fun call as d₀ d₁ hcall ih => ?_) (by simp) h
  have hstep := call_unrooted hcall
  rw [List.map_cons, List.sum_cons, Action.balance, ih]
  omega

end Unrooted

end OphidiaWorkflow.Response
