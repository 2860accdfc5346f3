import OphidiaWorkflow.Response.Steps

/-!
What holds of a document after any run of calls, whatever the calls answered.
-/
namespace OphidiaWorkflow.Response

def Extra.Inv (e : Extra) : Prop := e.keys.Nodup ∧ e.values.length = e.keys.length

/-- Keys are unique, and every entry has objects of its class. -/
structure Document.Inv (d : Document) : Prop where
  objkeys : d.objkeys.Nodup
  responseKeyset : d.responseKeyset = d.objkeys
  consumers : d.consumers.Nodup
  source : ∀ s ∈ d.source, s.toExtra.Inv
  extra : ∀ e ∈ d.extra, e.Inv ∧ e.keys ≠ []
  response : ∀ r ∈ d.response, r.objcontent ≠ [] ∧ ∀ o ∈ r.objcontent, Response.Inv r.objclass o

/-- Some object is broken. -/
def Document.Broken (d : Document) : Prop := ∃ r ∈ d.response, ∃ o ∈ r.objcontent, Response.Broken r.objclass o

variable {P : List Char → Prop} {d d' : Document} {code : Code} {call : Call} {cs : List Call}

theorem nodup_append_singleton {l : List (List Char)} {s : List Char} (hl : l.Nodup) (hs : s ∉ l) :
    (l ++ [s]).Nodup :=
  List.nodup_append.mpr ⟨hl, List.pairwise_singleton _ _, fun _ ha _ hb hab =>
    hs (List.mem_singleton.mp hb ▸ hab ▸ ha)⟩

theorem Extra.Inv.add {e : Extra} (he : e.Inv) {key value : List Char} (hk : key ∉ e.keys) :
    Extra.Inv { keys := e.keys ++ [key], values := e.values ++ [value] } := by
  refine ⟨nodup_append_singleton he.1 hk, ?_⟩
  rw [List.length_append, List.length_append, he.2]
  rfl

theorem objkeys_replace {rs rs' : List Entry} {r r' : Entry} (h : r'.objkey = r.objkey) :
    (rs ++ r' :: rs').map Entry.objkey = (rs ++ r :: rs').map Entry.objkey := by
  rw [List.map_append, List.map_append, List.map_cons, List.map_cons, h]

/-- What one entry is replaced by has to be checked only there. -/
theorem Document.Inv.replace (hi : d.Inv) {rs rs' : List Entry} {r r' : Entry} (hd : d.response = rs ++ r :: rs')
    (hkey : r'.objkey = r.objkey) (hr : r'.objcontent ≠ [] ∧ ∀ o ∈ r'.objcontent, Response.Inv r'.objclass o) :
    ({ d with response := rs ++ r' :: rs' } : Document).Inv := by
  have hkeys : (rs ++ r' :: rs').map Entry.objkey = d.objkeys := by
    rw [Document.objkeys, hd, objkeys_replace hkey]
  refine { hi with
    objkeys := ?_
    responseKeyset := hi.responseKeyset.trans hkeys.symm
    response := List.forall_mem_append.mpr ⟨fun x hx => ?_, List.forall_mem_cons.mpr ⟨hr, fun x hx => ?_⟩⟩ }
  · show ((rs ++ r' :: rs').map Entry.objkey).Nodup
    rw [hkeys]
    exact hi.objkeys
  · exact hi.response x (by rw [hd]; exact List.mem_append_left _ hx)
  · exact hi.response x (by rw [hd]; exact List.mem_append_right _ (List.mem_cons_of_mem _ hx))

theorem Step.inv (h : Step P d code d') (hi : d.Inv) : d'.Inv := by
  cases h with
  | same => exact hi
  | consumer _ h => exact { hi with consumers := nodup_append_singleton hi.consumers h }
  | source _ _ hk =>
    refine { hi with source := ?_ }
    rintro s ⟨⟩
    rw [hk]
    exact ⟨List.nodup_nil, rfl⟩
  | sourceDetail _ h hk =>
    refine { hi with source := ?_ }
    rintro s ⟨⟩
    exact (hi.source _ h).add hk
  | extraDetail _ h hk =>
    refine { hi with extra := ?_ }
    rintro e ⟨⟩
    subst h
    have he : (d.extra.getD {}).Inv := by
      cases hde : d.extra with
      | none => exact ⟨List.nodup_nil, rfl⟩
      | some e => exact (hi.extra e hde).1
    exact ⟨he.add hk, by simp⟩
  | created hs hk hr h =>
    refine { hi with
      objkeys := ?_
      responseKeyset := ?_
      response := List.forall_mem_append.mpr ⟨hi.response, List.forall_mem_singleton.mpr ⟨by simp, ?_⟩⟩ }
    · rw [Document.objkeys, List.map_append]
      exact nodup_append_singleton hi.objkeys hk
    · rw [Document.objkeys, List.map_append, hi.responseKeyset]
      rfl
    · exact List.forall_mem_singleton.mpr h.inv
  | unregistered hs hk hr => exact absurd (hi.responseKeyset ▸ hr) hk
  | pushed hd h =>
    have hr := hi.response _ (by rw [hd]; exact List.mem_append_right _ List.mem_cons_self)
    exact hi.replace hd rfl ⟨by simp, List.forall_mem_append.mpr ⟨hr.2, List.forall_mem_singleton.mpr h.inv⟩⟩
  | changed hd h =>
    have hr := (hi.response _ (by rw [hd]; exact List.mem_append_right _ List.mem_cons_self)).2
    have hinit := List.forall_mem_append.mp hr
    exact hi.replace hd rfl ⟨by simp, List.forall_mem_append.mpr
      ⟨hinit.1, List.forall_mem_singleton.mpr (h.inv (List.forall_mem_singleton.mp hinit.2))⟩⟩

/-- No call repairs what is broken. -/
theorem Step.broken (h : Step P d code d') (hb : d.Broken) : d'.Broken := by
  obtain ⟨r, hr, o, ho, hb⟩ := hb
  have hreplace {rs rs' : List Entry} {c : ObjClass} {objkey : List Char} {l l' : List c.Obj}
      (hd : d.response = rs ++ { objclass := c, objkey, objcontent := l } :: rs')
      (hl : (∃ o ∈ l, Response.Broken c o) → ∃ o ∈ l', Response.Broken c o) :
      Document.Broken { d with response := rs ++ { objclass := c, objkey, objcontent := l' } :: rs' } := by
    rw [hd] at hr
    rcases List.mem_append.mp hr with hr | hr
    · exact ⟨r, List.mem_append_left _ hr, o, ho, hb⟩
    · rcases List.mem_cons.mp hr with rfl | hr
      · obtain ⟨o', ho', hb'⟩ := hl ⟨o, ho, hb⟩
        exact ⟨_, List.mem_append_right _ List.mem_cons_self, o', ho', hb'⟩
      · exact ⟨r, List.mem_append_right _ (List.mem_cons_of_mem _ hr), o, ho, hb⟩
  cases h with
  | same => exact ⟨r, hr, o, ho, hb⟩
  | consumer => exact ⟨r, hr, o, ho, hb⟩
  | source => exact ⟨r, hr, o, ho, hb⟩
  | sourceDetail => exact ⟨r, hr, o, ho, hb⟩
  | extraDetail => exact ⟨r, hr, o, ho, hb⟩
  | created => exact ⟨r, List.mem_append_left _ hr, o, ho, hb⟩
  | unregistered => exact ⟨r, List.mem_append_left _ hr, o, ho, hb⟩
  | pushed hd h => exact hreplace hd fun ⟨o, ho, hb⟩ => ⟨o, List.mem_append_left _ ho, hb⟩
  | changed hd h =>
    refine hreplace hd fun ⟨o₁, ho₁, hb₁⟩ => ?_
    rcases List.mem_append.mp ho₁ with ho₁ | ho₁
    · exact ⟨o₁, List.mem_append_left _ ho₁, hb₁⟩
    · cases List.mem_singleton.mp ho₁
      exact ⟨_, List.mem_append_right _ List.mem_cons_self, h.broken_iff.mpr hb₁⟩

/-- A call that is answered with an error leaves the document as it is, or something broken in it. -/
theorem Step.refused (h : Step P d code d') (hi : d.Inv) (hc : code ≠ .success) : d' = d ∨ d'.Broken := by
  cases h with
  | same => exact .inl rfl
  | consumer => exact absurd rfl hc
  | source => exact absurd rfl hc
  | sourceDetail => exact absurd rfl hc
  | extraDetail => exact absurd rfl hc
  | created _ _ _ h =>
    exact .inr ⟨_, List.mem_append_right _ List.mem_cons_self, _, List.mem_cons_self, h.broken hc⟩
  | unregistered _ hk hr => exact absurd (hi.responseKeyset ▸ hr) hk
  | pushed _ h =>
    exact .inr ⟨_, List.mem_append_right _ List.mem_cons_self, _, List.mem_append_right _ List.mem_cons_self,
      h.broken hc⟩
  | changed hd h =>
    rw [h.eq_of_refused hc, ← hd]
    exact .inl rfl

theorem texts_true (call : Call) : call.Texts fun _ => True := by
  cases call <;> simp [Call.Texts]

/-- A property that every call keeps holds after every run of calls. -/
theorem calls_induction {Q : Document → Prop} (hstep : ∀ d d' call code, Q d → d.call call = some (code, d') → Q d')
    (hd : Q d) (h : d.calls cs = some d') : Q d' := by
  induction cs generalizing d with
  | nil =>
    cases h
    exact hd
  | cons c cs ih =>
    rw [Document.calls, List.foldlM_cons] at h
    obtain ⟨d₁, h₁, h⟩ := Option.bind_eq_some_iff.mp h
    obtain ⟨⟨code, d₂⟩, hcall, rfl⟩ := Option.map_eq_some_iff.mp h₁
    exact ih (hstep d d₂ c code hd hcall) h

theorem inv_empty : ({} : Document).Inv :=
  ⟨List.nodup_nil, rfl, List.nodup_nil, by simp, by simp, by simp⟩

theorem inv_calls (hi : d.Inv) (h : d.calls cs = some d') : d'.Inv :=
  calls_induction (Q := Document.Inv) (fun _ _ call _ hi hcall => (call_step (texts_true call) hcall).inv hi) hi h

/-- Whatever calls build a document and whatever they answer: keys are unique, every entry has objects, links go to other
nodes of the graph, once, and in one direction if the graph has none. Rows have as many values as the object says, which
is the number of its columns, or 0 where the creation of the object has failed half-way. -/
theorem document_inv (h : ({} : Document).calls cs = some d) : d.Inv := inv_calls inv_empty h

/-- A tree of two cubes with its root and a link, after a source with a detail. -/
def cubes : List Call :=
  [.source (some "oph".toList) (some "Ophidia".toList) none none (some "admin".toList),
    .sourceDetail (some "Session Code".toList) (some "a1".toList),
    .tree "provenance".toList (some "Datacubes".toList) none (some ["cube".toList, "level".toList]),
    .treeNode "provenance".toList (some ["1".toList, "0".toList]),
    .treeNode "provenance".toList (some ["2".toList, "1".toList]),
    .treeRoot "provenance".toList 0,
    .treeLink "provenance".toList 0 1 (some "oph_reduce".toList)]

def cubesDocument : Document where
  source := some {
    srckey := "oph".toList
    srcname := "Ophidia".toList
    srcurl := none
    description := none
    producer := some "admin".toList
    keys := ["Session Code".toList]
    values := ["a1".toList] }
  responseKeyset := ["provenance".toList]
  response := [{
    objclass := .tree
    objkey := "provenance".toList
    objcontent := [({
      title := "Datacubes".toList
      description := none
      nodekeys := ["cube".toList, "level".toList]
      nodevalues := [["1".toList, "0".toList], ["2".toList, "1".toList]]
      nodevaluesNum2 := 2
      nodelinks := [[{ node := "1".toList, description := some "oph_reduce".toList }], []]
      rootnode := some "0".toList } : ObjTree)] }]

theorem calls_cubes : ({} : Document).calls cubes = some cubesDocument := rfl

theorem document_inv_cubes : cubesDocument.Inv := document_inv calls_cubes

end OphidiaWorkflow.Response
