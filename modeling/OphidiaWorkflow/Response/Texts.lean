import OphidiaWorkflow.Response.Writer

/-!
Where the texts of a document come from.
-/
namespace OphidiaWorkflow.Response
open Lib

section Texts

variable {P : List Char → Prop} {c : ObjClass} {code : Code} {o o' : c.Obj} {d d' : Document}

theorem take_forall {l : List (List Char)} {n : Nat} (h : ∀ s ∈ l, P s) : ∀ s ∈ l.take n, P s :=
  fun s hs => h s (List.mem_of_mem_take hs)

theorem newGraph_texts {title : List Char} {description : Option (List Char)} {nodekeys : Option (List (List Char))}
    {g : ObjGraph} (ht : P title) (hd : ∀ s ∈ description, P s) (hk : ∀ ks ∈ nodekeys, ∀ s ∈ ks, P s)
    (h : newGraph title description nodekeys = (code, g)) : ∀ s ∈ graphTexts g, P s := by
  obtain ⟨⟨htitle, hdescription, hv, hl, b, hks⟩, -⟩ := newGraph_cases h
  have hkeys : ∀ s ∈ g.nodekeys, P s := by
    refine storeKeys_forall (fun s hs => ?_) hks
    cases nodekeys with
    | none => cases hs
    | some ks => exact hk ks rfl s hs
  simp only [graphTexts, List.forall_mem_cons, List.forall_mem_append, htitle, hdescription, hv, hl]
  exact ⟨ht, ⟨⟨fun s hs => hd s (Option.mem_toList.mp hs), hkeys⟩, by simp⟩, by simp⟩

/-- An object is created with the texts of the call. -/
theorem New.texts (h : New P c code o) : ∀ s ∈ texts c o, P s := by
  cases h with
  | text title message =>
    exact List.forall_mem_cons.mpr ⟨title, fun s hs => message s (Option.mem_toList.mp hs)⟩
  | grid ht hd hk hf _ h =>
    obtain ⟨⟨rfl, rfl, hv, ⟨b, hks⟩, hts⟩, -⟩ := newGrid_cases h
    simp only [Response.texts, List.forall_mem_cons, List.forall_mem_append, hv]
    refine ⟨ht, ⟨⟨fun s hs => hd s (Option.mem_toList.mp hs), storeKeys_forall hk hks⟩, ?_⟩, by simp⟩
    rcases hts with hts | ⟨b', hts⟩
    · simp [hts]
    · exact storeTypes_forall hf hts
  | multigrid ht hd hrk hrf hck hcf hcv hmn hmt _ h =>
    obtain ⟨⟨⟨b, hrk'⟩, hrf', hck', hcf', hcv', -, hr, hm, rfl, rfl, hmn', hmt'⟩, -⟩ := newMultigrid_cases h
    simp only [Response.texts, List.forall_mem_cons, List.forall_mem_append, hr, hm]
    refine ⟨ht, ⟨⟨⟨⟨⟨⟨⟨⟨⟨fun s hs => hd s (Option.mem_toList.mp hs), ?_⟩, ?_⟩, storeKeys_forall hrk hrk'⟩, ?_⟩,
      by simp⟩, ?_⟩, ?_⟩, ?_⟩, by simp⟩⟩
    · intro s hs
      rw [hmn' s (Option.mem_toList.mp hs)]
      exact hmn
    · intro s hs
      rw [(hmt' s (Option.mem_toList.mp hs)).1]
      exact hmt
    · rcases hrf' with hrf' | ⟨b', hrf'⟩
      · simp [hrf']
      · exact storeTypes_forall hrf hrf'
    · rcases hck' with hck' | ⟨b', hck'⟩
      · simp [hck']
      · exact storeKeys_forall hck hck'
    · rcases hcf' with hcf' | ⟨b', hcf'⟩
      · simp [hcf']
      · exact storeTypes_forall hcf hcf'
    · rcases hcv' with hcv' | hcv'
      · simp [hcv']
      · rw [hcv']
        refine List.forall_mem_flatten.mpr fun row hrow => ?_
        obtain ⟨values, hvalues, rfl⟩ := List.mem_map.mp hrow
        exact take_forall (hcv values hvalues)
  | tree ht hd hk h =>
    obtain ⟨h, hroot⟩ := newTree_cases h
    refine List.forall_mem_append.mpr ⟨?_, newGraph_texts ht hd hk h⟩
    rw [hroot]
    simp
  | digraph ht hd hk h => exact newGraph_texts ht hd hk h
  | graph ht hd hk h => exact newGraph_texts ht hd hk h

theorem addNode_texts {g g' : ObjGraph} {nodevalues : Option (List (List Char))}
    (hv : ∀ values ∈ nodevalues, ∀ s ∈ values, P s) (h : g.addNode nodevalues = some (code, g'))
    (hg : ∀ s ∈ graphTexts g, P s) : ∀ s ∈ graphTexts g', P s := by
  rcases addNode_cases h with ⟨-, rfl⟩ | ⟨-, ⟨values, rfl, -, -, rfl⟩ | ⟨-, -, rfl⟩⟩
  · exact hg
  · simp only [graphTexts, List.forall_mem_cons, List.forall_mem_append, List.flatten_append, List.flatten_singleton,
      List.append_nil] at hg ⊢
    exact ⟨hg.1, ⟨hg.2.1.1, hg.2.1.2, take_forall (hv values rfl)⟩, hg.2.2⟩
  · simp only [graphTexts, List.forall_mem_cons, List.forall_mem_append, List.flatten_append, List.flatten_singleton,
      List.append_nil] at hg ⊢
    exact hg

theorem addLink_texts {g g' : ObjGraph} {directed : Bool} {n m : Nat} {description : Option (List Char)}
    (hdec : ∀ n : Nat, P (decimal n)) (hd : ∀ s ∈ description, P s)
    (h : g.addLink directed n m description = (code, g')) (hg : ∀ s ∈ graphTexts g, P s) :
    ∀ s ∈ graphTexts g', P s := by
  rcases addLink_cases h with ⟨-, rfl⟩ | ⟨-, -, hn, -, -, -, rfl⟩
  · exact hg
  · simp only [graphTexts, List.forall_mem_cons, List.forall_mem_append, List.forall_mem_flatMap,
      List.forall_mem_flatten] at hg ⊢
    refine ⟨hg.1, hg.2.1, fun links hlinks l hl => ?_⟩
    obtain ⟨i, hi, rfl⟩ := List.mem_iff_getElem.mp hlinks
    rw [List.getElem_modify] at hl
    rw [List.length_modify] at hi
    split at hl
    · rcases List.mem_append.mp hl with hl | hl
      · exact hg.2.2 _ (List.getElem_mem hi) l hl
      · cases List.mem_singleton.mp hl
        exact ⟨hdec m, fun s hs => hd s (Option.mem_toList.mp hs)⟩
    · exact hg.2.2 _ (List.getElem_mem hi) l hl

/-- Every other text that a call leaves in an object is one of its own, or a number. -/
theorem Change.texts (hdec : ∀ n : Nat, P (decimal n)) (h : Change P c code o o') (ho : ∀ s ∈ texts c o, P s) :
    ∀ s ∈ texts c o', P s := by
  cases h with
  | row hv h =>
    obtain ⟨-, rfl, -⟩ := gridRow_cases h
    simp only [Response.texts, List.forall_mem_cons, List.forall_mem_append, List.flatten_append,
      List.flatten_singleton] at ho ⊢
    exact ⟨ho.1, ho.2.1, ho.2.2, take_forall hv⟩
  | measures hr hm h =>
    obtain ⟨-, rfl, -, -⟩ := multigridRow_cases h
    simp only [Response.texts, List.forall_mem_cons, List.forall_mem_append, List.flatten_append,
      List.flatten_singleton] at ho ⊢
    obtain ⟨ht, ⟨⟨⟨⟨⟨hrest, hrv⟩, hck⟩, hcf⟩, hcv⟩, hmv⟩⟩ := ho
    exact ⟨ht, ⟨⟨⟨⟨⟨hrest, hrv, take_forall hr⟩, hck⟩, hcf⟩, hcv⟩, hmv, take_forall hm⟩⟩
  | treeNode hv h =>
    obtain ⟨h, hroot⟩ := treeNode_cases h
    have ho := List.forall_mem_append.mp ho
    exact List.forall_mem_append.mpr ⟨hroot ▸ ho.1, addNode_texts hv h ho.2⟩
  | root hn h =>
    rcases setRoot_cases h with ⟨-, rfl⟩ | ⟨-, -, rfl⟩
    · exact ho
    · refine List.forall_mem_append.mpr ⟨?_, (List.forall_mem_append.mp ho).2⟩
      exact List.forall_mem_singleton.mpr (hdec _)
  | treeLink _ _ hd h =>
    obtain ⟨h, hroot⟩ := treeLink_cases h
    have ho := List.forall_mem_append.mp ho
    exact List.forall_mem_append.mpr ⟨hroot ▸ ho.1, addLink_texts hdec hd h ho.2⟩
  | digraphNode hv h => exact addNode_texts hv h ho
  | digraphLink _ _ hd h => exact addLink_texts hdec hd h ho
  | graphNode hv h => exact addNode_texts hv h ho
  | graphLink _ _ hd h => exact addLink_texts hdec hd h ho

theorem texts_replace (hd : ∀ t ∈ d.texts, P t) {rs rs' : List Entry} {objkey : List Char} {l l' : List c.Obj}
    (h : d.response = rs ++ { objclass := c, objkey, objcontent := l } :: rs')
    (hl : (∀ o ∈ l, ∀ t ∈ Response.texts c o, P t) → ∀ o ∈ l', ∀ t ∈ Response.texts c o, P t) :
    ∀ t ∈ ({ d with response := rs ++ { objclass := c, objkey, objcontent := l' } :: rs' } : Document).texts, P t := by
  simp only [Document.texts, h, Entry.texts, List.forall_mem_append, List.forall_mem_flatMap, List.forall_mem_cons]
    at hd ⊢
  obtain ⟨hrest, hrs, ⟨hkey, ho⟩, hrs'⟩ := hd
  exact ⟨hrest, hrs, ⟨hkey, hl ho⟩, hrs'⟩

/-- All the texts of a document come from the calls, the numbers of the nodes apart. -/
theorem Step.texts (hdec : ∀ n : Nat, P (decimal n)) (h : Step P d code d') (hd : ∀ t ∈ d.texts, P t) :
    ∀ t ∈ d'.texts, P t := by
  cases h with
  | same => exact hd
  | consumer hs =>
    simp only [Document.texts, List.forall_mem_append, List.forall_mem_singleton] at hd ⊢
    exact ⟨⟨⟨hd.1.1.1, hd.1.1.2, hs⟩, hd.1.2⟩, hd.2⟩
  | source hs =>
    simp only [Document.texts, List.forall_mem_append] at hd ⊢
    exact ⟨⟨⟨⟨hs, hd.1.1.1.2⟩, hd.1.1.2⟩, hd.1.2⟩, hd.2⟩
  | sourceDetail hs h =>
    simp only [Document.texts, h, Option.map_some, Option.getD_some, Source.texts, List.forall_mem_append,
      List.forall_mem_cons] at hd ⊢
    obtain ⟨⟨⟨⟨⟨hk, hn, ⟨hopt, hks⟩, hvs⟩, he⟩, hc⟩, hkeyset⟩, hr⟩ := hd
    exact ⟨⟨⟨⟨⟨hk, hn, ⟨hopt, hks, hs.1, by simp⟩, hvs, hs.2, by simp⟩, he⟩, hc⟩, hkeyset⟩, hr⟩
  | extraDetail hs h =>
    subst h
    have he : (∀ s ∈ (d.extra.getD {}).keys, P s) ∧ ∀ s ∈ (d.extra.getD {}).values, P s := by
      cases hextra : d.extra with
      | none => simp
      | some e =>
        refine List.forall_mem_append.mp fun s hs => hd s ?_
        simp only [Document.texts, hextra, Option.map_some, Option.getD_some, List.mem_append] at hs ⊢
        exact .inl (.inl (.inl (.inr hs)))
    simp only [Document.texts, Option.map_some, Option.getD_some, List.forall_mem_append,
      List.forall_mem_singleton] at hd ⊢
    exact ⟨⟨⟨⟨hd.1.1.1.1, ⟨he.1, hs.1⟩, he.2, hs.2⟩, hd.1.1.2⟩, hd.1.2⟩, hd.2⟩
  | created hs _ _ h =>
    simp only [Document.texts, Entry.texts, List.forall_mem_append, List.forall_mem_flatMap, List.forall_mem_singleton,
      List.forall_mem_cons] at hd ⊢
    exact ⟨⟨hd.1.1, hd.1.2, hs⟩, hd.2, hs, h.texts⟩
  | unregistered hs =>
    simp only [Document.texts, Entry.texts, List.forall_mem_append, List.forall_mem_flatMap, List.forall_mem_singleton,
      List.forall_mem_cons] at hd ⊢
    exact ⟨hd.1, hd.2, hs, by simp⟩
  | pushed hr h =>
    exact texts_replace hd hr fun hl => List.forall_mem_append.mpr ⟨hl, List.forall_mem_singleton.mpr h.texts⟩
  | changed hr h =>
    refine texts_replace hd hr fun hl => ?_
    have hl := List.forall_mem_append.mp hl
    exact List.forall_mem_append.mpr ⟨hl.1, List.forall_mem_singleton.mpr
      (h.texts hdec (List.forall_mem_singleton.mp hl.2))⟩

end Texts
end OphidiaWorkflow.Response
