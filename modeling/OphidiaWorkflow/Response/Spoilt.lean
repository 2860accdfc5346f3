import OphidiaWorkflow.Response.Texts

/-!
For which runs of calls the document can be written at their end.
-/
namespace OphidiaWorkflow.Response

/-- What is left to the caller after the creation: a tree needs a root, and nothing has compared the numbers of keys
and of types of a grid with measures. -/
def Complete : (c : ObjClass) → c.Obj → Prop
  | .text, _ => True
  | .grid, _ => True
  | .multigrid, o =>
    (ObjMultigrid.rowkeys o).length = (ObjMultigrid.rowfieldtypes o).length ∧
      (ObjMultigrid.colkeys o).length = (ObjMultigrid.colfieldtypes o).length
  | .tree, o => (ObjTree.rootnode o).isSome = true
  | .digraph, _ => True
  | .graph, _ => True

/-- The call is answered with an error, but it has changed the document. -/
def Document.Spoils (d : Document) (call : Call) : Prop :=
  ∃ code d', d.call call = some (code, d') ∧ code ≠ .success ∧ d' ≠ d

section

variable {P : List Char → Prop} {c : ObjClass} {code : Code} {o : c.Obj} {d d' : Document} {call : Call}
  {cs cs' : List Call}

theorem graph_whole_iff {directed : Bool} {o : ObjGraph} (hi : o.Inv directed) : o.Whole ↔ ¬ Broken .graph o := by
  constructor
  · exact fun hw hb => hb.1 (List.eq_nil_of_length_eq_zero (hw.1 hb.1 ▸ hb.2))
  · intro hb
    refine ⟨fun hk => hi.num2.resolve_left fun hn => hb ⟨hk, hn⟩, fun hv => ?_⟩
    have hn : o.nodevaluesNum2 ≠ 0 := fun hn =>
      hv (List.eq_nil_of_length_eq_zero (by rw [hi.nodes, if_pos hn]))
    rw [hi.nodes, if_neg hn]

theorem whole_iff (hi : Inv c o) : Whole c o ↔ ¬ Broken c o ∧ Complete c o := by
  cases c with
  | text => exact ⟨fun _ => ⟨id, trivial⟩, fun _ => trivial⟩
  | grid => exact ⟨fun hw => ⟨fun hb => not_whole_of_broken hi hb hw, trivial⟩, fun hb => hi.whole hb.1⟩
  | multigrid =>
    refine ⟨fun hw => ⟨fun hb => not_whole_of_broken hi hb hw, hw.rowfieldtypes, hw.colfieldtypes⟩, fun hb => ?_⟩
    obtain ⟨hr, hc, hm, hmn, hmt, -⟩ := hi.complete hb.1
    exact ⟨hmn, hmt, hb.2.1, hr, hb.2.2, hc, hm, hi.rows_measures⟩
  | tree =>
    exact ⟨fun hw => ⟨(graph_whole_iff hi.graph).mp hw.2, hw.1⟩, fun hb => ⟨hb.2, (graph_whole_iff hi.graph).mpr hb.1⟩⟩
  | digraph => exact ⟨fun hw => ⟨(graph_whole_iff hi).mp hw, trivial⟩, fun hb => (graph_whole_iff hi).mpr hb.1⟩
  | graph => exact ⟨fun hw => ⟨(graph_whole_iff hi).mp hw, trivial⟩, fun hb => (graph_whole_iff hi).mpr hb.1⟩

/-- A creation that succeeds leaves nothing broken. -/
theorem New.not_broken (h : New P c .success o) : ¬ Broken c o := by
  intro hb
  cases h with
  | text => exact hb
  | grid _ _ _ _ hk h =>
    rcases (newGrid_cases h).2 with ⟨hc, -⟩ | ⟨-, -, -, -, hn⟩
    · cases hc
    · exact hk (List.eq_nil_of_length_eq_zero (hn ▸ hb))
  | multigrid _ _ _ _ _ _ _ _ _ hne h =>
    rcases (newMultigrid_cases h).2 with ⟨hc, -⟩ | ⟨-, -, -, -, -, -, hn, -⟩
    · cases hc
    · exact hne.1 (List.eq_nil_of_length_eq_zero (hn ▸ hb))
  | tree _ _ _ h =>
    rcases (newGraph_cases (newTree_cases h).1).2 with ⟨hc, -⟩ | ⟨-, hk, hn⟩
    · cases hc
    · exact hb.1 (hk.trans (List.eq_nil_of_length_eq_zero (hn ▸ hb.2)))
  | digraph _ _ _ h =>
    rcases (newGraph_cases h).2 with ⟨hc, -⟩ | ⟨-, hk, hn⟩
    · cases hc
    · exact hb.1 (hk.trans (List.eq_nil_of_length_eq_zero (hn ▸ hb.2)))
  | graph _ _ _ h =>
    rcases (newGraph_cases h).2 with ⟨hc, -⟩ | ⟨-, hk, hn⟩
    · cases hc
    · exact hb.1 (hk.trans (List.eq_nil_of_length_eq_zero (hn ▸ hb.2)))

/-- A call that succeeds breaks nothing. -/
theorem Step.not_broken (h : Step P d .success d') (hb : d'.Broken) : d.Broken := by
  obtain ⟨r, hr, o, ho, hb⟩ := hb
  have hreplace {rs rs' : List Entry} {c : ObjClass} {objkey : List Char} {l l' : List c.Obj}
      (hd : d.response = rs ++ { objclass := c, objkey, objcontent := l } :: rs')
      (hr : r ∈ rs ++ { objclass := c, objkey, objcontent := l' } :: rs')
      (hl : (∃ o ∈ l', Response.Broken c o) → ∃ o ∈ l, Response.Broken c o) : d.Broken := by
    rcases List.mem_append.mp hr with hr | hr
    · exact ⟨r, hd ▸ List.mem_append_left _ hr, o, ho, hb⟩
    · rcases List.mem_cons.mp hr with rfl | hr
      · obtain ⟨o', ho', hb'⟩ := hl ⟨o, ho, hb⟩
        exact ⟨_, hd ▸ List.mem_append_right _ List.mem_cons_self, o', ho', hb'⟩
      · exact ⟨r, hd ▸ List.mem_append_right _ (List.mem_cons_of_mem _ hr), o, ho, hb⟩
  cases h with
  | same => exact ⟨r, hr, o, ho, hb⟩
  | consumer => exact ⟨r, hr, o, ho, hb⟩
  | source => exact ⟨r, hr, o, ho, hb⟩
  | sourceDetail => exact ⟨r, hr, o, ho, hb⟩
  | extraDetail => exact ⟨r, hr, o, ho, hb⟩
  | created _ _ _ h =>
    rcases List.mem_append.mp hr with hr | hr
    · exact ⟨r, hr, o, ho, hb⟩
    · cases List.mem_singleton.mp hr
      cases List.mem_singleton.mp ho
      exact absurd hb h.not_broken
  | pushed hd h =>
    refine hreplace hd hr fun ⟨o₁, ho₁, hb₁⟩ => ?_
    rcases List.mem_append.mp ho₁ with ho₁ | ho₁
    · exact ⟨o₁, ho₁, hb₁⟩
    · cases List.mem_singleton.mp ho₁
      exact absurd hb₁ h.not_broken
  | changed hd h =>
    refine hreplace hd hr fun ⟨o₁, ho₁, hb₁⟩ => ?_
    rcases List.mem_append.mp ho₁ with ho₁ | ho₁
    · exact ⟨o₁, List.mem_append_left _ ho₁, hb₁⟩
    · cases List.mem_singleton.mp ho₁
      exact ⟨_, List.mem_append_right _ List.mem_cons_self, h.broken_iff.mp hb₁⟩

theorem calls_append : d.calls (cs ++ cs') = (d.calls cs).bind fun d' => d'.calls cs' := by
  rw [Document.calls, List.foldlM_append]
  rfl

theorem calls_singleton : d.calls [call] = (d.call call).map Prod.snd := by
  rw [Document.calls, List.foldlM_cons]
  cases d.call call <;> rfl

/-- Something is broken in a document if and only if one of the calls has spoilt it. -/
theorem broken_iff_spoils (h : ({} : Document).calls cs = some d) :
    d.Broken ↔ ∃ cs₁ call cs₂ d₁, cs = cs₁ ++ call :: cs₂ ∧ ({} : Document).calls cs₁ = some d₁ ∧ d₁.Spoils call := by
  induction cs using List.reverseRecOn generalizing d with
  | nil =>
    cases h
    refine iff_of_false (fun ⟨r, hr, _⟩ => absurd hr List.not_mem_nil) ?_
    rintro ⟨cs₁, call, cs₂, d₁, he, -⟩
    exact absurd he (by simp)
  | append_singleton cs call ih =>
    rw [calls_append] at h
    obtain ⟨d₀, h₀, h⟩ := Option.bind_eq_some_iff.mp h
    rw [calls_singleton] at h
    obtain ⟨⟨code, d'⟩, hcall, rfl⟩ := Option.map_eq_some_iff.mp h
    have hstep := call_step (texts_true call) hcall
    constructor
    · intro hb
      by_cases hb₀ : d₀.Broken
      · obtain ⟨cs₁, c₁, cs₂, d₁, rfl, h₁, hs⟩ := (ih h₀).mp hb₀
        exact ⟨cs₁, c₁, cs₂ ++ [call], d₁, by simp, h₁, hs⟩
      · refine ⟨cs, call, [], d₀, rfl, h₀, code, d', hcall, ?_, ?_⟩
        · rintro rfl
          exact hb₀ (hstep.not_broken hb)
        · rintro rfl
          exact hb₀ hb
    · rintro ⟨cs₁, c₁, cs₂, d₁, he, h₁, hs⟩
      rcases List.eq_nil_or_concat cs₂ with rfl | ⟨cs₃, c₃, rfl⟩
      · obtain ⟨rfl, hc⟩ := List.append_inj' he rfl
        cases hc
        rw [h₀] at h₁
        cases h₁
        obtain ⟨code', d₂, hcall', hne, hch⟩ := hs
        rw [hcall] at hcall'
        cases hcall'
        exact (hstep.refused (inv_calls inv_empty h₀) hne).resolve_left hch
      · have he' : cs ++ [call] = (cs₁ ++ c₁ :: cs₃) ++ [c₃] := by rw [he]; simp
        obtain ⟨rfl, -⟩ := List.append_inj' he' rfl
        exact hstep.broken ((ih h₀).mpr ⟨cs₁, c₁, cs₃, d₁, rfl, h₁, hs⟩)

theorem document_whole_iff (hi : d.Inv) :
    d.Whole ↔ ¬ d.Broken ∧ ∀ r ∈ d.response, ∀ o ∈ r.objcontent, Complete r.objclass o := by
  constructor
  · intro hw
    refine ⟨fun ⟨r, hr, o, ho, hb⟩ => ?_, fun r hr o ho => ?_⟩
    · exact ((whole_iff ((hi.response r hr).2 o ho)).mp (hw r hr o ho)).1 hb
    · exact ((whole_iff ((hi.response r hr).2 o ho)).mp (hw r hr o ho)).2
  · intro h r hr o ho
    exact (whole_iff ((hi.response r hr).2 o ho)).mpr ⟨fun hb => h.1 ⟨r, hr, o, ho, hb⟩, h.2 r hr o ho⟩

/-- The document that calls have built can be written if and only if no creation of them failed half-way, all trees have
a root, all grids with measures as many types as keys, and all texts are UTF-8. One failed creation is never made good:
what the calls after it add cannot be written either. -/
theorem written_iff_not_spoilt [Json.Jansson] (h : ({} : Document).calls cs = some d) :
    (∃ s, d.toJsonString = .ok s) ↔
      (¬ ∃ cs₁ call cs₂ d₁, cs = cs₁ ++ call :: cs₂ ∧ ({} : Document).calls cs₁ = some d₁ ∧ d₁.Spoils call) ∧
        (∀ r ∈ d.response, ∀ o ∈ r.objcontent, Complete r.objclass o) ∧ ∀ s ∈ d.texts, validUtf8 s = true := by
  have hi := inv_calls inv_empty h
  rw [← broken_iff_spoils h, ← and_assoc, ← document_whole_iff hi]
  constructor
  · rintro ⟨s, hs⟩
    exact ((toJsonString_eq_ok hi).mp hs).1
  · intro hw
    exact ⟨_, (toJsonString_eq_ok hi).mpr ⟨hw, rfl⟩⟩

theorem cubes_not_spoilt : ¬ ∃ cs₁ call cs₂ d₁, cubes = cs₁ ++ call :: cs₂ ∧
    ({} : Document).calls cs₁ = some d₁ ∧ d₁.Spoils call :=
  ((written_iff_not_spoilt calls_cubes).mp ⟨_, rfl⟩).1

end
end OphidiaWorkflow.Response
