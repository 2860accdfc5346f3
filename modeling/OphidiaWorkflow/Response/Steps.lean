import OphidiaWorkflow.Response.Changes

/-!
What a call does to a document, said once for all the calls, and what every run of calls keeps.
-/
namespace OphidiaWorkflow.Response
open Lib

/-- Every text that a call is given has property `P`. -/
def Call.Texts (P : List Char → Prop) : Call → Prop
  | .consumer name => ∀ s ∈ name, P s
  | .source srckey srcname srcurl description producer =>
    ∀ s ∈ srckey.toList ++ srcname.toList ++ srcurl.toList ++ description.toList ++ producer.toList, P s
  | .sourceDetail key value => ∀ s ∈ key.toList ++ value.toList, P s
  | .extraDetail key value => ∀ s ∈ key.toList ++ value.toList, P s
  | .text objkey title message => P objkey ∧ ∀ s ∈ title.toList ++ message.toList, P s
  | .grid objkey title description keys fieldtypes =>
    P objkey ∧ ∀ s ∈ title.toList ++ description.toList ++ keys ++ fieldtypes, P s
  | .gridRow _ values => ∀ s ∈ values, P s
  | .multigrid objkey title description rowkeys rowfieldtypes colkeys colfieldtypes colvalues measurename
      measuretype =>
    P objkey ∧ ∀ s ∈ title.toList ++ description.toList ++ measurename.toList ++ measuretype.toList ++ rowkeys ++
      rowfieldtypes ++ colkeys ++ colfieldtypes ++ colvalues.flatten, P s
  | .multigridRow _ rowvalues measurevalues => ∀ s ∈ rowvalues ++ measurevalues, P s
  | .tree objkey title description nodekeys =>
    P objkey ∧ ∀ s ∈ title.toList ++ description.toList ++ nodekeys.getD [], P s
  | .treeNode _ nodevalues => ∀ s ∈ nodevalues.getD [], P s
  | .treeRoot _ _ => True
  | .treeLink _ _ _ description => ∀ s ∈ description, P s
  | .graph objkey _ title description nodekeys =>
    P objkey ∧ ∀ s ∈ title.toList ++ description.toList ++ nodekeys.getD [], P s
  | .graphNode _ nodevalues => ∀ s ∈ nodevalues.getD [], P s
  | .graphLink _ _ _ description => ∀ s ∈ description, P s

def Source.texts (s : Source) : List (List Char) :=
  s.srckey :: s.srcname :: (s.srcurl.toList ++ s.description.toList ++ s.producer.toList ++ s.keys ++ s.values)

/-- What a call that answers `code` can make of a document. -/
inductive Step (P : List Char → Prop) (d : Document) : Code → Document → Prop
  | same (code : Code) : Step P d code d
  | consumer {s : List Char} (hs : P s) (h : s ∉ d.consumers) :
      Step P d .success { d with consumers := d.consumers ++ [s] }
  | source {s : Source} (hs : ∀ t ∈ s.texts, P t) (h : d.source = none) (hk : s.toExtra = {}) :
      Step P d .success { d with source := some s }
  | sourceDetail {s : Source} {key value : List Char} (hs : P key ∧ P value) (h : d.source = some s)
      (hk : key ∉ s.keys) :
      Step P d .success
        { d with source := some { s with keys := s.keys ++ [key], values := s.values ++ [value] } }
  | extraDetail {e : Extra} {key value : List Char} (hs : P key ∧ P value) (h : e = d.extra.getD {})
      (hk : key ∉ e.keys) :
      Step P d .success { d with extra := some { keys := e.keys ++ [key], values := e.values ++ [value] } }
  | created {c : ObjClass} {objkey : List Char} {code : Code} {o : c.Obj} (hs : P objkey) (hk : objkey ∉ d.objkeys)
      (hr : objkey ∉ d.responseKeyset) (h : New P c code o) :
      Step P d code { d with
        response := d.response ++ [{ objclass := c, objkey, objcontent := [o] }]
        responseKeyset := d.responseKeyset ++ [objkey] }
  | unregistered {c : ObjClass} {objkey : List Char} (hs : P objkey) (hk : objkey ∉ d.objkeys)
      (hr : objkey ∈ d.responseKeyset) :
      Step P d .memory { d with response := d.response ++ [{ objclass := c, objkey, objcontent := [] }] }
  | pushed {rs rs' : List Entry} {c : ObjClass} {objkey : List Char} {l : List c.Obj} {code : Code} {o : c.Obj}
      (hd : d.response = rs ++ { objclass := c, objkey, objcontent := l } :: rs') (h : New P c code o) :
      Step P d code { d with response := rs ++ { objclass := c, objkey, objcontent := l ++ [o] } :: rs' }
  | changed {rs rs' : List Entry} {c : ObjClass} {objkey : List Char} {l : List c.Obj} {code : Code} {o o' : c.Obj}
      (hd : d.response = rs ++ { objclass := c, objkey, objcontent := l ++ [o] } :: rs')
      (h : Change P c code o o') :
      Step P d code { d with response := rs ++ { objclass := c, objkey, objcontent := l ++ [o'] } :: rs' }

section Lookup

variable {objkey : List Char} {missing code : Code} {f : Entry → Option (Code × Entry)} {rs rs' : List Entry}

theorem onEntry_cases (h : onEntry objkey missing f rs = some (code, rs')) :
    code = missing ∧ rs' = rs ∧ objkey ∉ rs.map Entry.objkey ∨
      ∃ pre r r' post, rs = pre ++ r :: post ∧ r.objkey = objkey ∧ f r = some (code, r') ∧ rs' = pre ++ r' :: post := by
  induction rs generalizing rs' with
  | nil =>
    cases h
    exact .inl ⟨rfl, rfl, List.not_mem_nil⟩
  | cons r rs ih =>
    rw [onEntry] at h
    split at h
    · next hk =>
      obtain ⟨⟨code', r'⟩, hf, h⟩ := Option.map_eq_some_iff.mp h
      cases h
      exact .inr ⟨[], r, r', rs, rfl, hk, hf, rfl⟩
    · next hk =>
      obtain ⟨⟨code', rest⟩, hrest, h⟩ := Option.map_eq_some_iff.mp h
      cases h
      rcases ih hrest with ⟨hc, rfl, hmem⟩ | ⟨pre, r₁, r', post, rfl, hr, hf, rfl⟩
      · refine .inl ⟨hc, rfl, fun hm => ?_⟩
        rcases List.mem_cons.mp hm with rfl | hm
        · exact hk rfl
        · exact hmem hm
      · exact .inr ⟨r :: pre, r₁, r', post, rfl, hr, hf, rfl⟩

theorem onLast_cases {α : Type} {f : α → Option (Code × α)} {l l' : List α} (h : onLast f l = some (code, l')) :
    l' = l ∧ code = .badParam ∨ ∃ init o o', l = init ++ [o] ∧ f o = some (code, o') ∧ l' = init ++ [o'] := by
  induction l generalizing l' with
  | nil =>
    cases h
    exact .inl ⟨rfl, rfl⟩
  | cons o l ih =>
    cases l with
    | nil =>
      obtain ⟨⟨code', o'⟩, hf, h⟩ := Option.map_eq_some_iff.mp h
      cases h
      exact .inr ⟨[], o, o', rfl, hf, rfl⟩
    | cons o₁ l =>
      obtain ⟨⟨code', l''⟩, hl, h⟩ := Option.map_eq_some_iff.mp h
      cases h
      rcases ih hl with ⟨rfl, hc⟩ | ⟨init, a, a', hinit, hf, rfl⟩
      · exact .inl ⟨rfl, hc⟩
      · exact .inr ⟨o :: init, a, a', congrArg (o :: ·) hinit, hf, rfl⟩

theorem onObject_cases {c : ObjClass} {f : c.Obj → Option (Code × c.Obj)} {r r' : Entry}
    (h : r.onObject c f = some (code, r')) :
    r' = r ∧ code = .badParam ∨ ∃ objkey init o o', r = { objclass := c, objkey, objcontent := init ++ [o] } ∧
      f o = some (code, o') ∧ r' = { objclass := c, objkey, objcontent := init ++ [o'] } := by
  obtain ⟨c', objkey, l⟩ := r
  unfold Entry.onObject at h
  dsimp only at h
  split at h
  · next hc =>
    subst hc
    obtain ⟨⟨code', l'⟩, hl, h⟩ := Option.map_eq_some_iff.mp h
    cases h
    rcases onLast_cases hl with ⟨rfl, hc⟩ | ⟨init, o, o', rfl, hf, rfl⟩
    · exact .inl ⟨rfl, hc⟩
    · exact .inr ⟨objkey, init, o, o', rfl, hf, rfl⟩
  · cases h
    exact .inl ⟨rfl, rfl⟩

theorem push_cases {c : ObjClass} {built : Option (Code × c.Obj)} {r r' : Entry}
    (h : r.push c built = some (code, r')) :
    r' = r ∧ code = .badParam ∨ ∃ objkey l o, r = { objclass := c, objkey, objcontent := l } ∧ built = some (code, o) ∧
      r' = { objclass := c, objkey, objcontent := l ++ [o] } := by
  obtain ⟨c', objkey, l⟩ := r
  unfold Entry.push at h
  split at h
  · next hc =>
    cases hc
    obtain ⟨⟨code', o⟩, hb, h⟩ := Option.map_eq_some_iff.mp h
    cases h
    exact .inr ⟨objkey, l, o, rfl, hb, rfl⟩
  · cases h
    exact .inl ⟨rfl, rfl⟩

end Lookup

section Step

variable {P : List Char → Prop} {d d' : Document} {code missing : Code} {objkey : List Char} {c : ObjClass}

theorem addObject_step {built : Option (Code × c.Obj)} (hkey : P objkey)
    (hnew : ∀ code o, built = some (code, o) → New P c code o)
    (h : d.addObject c objkey built = some (code, d')) : Step P d code d' := by
  unfold Document.addObject at h
  split at h
  · obtain ⟨⟨code', rs⟩, hr, h⟩ := Option.map_eq_some_iff.mp h
    cases h
    rcases onEntry_cases hr with ⟨-, rfl, -⟩ | ⟨pre, r, r', post, hd, -, hpush, rfl⟩
    · exact .same _
    · rcases push_cases hpush with ⟨rfl, -⟩ | ⟨key, l, o, rfl, hb, rfl⟩
      · rw [← hd]
        exact .same _
      · exact .pushed hd (hnew _ _ hb)
  · next hk =>
    by_cases hr : objkey ∈ d.responseKeyset
    · rw [Document.addResponseKey, if_pos hr] at h
      cases h
      exact .unregistered hkey hk hr
    · rw [Document.addResponseKey, if_neg hr] at h
      obtain ⟨⟨code', o⟩, hb, h⟩ := Option.map_eq_some_iff.mp h
      cases h
      exact .created hkey hk hr (hnew _ _ hb)

theorem onResponse_step {f : c.Obj → Option (Code × c.Obj)}
    (hchange : ∀ code o o', f o = some (code, o') → Change P c code o o')
    (h : d.onResponse objkey missing (Entry.onObject c f) = some (code, d')) : Step P d code d' := by
  obtain ⟨⟨code', rs⟩, hr, h⟩ := Option.map_eq_some_iff.mp h
  cases h
  rcases onEntry_cases hr with ⟨-, rfl, -⟩ | ⟨pre, r, r', post, hd, -, hobj, rfl⟩
  · exact .same _
  · rcases onObject_cases hobj with ⟨rfl, -⟩ | ⟨key, init, o, o', rfl, hf, rfl⟩
    · rw [← hd]
      exact .same _
    · exact .changed hd (hchange _ _ _ hf)

theorem onGraph_step {f : Bool → ObjGraph → Option (Code × ObjGraph)}
    (hdigraph : ∀ code o o', f true o = some (code, o') → Change P .digraph code o o')
    (hgraph : ∀ code o o', f false o = some (code, o') → Change P .graph code o o')
    (h : d.onResponse objkey missing (Entry.onGraph f) = some (code, d')) : Step P d code d' := by
  obtain ⟨⟨code', rs⟩, hr, h⟩ := Option.map_eq_some_iff.mp h
  cases h
  rcases onEntry_cases hr with ⟨-, rfl, -⟩ | ⟨pre, r, r', post, hd, -, hobj, rfl⟩
  · exact .same _
  · unfold Entry.onGraph at hobj
    split at hobj
    · rcases onObject_cases hobj with ⟨rfl, -⟩ | ⟨key, init, o, o', rfl, hf, rfl⟩
      · rw [← hd]
        exact .same _
      · exact .changed hd (hdigraph _ _ _ hf)
    · rcases onObject_cases hobj with ⟨rfl, -⟩ | ⟨key, init, o, o', rfl, hf, rfl⟩
      · rw [← hd]
        exact .same _
      · exact .changed hd (hgraph _ _ _ hf)

theorem int32_toNat {n : Int} (h : ¬ toInt32 n < 0) :
    toInt32 ((toInt32 n).toNat : Int) = ((toInt32 n).toNat : Int) := by
  rw [Int.toNat_of_nonneg (Int.not_lt.mp h), toInt32_toInt32]

theorem addConsumer_step {consumer : Option (List Char)} (hP : ∀ s ∈ consumer, P s) :
    Step P d (d.addConsumer consumer).1 (d.addConsumer consumer).2 := by
  cases consumer with
  | none => exact .same _
  | some s =>
    unfold Document.addConsumer
    dsimp only
    split
    · exact .same _
    · next h => exact .consumer (hP s rfl) h

theorem setSource_step {srckey srcname srcurl description producer : Option (List Char)}
    (hP : Call.Texts P (.source srckey srcname srcurl description producer)) :
    Step P d (d.setSource srckey srcname srcurl description producer).1
      (d.setSource srckey srcname srcurl description producer).2 := by
  unfold Document.setSource
  split
  · next hs =>
    refine .source ?_ hs rfl
    simpa [Source.texts, Call.Texts] using hP
  · exact .same _

theorem addSourceDetail_step {key value : Option (List Char)} (hP : Call.Texts P (.sourceDetail key value)) :
    Step P d (d.addSourceDetail key value).1 (d.addSourceDetail key value).2 := by
  unfold Document.addSourceDetail
  split
  · next key value s hs =>
    unfold Extra.add
    split
    · have hd : { d with source := some { s with toExtra := s.toExtra } } = d := by
        rw [← hs]
      exact hd ▸ .same _
    · next hk => exact .sourceDetail (by simpa [Call.Texts] using hP) hs hk
  · exact .same _

theorem addExtraDetail_step {key value : Option (List Char)} (hP : Call.Texts P (.extraDetail key value)) :
    Step P d (d.addExtraDetail key value).1 (d.addExtraDetail key value).2 := by
  unfold Document.addExtraDetail
  split
  · next key value =>
    unfold Extra.add
    split
    · next hk =>
      have hd : { d with extra := some (d.extra.getD {}) } = d := by
        cases he : d.extra with
        | none =>
          rw [he] at hk
          cases hk
        | some e =>
          rw [Option.getD_some, ← he]
      exact hd ▸ .same _
    · next hk => exact .extraDetail (by simpa [Call.Texts] using hP) rfl hk
  · exact .same _

theorem step_of_some {answer : Code × Document} (hs : Step P d answer.1 answer.2)
    (h : some answer = some (code, d')) : Step P d code d' := by
  cases h
  exact hs

/-- Every call makes one of these steps. -/
theorem call_step {call : Call} (hP : call.Texts P) (h : d.call call = some (code, d')) : Step P d code d' := by
  cases call with
  | consumer => exact step_of_some (addConsumer_step hP) h
  | source => exact step_of_some (setSource_step hP) h
  | sourceDetail => exact step_of_some (addSourceDetail_step hP) h
  | extraDetail => exact step_of_some (addExtraDetail_step hP) h
  | text key title message =>
    cases title with
    | none =>
      cases h
      exact .same _
    | some title =>
      refine addObject_step hP.1 (fun code o ho => ?_) h
      cases ho
      exact .text (hP.2 _ (by simp)) fun s hs => hP.2 _ (List.mem_append_right _ (Option.mem_toList.mpr hs))
  | grid key title description keys fieldtypes =>
    cases title with
    | none =>
      cases h
      exact .same _
    | some title =>
      change (if keys = [] ∨ fieldtypes = [] then some (Code.badParam, d) else _) = _ at h
      split at h
      · cases h
        exact .same _
      · next hne =>
        refine addObject_step hP.1 (fun code o ho => ?_) h
        exact .grid (hP.2 _ (by simp)) (fun s hs => hP.2 _ (by simp [Option.mem_def.mp hs]))
          (fun s hs => hP.2 _ (by simp [hs])) (fun s hs => hP.2 _ (by simp [hs])) (not_or.mp hne).1
          (Option.some.inj ho)
  | gridRow => exact onResponse_step (fun code o o' ho => .row hP ho) h
  | multigrid key title description rowkeys rowfieldtypes colkeys colfieldtypes colvalues measurename measuretype =>
    change d.addMultigrid key title description rowkeys rowfieldtypes colkeys colfieldtypes colvalues measurename
      measuretype = _ at h
    unfold Document.addMultigrid at h
    split at h
    · next title measurename measuretype =>
      split at h
      · cases h
        exact .same _
      · next hne =>
        simp only [not_or] at hne
        refine addObject_step hP.1 (fun code o ho => ?_) h
        have hall := hP.2
        simp only [List.forall_mem_append, Option.toList_some, List.forall_mem_singleton] at hall
        obtain ⟨⟨⟨⟨⟨⟨⟨⟨ht, hd⟩, hmn⟩, hmt⟩, hrk⟩, hrf⟩, hck⟩, hcf⟩, hcv⟩ := hall
        exact .multigrid ht (fun s hs => hd s (by simp [Option.mem_def.mp hs])) hrk hrf hck hcf
          (fun row hrow s hs => hcv s (List.mem_flatten.mpr ⟨row, hrow, hs⟩)) hmn hmt hne ho
    · cases h
      exact .same _
  | multigridRow =>
    refine onResponse_step (fun code o o' ho => ?_) h
    exact .measures (List.forall_mem_append.mp hP).1 (List.forall_mem_append.mp hP).2 ho
  | tree key title description nodekeys =>
    cases title with
    | none =>
      cases h
      exact .same _
    | some title =>
      refine addObject_step hP.1 (fun code o ho => ?_) h
      exact .tree (hP.2 _ (by simp)) (fun s hs => hP.2 _ (by simp [Option.mem_def.mp hs]))
        (fun ks hks s hs => hP.2 _ (by simp [Option.mem_def.mp hks, hs])) (Option.some.inj ho)
  | treeNode key nodevalues =>
    refine onResponse_step (fun code o o' ho => ?_) h
    exact .treeNode (fun values hv s hs => hP s (by rw [Option.mem_def.mp hv]; exact hs)) ho
  | treeRoot key rootnode =>
    change (if toInt32 rootnode < 0 then some (Code.badParam, d) else _) = _ at h
    split at h
    · cases h
      exact .same _
    · next hn => exact onResponse_step (fun code o o' ho => .root (int32_toNat hn) (Option.some.inj ho)) h
  | treeLink key sourcenode targetnode description =>
    change (if toInt32 sourcenode < 0 ∨ toInt32 targetnode < 0 then some (Code.badParam, d) else _) = _ at h
    split at h
    · cases h
      exact .same _
    · next hn =>
      exact onResponse_step (fun code o o' ho =>
        .treeLink (int32_toNat (not_or.mp hn).1) (int32_toNat (not_or.mp hn).2) hP (Option.some.inj ho)) h
  | graph key isDigraph title description nodekeys =>
    cases title with
    | none =>
      cases h
      exact .same _
    | some title =>
      have hdescription : ∀ s ∈ description, P s := fun s hs => hP.2 _ (by simp [Option.mem_def.mp hs])
      have hkeys : ∀ ks ∈ nodekeys, ∀ s ∈ ks, P s := fun ks hks s hs => hP.2 _ (by simp [Option.mem_def.mp hks, hs])
      cases isDigraph with
      | true =>
        refine addObject_step (c := .digraph) hP.1 (fun code o ho => ?_) h
        exact .digraph (hP.2 _ (by simp)) hdescription hkeys (Option.some.inj ho)
      | false =>
        refine addObject_step (c := .graph) hP.1 (fun code o ho => ?_) h
        exact .graph (hP.2 _ (by simp)) hdescription hkeys (Option.some.inj ho)
  | graphNode key nodevalues =>
    have hvalues : ∀ values ∈ nodevalues, ∀ s ∈ values, P s := fun values hv s hs =>
      hP s (by rw [Option.mem_def.mp hv]; exact hs)
    exact onGraph_step (fun code o o' ho => .digraphNode hvalues ho) (fun code o o' ho => .graphNode hvalues ho) h
  | graphLink key node1 node2 description =>
    change (if toInt32 node1 < 0 ∨ toInt32 node2 < 0 ∨ d.response = [] then some (Code.badParam, d) else _) = _ at h
    split at h
    · cases h
      exact .same _
    · next hn =>
      have hsource := int32_toNat (not_or.mp hn).1
      have htarget := int32_toNat (not_or.mp (not_or.mp hn).2).1
      exact onGraph_step (fun code o o' ho => .digraphLink hsource htarget hP (Option.some.inj ho))
        (fun code o o' ho => .graphLink hsource htarget hP (Option.some.inj ho)) h

end Step
end OphidiaWorkflow.Response
