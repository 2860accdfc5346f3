import OphidiaWorkflow.Response.Rebuilt

/-!
A document that has been written is read back as it was.
-/
namespace OphidiaWorkflow.Response
open Json Lib

section Execute

variable {d : Document} {e : Extra} {l keys values : List (List Char)}

/-- Details are added again in their order, those of the source as well as the others. -/
theorem execute_details (put : Extra → Document) (call : Option (List Char) → Option (List Char) → Call)
    (hcall : ∀ (e : Extra) (key value : List Char), e.Inv → key ∉ e.keys →
      (put e).call (call (some key) (some value)) =
        some (.success, put { keys := e.keys ++ [key], values := e.values ++ [value] }))
    (he : e.Inv) (hlen : values.length = keys.length) (hnodup : (e.keys ++ keys).Nodup) :
    execute ((keys.zip values).map fun kv => .call (call (some kv.1) (some kv.2))) (put e) =
      some (.success, put { keys := e.keys ++ keys, values := e.values ++ values }) := by
  induction keys generalizing e values with
  | nil =>
    cases List.eq_nil_of_length_eq_zero hlen
    rw [List.append_nil, List.append_nil]
    rfl
  | cons key keys ih =>
    cases values with
    | nil => cases hlen
    | cons value values =>
      have hkey : key ∉ e.keys := fun hk => (List.nodup_append.mp hnodup).2.2 key hk key List.mem_cons_self rfl
      rw [List.zip_cons_cons, List.map_cons, execute_call (hcall e key value he hkey),
        ih (he.add hkey) (Nat.succ.inj hlen) (by simpa using hnodup), List.append_assoc, List.append_assoc]
      rfl

theorem execute_source {s : Source} (hi : s.toExtra.Inv) (hd : d.source = none) :
    execute (sourceActions s) d = some (.success, { d with source := some s }) := by
  have hset : d.call (.source (some s.srckey) (some s.srcname) s.srcurl s.description s.producer) =
      some (.success, { d with source := some { s with toExtra := {} } }) := by
    unfold Document.call Document.setSource
    rw [hd]
  unfold sourceActions
  rw [execute_call hset]
  exact execute_details (e := {}) (fun e => { d with source := some { s with toExtra := e } }) .sourceDetail
    (fun e key value _ hk => by
      unfold Document.call Document.addSourceDetail Extra.add
      dsimp only
      rw [if_neg hk]
      rfl)
    ⟨List.nodup_nil, rfl⟩ hi.2 hi.1

theorem execute_extra (hi : e.Inv) (hk : e.keys ≠ []) (hd : d.extra = none) :
    execute ((e.keys.zip e.values).map fun kv => .call (.extraDetail (some kv.1) (some kv.2))) d =
      some (.success, { d with extra := some e }) := by
  have hput (e : Extra) (he : e.Inv) : (if e.keys = [] then none else some e : Option Extra).getD {} = e := by
    split
    · next hk =>
      obtain ⟨keys, values⟩ := e
      cases hk
      cases List.eq_nil_of_length_eq_zero he.2
      rfl
    · rfl
  have hrun := execute_details (e := {}) (fun e => { d with extra := if e.keys = [] then none else some e }) .extraDetail
    (fun e key value he hk => by
      unfold Document.call Document.addExtraDetail Extra.add
      dsimp only
      rw [hput e he, if_neg hk, if_neg (List.append_ne_nil_of_right_ne_nil _ (List.cons_ne_nil _ _))]
      rfl) ⟨List.nodup_nil, rfl⟩ hi.2 hi.1
  rw [List.nil_append, List.nil_append, if_pos rfl, ← hd, if_neg hk] at hrun
  exact hrun

theorem execute_consumers (hl : (d.consumers ++ l).Nodup) :
    execute (l.map fun s => .call (.consumer (some s))) d =
      some (.success, { d with consumers := d.consumers ++ l }) := by
  induction l generalizing d with
  | nil =>
    rw [List.append_nil]
    rfl
  | cons s l ih =>
    have hs : s ∉ d.consumers := fun hs => (List.nodup_append.mp hl).2.2 s hs s List.mem_cons_self rfl
    have hcall : d.call (.consumer (some s)) = some (.success, { d with consumers := d.consumers ++ [s] }) := by
      rw [Document.call, Document.addConsumer, if_neg hs]
    rw [List.map_cons, execute_call hcall, ih (by simpa using hl), List.append_assoc]
    rfl

/-- The objects of one entry are added again one after the other. -/
theorem execute_objects {c : ObjClass} {objkey : List Char} {l l' : List c.Obj} (hk : objkey ∉ d.objkeys)
    (hr : objkey ∉ d.responseKeyset) (h : ∀ o ∈ l', Inv c o ∧ Whole c o) :
    execute (l'.flatMap (objectActions objkey c)) (adding d c objkey l) =
      some (.success, adding d c objkey (l ++ l')) := by
  induction l' generalizing l with
  | nil =>
    rw [List.append_nil]
    rfl
  | cons o l' ih =>
    obtain ⟨hi, hw⟩ := h o List.mem_cons_self
    rw [List.flatMap_cons, execute_append (execute_object hk hr hi hw l),
      ih fun o ho => h o (List.mem_cons_of_mem _ ho), List.append_assoc]
    rfl

theorem execute_entries (rs : List Entry) (hd : d.responseKeyset = d.objkeys)
    (hk : ((d.response ++ rs).map Entry.objkey).Nodup)
    (h : ∀ r ∈ rs, r.objcontent ≠ [] ∧ ∀ o ∈ r.objcontent, Inv r.objclass o ∧ Whole r.objclass o) :
    execute (rs.flatMap fun r => r.objcontent.flatMap (objectActions r.objkey r.objclass)) d =
      some (.success, { d with
        response := d.response ++ rs
        responseKeyset := (d.response ++ rs).map Entry.objkey }) := by
  induction rs generalizing d with
  | nil =>
    rw [List.append_nil, ← Document.objkeys, ← hd]
    rfl
  | cons r rs ih =>
    obtain ⟨hne, hobjects⟩ := h r List.mem_cons_self
    have hkey : r.objkey ∉ d.objkeys := by
      rw [List.map_append] at hk
      exact fun hm => (List.nodup_append.mp hk).2.2 _ hm _ List.mem_cons_self rfl
    have hadded : adding d r.objclass r.objkey ([] ++ r.objcontent) = { d with
        response := d.response ++ [r]
        responseKeyset := d.responseKeyset ++ [r.objkey] } := by
      obtain ⟨c, key, objcontent⟩ := r
      cases objcontent with
      | nil => exact absurd rfl hne
      | cons o l => rfl
    have hentry : execute (r.objcontent.flatMap (objectActions r.objkey r.objclass)) d = _ :=
      execute_objects (l := []) hkey (hd ▸ hkey) hobjects
    rw [hadded] at hentry
    rw [List.flatMap_cons, execute_append hentry, ih, List.append_assoc]
    · rfl
    · rw [hd, Document.objkeys, Document.objkeys, List.map_append]
      rfl
    · simpa using hk
    · exact fun r hr => h r (List.mem_cons_of_mem _ hr)

/-- The calls that the reader makes build the document again. -/
theorem execute_documentActions (hi : d.Inv) (hw : d.Whole) : execute (documentActions d) {} = some (.success, d) := by
  have hsource : execute ((d.source.map sourceActions).getD []) {} = some (.success, { source := d.source }) := by
    cases hs : d.source with
    | none => rfl
    | some s => exact execute_source (hi.source s hs) rfl
  have hextra : execute ((d.extra.map fun e => (e.keys.zip e.values).map fun kv =>
      Action.call (.extraDetail (some kv.1) (some kv.2))).getD []) { source := d.source } =
      some (.success, { source := d.source, extra := d.extra }) := by
    cases he : d.extra with
    | none => rfl
    | some e => exact execute_extra (hi.extra e he).1 (hi.extra e he).2 rfl
  have hconsumers := execute_consumers (d := { source := d.source, extra := d.extra }) (l := d.consumers) hi.consumers
  have hentries := execute_entries
    (d := { source := d.source, extra := d.extra, consumers := d.consumers }) d.response rfl hi.objkeys
    fun r hr => ⟨(hi.response r hr).1, fun o ho => ⟨(hi.response r hr).2 o ho, hw r hr o ho⟩⟩
  unfold documentActions
  rw [execute_append ((execute_append ((execute_append hsource).trans hextra)).trans hconsumers)]
  refine hentries.trans ?_
  have hkeys : d.response.map Entry.objkey = d.responseKeyset := hi.responseKeyset.symm
  rw [List.nil_append, hkeys]

end Execute

section Kept

variable {n : Nat} {l : List (List Char)} {rows : List (List (List Char))} {ms ms' : List (String × Json)}

theorem isText_iff {s : List Char} : isText s = true ↔ validUtf8 s = true ∧ '\x00' ∉ s := by
  simp [isText]

/-- The names of the members that the writer uses. -/
def memberNames : List String :=
  ["title", "message", "description", "rowkeys", "rowfieldtypes", "rowvalues", "measurename", "measuretype", "colkeys",
    "colfieldtypes", "colvalues", "measurevalues", "node", "nodekeys", "nodevalues", "nodelinks", "rootnode",
    "objclass", "objkey", "objcontent", "keys", "values", "srckey", "srcname", "srcurl", "producer", "source", "extra",
    "consumers", "responseKeyset", "response"]

theorem isText_memberNames : ∀ k ∈ memberNames, isText k.toList = true := by
  decide

/-- What the library reads back when it has been printed. -/
structure Kept (n : Nat) (j : Json) : Prop where
  sound : Sound j
  nested : Nested n j

theorem Kept.string {s : List Char} (h : isText s = true) : Kept (n + 1) (string s) := ⟨.string h, .string s⟩

def KeptMembers (n : Nat) (ms : List (String × Json)) : Prop := ∀ m ∈ ms, m.1 ∈ memberNames ∧ Kept n m.2

theorem kept_object (h : KeptMembers n ms) : Kept (n + 1) (object ms) :=
  ⟨.object (fun m hm => isText_memberNames m.1 (h m hm).1) fun m hm => (h m hm).2.sound,
    .object fun m hm => (h m hm).2.nested⟩

theorem keptMembers_nil : KeptMembers n [] := fun _ h => absurd h List.not_mem_nil

theorem keptMembers_cons {k : String} {j : Json} (hk : k ∈ memberNames) (hj : Kept n j) (h : KeptMembers n ms) :
    KeptMembers n ((k, j) :: ms) := List.forall_mem_cons.mpr ⟨⟨hk, hj⟩, h⟩

theorem keptMembers_append (h : KeptMembers n ms) (h' : KeptMembers n ms') : KeptMembers n (ms ++ ms') :=
  List.forall_mem_append.mpr ⟨h, h'⟩

theorem keptMembers_singleton {k : String} {j : Json} (hk : k ∈ memberNames) (hj : Kept n j) : KeptMembers n [(k, j)] :=
  keptMembers_cons hk hj keptMembers_nil

theorem keptMembers_optionalJson {k : String} {s : Option (List Char)} (hk : k ∈ memberNames)
    (h : ∀ t ∈ s.toList, isText t = true) : KeptMembers (n + 1) (optionalJson k s) := by
  cases s with
  | none => exact keptMembers_nil
  | some s => exact keptMembers_singleton hk (.string (h s List.mem_cons_self))

theorem kept_map {α : Type} {f : α → Json} {l : List α} (h : ∀ a ∈ l, Kept n (f a)) :
    Kept (n + 1) (array (l.map f)) := by
  have hall : ∀ j ∈ l.map f, Kept n j := by
    intro j hj
    obtain ⟨a, ha, rfl⟩ := List.mem_map.mp hj
    exact h a ha
  exact ⟨.array fun j hj => (hall j hj).sound, .array fun j hj => (hall j hj).nested⟩

theorem kept_textsJson (h : ∀ s ∈ l, isText s = true) : Kept (n + 2) (textsJson l) :=
  kept_map fun s hs => .string (h s hs)

theorem kept_rowsJson (h : ∀ s ∈ rows.flatten, isText s = true) : Kept (n + 3) (rowsJson rows) :=
  kept_map fun row hrow => kept_textsJson fun s hs => h s (List.mem_flatten.mpr ⟨row, hrow, hs⟩)

theorem keptMembers_nonemptyJson {k : String} (hk : k ∈ memberNames) (h : ∀ s ∈ l, isText s = true) :
    KeptMembers (n + 2) (nonemptyJson k l) := by
  unfold nonemptyJson
  split
  · exact keptMembers_singleton hk (kept_textsJson h)
  · exact keptMembers_nil

theorem kept_textJson {o : ObjText} (h : ∀ s ∈ texts .text o, isText s = true) : Kept (n + 5) o.json := by
  obtain ⟨ht, hm⟩ := List.forall_mem_cons.mp h
  exact kept_object (keptMembers_cons (by decide) (.string ht) (keptMembers_optionalJson (by decide) hm))

theorem kept_gridJson {o : ObjGrid} (h : ∀ s ∈ texts .grid o, isText s = true) : Kept (n + 5) o.json := by
  simp only [texts, List.forall_mem_cons, List.forall_mem_append] at h
  obtain ⟨ht, ⟨⟨hd, hk⟩, hf⟩, hv⟩ := h
  exact kept_object (keptMembers_append
    (keptMembers_cons (by decide) (.string ht) (keptMembers_optionalJson (by decide) hd))
    (keptMembers_cons (by decide) (kept_textsJson hk) (keptMembers_cons (by decide) (kept_textsJson hf)
      (keptMembers_singleton (by decide) (kept_rowsJson hv)))))

theorem kept_multigridJson {o : ObjMultigrid} (hw : o.Whole) (h : ∀ s ∈ texts .multigrid o, isText s = true) :
    Kept (n + 5) o.json := by
  obtain ⟨name, hname⟩ := Option.isSome_iff_exists.mp hw.measurename
  obtain ⟨type, htype⟩ := Option.isSome_iff_exists.mp hw.measuretype
  simp only [texts, hname, htype, Option.toList_some, List.forall_mem_singleton, List.forall_mem_cons,
    List.forall_mem_append] at h
  obtain ⟨ht, ⟨⟨⟨⟨⟨⟨⟨⟨⟨hd, hn⟩, htype'⟩, hrk⟩, hrf⟩, hrv⟩, hck⟩, hcf⟩, hcv⟩, hmv⟩⟩ := h
  unfold ObjMultigrid.json
  rw [hname, htype]
  exact kept_object (keptMembers_append
    (keptMembers_cons (by decide) (.string ht) (keptMembers_optionalJson (by decide) hd))
    (keptMembers_cons (by decide) (.string hn) (keptMembers_cons (by decide) (.string htype')
      (keptMembers_cons (by decide) (kept_textsJson hrk) (keptMembers_cons (by decide) (kept_textsJson hrf)
        (keptMembers_cons (by decide) (kept_rowsJson hrv) (keptMembers_cons (by decide) (kept_textsJson hck)
          (keptMembers_cons (by decide) (kept_textsJson hcf) (keptMembers_cons (by decide) (kept_rowsJson hcv)
            (keptMembers_singleton (by decide) (kept_rowsJson hmv)))))))))))

theorem keptMembers_graph {g : ObjGraph} {root : List (String × Json)} (hroot : KeptMembers (n + 4) root)
    (h : ∀ s ∈ graphTexts g, isText s = true) :
    KeptMembers (n + 4) (("title", .string g.title) :: optionalJson "description" g.description ++ root ++ g.nodesJson) := by
  simp only [graphTexts, List.forall_mem_cons, List.forall_mem_append, List.forall_mem_flatMap,
    List.forall_mem_flatten] at h
  obtain ⟨ht, ⟨⟨hd, hk⟩, hv⟩, hl⟩ := h
  have hvalues : KeptMembers (n + 4) g.valuesJson := by
    unfold ObjGraph.valuesJson
    split
    · exact keptMembers_cons (by decide) (kept_textsJson hk) (keptMembers_singleton (by decide)
        (kept_rowsJson (List.forall_mem_flatten.mpr hv)))
    · exact keptMembers_nil
  have hlinks : Kept (n + 4) (array (g.nodelinks.map linksJson)) :=
    kept_map fun links hlinks => kept_map fun link hlink => kept_object
      (keptMembers_cons (by decide) (.string (hl links hlinks link hlink).1)
        (keptMembers_optionalJson (by decide) (hl links hlinks link hlink).2))
  exact keptMembers_append (keptMembers_append
    (keptMembers_cons (by decide) (.string ht) (keptMembers_optionalJson (by decide) hd)) hroot)
    (keptMembers_append hvalues (keptMembers_singleton (by decide) hlinks))

theorem kept_graphJson {g : ObjGraph} (h : ∀ s ∈ graphTexts g, isText s = true) : Kept (n + 5) g.json := by
  have hms := keptMembers_graph (n := n) keptMembers_nil h
  rw [List.append_nil] at hms
  exact kept_object hms

theorem kept_treeJson {t : ObjTree} (hroot : t.rootnode.isSome = true) (h : ∀ s ∈ texts .tree t, isText s = true) :
    Kept (n + 5) t.json := by
  obtain ⟨root, hroot⟩ := Option.isSome_iff_exists.mp hroot
  have h := List.forall_mem_append.mp h
  have hr : isText (t.rootnode.getD []) = true := by
    rw [hroot]
    exact h.1 root (by rw [hroot]; exact List.mem_cons_self)
  exact kept_object (keptMembers_graph (keptMembers_singleton (by decide) (.string hr)) h.2)

theorem kept_objectJson {c : ObjClass} {o : c.Obj} (hw : Whole c o) (h : ∀ s ∈ texts c o, isText s = true) :
    Kept (n + 5) (objectJson c o) := by
  cases c with
  | text => exact kept_textJson h
  | grid => exact kept_gridJson h
  | multigrid => exact kept_multigridJson hw h
  | tree => exact kept_treeJson hw.1 h
  | digraph => exact kept_graphJson h
  | graph => exact kept_graphJson h

theorem isText_name (c : ObjClass) : isText c.name = true := by
  cases c <;> decide

theorem kept_entryJson {r : Entry} (hw : ∀ o ∈ r.objcontent, Whole r.objclass o)
    (h : ∀ s ∈ r.texts, isText s = true) : Kept (n + 7) r.json := by
  simp only [Entry.texts, List.forall_mem_cons, List.forall_mem_flatMap] at h
  exact kept_object (keptMembers_cons (by decide) (.string (isText_name _)) (keptMembers_cons (by decide)
    (.string h.1) (keptMembers_singleton (by decide) (kept_map fun o ho => kept_objectJson (hw o ho) (h.2 o ho)))))

theorem keptMembers_extraJson {e : Extra} (hk : ∀ s ∈ e.keys, isText s = true)
    (hv : ∀ s ∈ e.values, isText s = true) : KeptMembers (n + 2) e.json := by
  unfold Extra.json
  split
  · exact keptMembers_cons (by decide) (kept_textsJson hk) (keptMembers_singleton (by decide) (kept_textsJson hv))
  · exact keptMembers_nil

theorem kept_sourceJson {s : Source} (h : ∀ t ∈ s.texts, isText t = true) : Kept (n + 3) s.json := by
  simp only [Source.texts, List.forall_mem_cons, List.forall_mem_append] at h
  obtain ⟨hk, hn, ⟨⟨⟨hu, hd⟩, hp⟩, hks⟩, hvs⟩ := h
  exact kept_object (keptMembers_append (keptMembers_append (keptMembers_append
    (keptMembers_cons (by decide) (.string hk) (keptMembers_cons (by decide) (.string hn)
      (keptMembers_optionalJson (by decide) hu))) (keptMembers_optionalJson (by decide) hd))
    (keptMembers_optionalJson (by decide) hp)) (keptMembers_extraJson hks hvs))

theorem kept_documentJson {d : Document} (hw : d.Whole) (h : ∀ s ∈ d.texts, isText s = true) :
    Kept parserMaxDepth d.json := by
  simp only [Document.texts, List.forall_mem_append, List.forall_mem_flatMap] at h
  obtain ⟨⟨⟨⟨hs, he⟩, hc⟩, hk⟩, hr⟩ := h
  have hsource : KeptMembers 8 (d.source.map fun s => ("source", s.json)).toList := by
    cases hd : d.source with
    | none => exact keptMembers_nil
    | some s =>
      rw [hd] at hs
      exact keptMembers_singleton (by decide) (kept_sourceJson hs)
  have hextra : KeptMembers 8 (d.extra.map fun e => ("extra", Json.object e.json)).toList := by
    cases hd : d.extra with
    | none => exact keptMembers_nil
    | some e =>
      rw [hd] at he
      have he := List.forall_mem_append.mp he
      exact keptMembers_singleton (by decide) (kept_object (keptMembers_extraJson he.1 he.2))
  have hresponse : KeptMembers 8 (if d.response.length ≠ 0 then
      [("response", Json.array (d.response.map Entry.json))] else []) := by
    split
    · exact keptMembers_singleton (by decide) (kept_map fun r hmem => kept_entryJson (hw r hmem) (hr r hmem))
    · exact keptMembers_nil
  have hdocument : Kept 9 d.json :=
    kept_object (keptMembers_append (keptMembers_append (keptMembers_append (keptMembers_append hsource hextra)
      (keptMembers_nonemptyJson (by decide) hc)) (keptMembers_nonemptyJson (by decide) hk)) hresponse)
  exact ⟨hdocument.sound, hdocument.nested.mono (by decide)⟩

end Kept

section RoundTrip

variable {cs : List Call} {d : Document} {s : List Char}

theorem fromJsonString_dumps [Jansson] (hi : d.Inv) (hw : d.Whole) (h : ∀ t ∈ d.texts, isText t = true) :
    fromJsonString (dumps d.json) = some (.success, d) := by
  have hkept := kept_documentJson hw h
  have hloads : loads (dumps d.json) = some d.json := Jansson.loads_dumps (.object _) hkept.sound hkept.nested
  unfold fromJsonString
  rw [hloads]
  dsimp only
  rw [readDocument_json hi hw, execute_documentActions hi hw]

/-- Every document that can be written is read back as it was: nothing is lost and the order is kept, and the reader
makes no call that fails. The texts are C strings. -/
theorem read_written [Jansson] (h : ({} : Document).calls cs = some d) (hnull : ∀ t ∈ d.texts, '\x00' ∉ t)
    (hs : d.toJsonString = .ok s) : fromJsonString s = some (.success, d) := by
  have hi := inv_calls inv_empty h
  obtain ⟨⟨hw, hv⟩, rfl⟩ := (toJsonString_eq_ok hi).mp hs
  exact fromJsonString_dumps hi hw fun t ht => isText_iff.mpr ⟨hv t ht, hnull t ht⟩

theorem read_written_cubes :
    ∃ s, cubesDocument.toJsonString = .ok s ∧ fromJsonString s = some (.success, cubesDocument) :=
  ⟨_, rfl, read_written calls_cubes (by decide) rfl⟩

end RoundTrip

end OphidiaWorkflow.Response
