import OphidiaWorkflow.Response.Reader
/-!
The calls that the reader makes for a document that has been written.
-/
namespace OphidiaWorkflow.Response
open Json Lib

section Lookup

variable (ms ms' : List (String × Json)) (k k' : String)

theorem get?_cons (m : String × Json) :
    (object (m :: ms)).get? k = ((object ms).get? k).or (if k = m.1 then some m.2 else none) := by
  show (m :: ms).reverse.lookup k = (ms.reverse.lookup k).or _
  rw [List.reverse_cons, List.lookup_append, List.lookup_cons, List.lookup_nil]
  by_cases h : k = m.1
  · rw [if_pos h, beq_iff_eq.mpr h]
  · rw [if_neg h, beq_false_of_ne h]

theorem get?_append : (object (ms ++ ms')).get? k = ((object ms').get? k).or ((object ms).get? k) := by
  show (ms ++ ms').reverse.lookup k = _
  rw [List.reverse_append, List.lookup_append]
  rfl

theorem get?_optionalJson (s : Option (List Char)) :
    (object (optionalJson k s)).get? k' = if k' = k then s.map .string else none := by
  cases s with
  | none =>
    rw [Option.map_none, ite_self]
    rfl
  | some s => exact (get?_cons [] k' (k, .string s)).trans (Option.none_or)

end Lookup

section Plan

variable (objkey : List Char)

theorem readTexts_textsJson (l : List (List Char)) : readTexts (textsJson l) = some l := by
  show (l.map Json.string).mapM text? = some l
  induction l with
  | nil => rfl
  | cons s l ih =>
    rw [List.map_cons, List.mapM_cons, ih]
    rfl

theorem readRow_textsJson (call : List (List Char) → Call) (row : List (List Char)) :
    readRow call (textsJson row) = .call (call row) := by
  rw [readRow, readTexts_textsJson]

theorem map_readRow (call : List (List Char) → Call) (rows : List (List (List Char))) :
    (rowsJson rows).items.map (readRow call) = rows.map fun row => .call (call row) := by
  show (rows.map textsJson).map (readRow call) = _
  rw [List.map_map]
  exact List.map_congr_left fun row _ => readRow_textsJson call row

theorem mapM_readTexts (rows : List (List (List Char))) : (rowsJson rows).items.mapM readTexts = some rows := by
  show (rows.map textsJson).mapM readTexts = some rows
  induction rows with
  | nil => rfl
  | cons row rows ih =>
    rw [List.map_cons, List.mapM_cons, ih, readTexts_textsJson]
    rfl

variable {o : Json} {texts : List String} {k : String} {s : Option (List Char)}

/-- The members are texts or missing. -/
def TextsOf (o : Json) (texts : List String) : Prop := ∀ k ∈ texts, ∃ s : Option (List Char), o.get? k = s.map .string

theorem TextsOf.unpack (h : TextsOf o texts) (hk : k ∈ texts) (hs : o.get? k = s.map .string) : o.unpack texts k = s :=
  (unpack_of_texts h hk).trans (getText?_of_get? hs)

theorem TextsOf.unpackValue (h : TextsOf o texts) (k : String) : unpackValue o texts k = o.get? k := by
  refine if_pos (List.all_eq_true.mpr fun k hk => ?_)
  obtain ⟨s, hs⟩ := h k hk
  rw [acceptsText, hs]
  cases s <;> rfl

theorem readText_json (o : ObjText) : readText objkey o.json = [.call (.text objkey (some o.title) o.message)] := by
  have htitle : o.json.get? "title" = (some o.title).map .string := by
    simp [ObjText.json, get?_cons, get?_optionalJson]
  have hmessage : o.json.get? "message" = o.message.map .string := by
    simp [ObjText.json, get?_cons, get?_optionalJson]
  have htexts : TextsOf o.json ["title", "message"] := by
    simpa [TextsOf] using ⟨⟨_, htitle⟩, _, hmessage⟩
  rw [readText, htexts.unpack (by simp) htitle, htexts.unpack (by simp) hmessage]

theorem readGrid_json (o : ObjGrid) :
    readGrid objkey o.json =
      .call (.grid objkey (some o.title) o.description o.keys o.fieldtypes) ::
        o.values.map fun row => .call (.gridRow objkey row) := by
  have htitle : o.json.get? "title" = (some o.title).map .string := by
    simp [ObjGrid.json, get?_cons, get?_append, get?_optionalJson]
  have hdescription : o.json.get? "description" = o.description.map .string := by
    simp [ObjGrid.json, get?_cons, get?_append, get?_optionalJson]
  have hkeys : o.json.get? "rowkeys" = some (textsJson o.keys) := by
    simp [ObjGrid.json, get?_cons, get?_append, get?_optionalJson]
  have hfieldtypes : o.json.get? "rowfieldtypes" = some (textsJson o.fieldtypes) := by
    simp [ObjGrid.json, get?_cons, get?_append, get?_optionalJson]
  have hvalues : o.json.get? "rowvalues" = some (rowsJson o.values) := by
    simp [ObjGrid.json, get?_cons, get?_append, get?_optionalJson]
  have htexts : TextsOf o.json ["title", "description"] := by
    simpa [TextsOf] using ⟨⟨_, htitle⟩, _, hdescription⟩
  unfold readGrid
  simp only [htexts.unpackValue, htexts.unpack (by simp) htitle, htexts.unpack (by simp) hdescription, hkeys,
    hfieldtypes, hvalues, readTexts_textsJson]
  exact congrArg _ (map_readRow _ o.values)

/-- There are as many measures as rows: no row gets those of the one before. -/
theorem readMeasures_json (measures : Option Json) (rows next : List (List (List Char)))
    (h : next.length = rows.length) :
    readMeasures objkey measures (rows.map textsJson) (next.map textsJson) =
      (rows.zip next).map fun row => .call (.multigridRow objkey row.1 row.2) := by
  induction rows generalizing measures next with
  | nil => rfl
  | cons row rows ih =>
    cases next with
    | nil => cases h
    | cons m next =>
      rw [List.map_cons, List.map_cons, readMeasures, List.tail_cons, ih _ next (Nat.succ.inj h), List.head?_cons,
        Option.some_or]
      dsimp only
      rw [readTexts_textsJson, readTexts_textsJson]
      rfl

theorem readMultigrid_json (o : ObjMultigrid) (hname : o.measurename.isSome = true)
    (htype : o.measuretype.isSome = true) (hrows : o.measurevalues.length = o.rowvalues.length) :
    readMultigrid objkey o.json =
      .call (.multigrid objkey (some o.title) o.description o.rowkeys o.rowfieldtypes o.colkeys o.colfieldtypes
        o.colvalues o.measurename o.measuretype) ::
        (o.rowvalues.zip o.measurevalues).map fun row => .call (.multigridRow objkey row.1 row.2) := by
  obtain ⟨name, hname⟩ := Option.isSome_iff_exists.mp hname
  obtain ⟨type, htype⟩ := Option.isSome_iff_exists.mp htype
  have hget (k : String) : o.json.get? k = (object (("title", .string o.title) ::
      optionalJson "description" o.description ++ [("measurename", .string name), ("measuretype", .string type),
        ("rowkeys", textsJson o.rowkeys), ("rowfieldtypes", textsJson o.rowfieldtypes),
        ("rowvalues", rowsJson o.rowvalues), ("colkeys", textsJson o.colkeys),
        ("colfieldtypes", textsJson o.colfieldtypes), ("colvalues", rowsJson o.colvalues),
        ("measurevalues", rowsJson o.measurevalues)])).get? k := by
    rw [ObjMultigrid.json, hname, htype]
    rfl
  have htitle : o.json.get? "title" = (some o.title).map .string := by
    simp [hget, get?_cons, get?_append, get?_optionalJson]
  have hdescription : o.json.get? "description" = o.description.map .string := by
    simp [hget, get?_cons, get?_append, get?_optionalJson]
  have hmeasurename : o.json.get? "measurename" = (some name).map .string := by
    simp [hget, get?_cons, get?_append]
  have hmeasuretype : o.json.get? "measuretype" = (some type).map .string := by
    simp [hget, get?_cons, get?_append]
  have hvalues : o.json.get? "rowkeys" = some (textsJson o.rowkeys) ∧
      o.json.get? "rowfieldtypes" = some (textsJson o.rowfieldtypes) ∧
      o.json.get? "colkeys" = some (textsJson o.colkeys) ∧
      o.json.get? "colfieldtypes" = some (textsJson o.colfieldtypes) ∧
      o.json.get? "colvalues" = some (rowsJson o.colvalues) ∧
      o.json.get? "rowvalues" = some (rowsJson o.rowvalues) ∧
      o.json.get? "measurevalues" = some (rowsJson o.measurevalues) := by
    simp [hget, get?_cons, get?_append]
  obtain ⟨hrk, hrf, hck, hcf, hcv, hrv, hmv⟩ := hvalues
  have hheads : TextsOf o.json ["title", "description"] := by
    simpa [TextsOf] using ⟨⟨_, htitle⟩, _, hdescription⟩
  have htexts : TextsOf o.json ["title", "description", "measurename", "measuretype"] := by
    simpa [TextsOf] using ⟨⟨_, htitle⟩, ⟨_, hdescription⟩, ⟨_, hmeasurename⟩, _, hmeasuretype⟩
  unfold readMultigrid
  simp only [hheads.unpackValue, htexts.unpack (by simp) htitle, htexts.unpack (by simp) hdescription,
    htexts.unpack (by simp) hmeasurename, htexts.unpack (by simp) hmeasuretype, hrk, hrf, hck, hcf, hcv, hrv, hmv,
    readTexts_textsJson, mapM_readTexts, hname, htype]
  exact congrArg _ (readMeasures_json objkey none o.rowvalues o.measurevalues hrows)

/-- The calls that add the links again. -/
def linkCalls (link : Int → Int → Option (List Char) → Call) : Nat → List (List Link) → List Action
  | _, [] => []
  | source, links :: nodelinks =>
    (links.map fun l => .call (link source (readInt l.node) l.description)) ++ linkCalls link (source + 1) nodelinks

/-- The keys that the graph is created again with. -/
def keysAgain (o : ObjGraph) : Option (List (List Char)) := if o.nodekeys = [] then none else some o.nodekeys

/-- The values that each node is added again with. -/
def nodesAgain (o : ObjGraph) : List (Option (List (List Char))) :=
  if o.nodekeys = [] then o.nodelinks.map fun _ => none else o.nodevalues.map some

theorem readLink_json (link : Int → Int → Option (List Char) → Call) (source : Nat) (l : Link) :
    readLink link source l.json = .call (link source (readInt l.node) l.description) := by
  have hnode : l.json.get? "node" = (some l.node).map .string := by
    simp [Link.json, get?_cons, get?_optionalJson]
  have hdescription : l.json.get? "description" = l.description.map .string := by
    simp [Link.json, get?_cons, get?_optionalJson]
  have htexts : TextsOf l.json ["node", "description"] := by
    simpa [TextsOf] using ⟨⟨_, hnode⟩, _, hdescription⟩
  unfold readLink
  simp only [htexts.unpack (by simp) hnode, htexts.unpack (by simp) hdescription]

theorem readLinks_json (link : Int → Int → Option (List Char) → Call) (source : Nat) (nodelinks : List (List Link)) :
    readLinks link source (nodelinks.map linksJson) = linkCalls link source nodelinks := by
  induction nodelinks generalizing source with
  | nil => rfl
  | cons links nodelinks ih =>
    have hlinks : (linksJson links).items.map (readLink link source) =
        links.map fun l => .call (link source (readInt l.node) l.description) := by
      show (links.map Link.json).map (readLink link source) = _
      rw [List.map_map]
      exact List.map_congr_left fun l _ => readLink_json link source l
    rw [List.map_cons, readLinks, linkCalls, hlinks, ih]

theorem readNodes_json {g : ObjGraph} {create node : Option (List (List Char)) → Call} {root : List Action}
    {link : Int → Int → Option (List Char) → Call} (htexts : TextsOf o ["title", "description"])
    (hkeys : o.get? "nodekeys" = if g.nodekeys = [] then none else some (textsJson g.nodekeys))
    (hvalues : o.get? "nodevalues" = if g.nodekeys = [] then none else some (rowsJson g.nodevalues))
    (hlinks : o.get? "nodelinks" = some (.array (g.nodelinks.map linksJson))) :
    readNodes create node root link o =
      .call (create (keysAgain g)) :: ((nodesAgain g).map fun values => .call (node values)) ++ root ++
        linkCalls link 0 g.nodelinks := by
  have hitems : itemsOf (o.get? "nodelinks") = g.nodelinks.map linksJson := by
    rw [hlinks]
    rfl
  unfold readNodes keysAgain nodesAgain
  dsimp only
  rw [htexts.unpackValue, hitems, readLinks_json, hkeys, hvalues]
  by_cases hk : g.nodekeys = []
  · simp only [if_pos hk, List.map_map]
    rfl
  · simp only [if_neg hk, readTexts_textsJson]
    rw [map_readRow (fun values => node (some values)), List.map_map]
    rfl

theorem get?_nodesJson (g : ObjGraph) :
    ((object g.nodesJson).get? "nodekeys" = if g.nodekeys = [] then none else some (textsJson g.nodekeys)) ∧
    ((object g.nodesJson).get? "nodevalues" = if g.nodekeys = [] then none else some (rowsJson g.nodevalues)) ∧
    (object g.nodesJson).get? "nodelinks" = some (.array (g.nodelinks.map linksJson)) ∧
    ∀ k ∈ ["title", "description", "rootnode"], (object g.nodesJson).get? k = none := by
  unfold ObjGraph.nodesJson ObjGraph.valuesJson
  by_cases hk : g.nodekeys = []
  · simp [hk, get?_cons]
  · simp [hk, get?_cons]

theorem readGraph_json (isDigraph : Bool) (g : ObjGraph) :
    readGraph objkey isDigraph g.json =
      .call (.graph objkey isDigraph (some g.title) g.description (keysAgain g)) ::
        ((nodesAgain g).map fun values => .call (.graphNode objkey values)) ++
        linkCalls (.graphLink objkey) 0 g.nodelinks := by
  obtain ⟨hkeys, hvalues, hlinks, hnone⟩ := get?_nodesJson g
  have htitle : g.json.get? "title" = (some g.title).map .string := by
    simp [ObjGraph.json, get?_cons, get?_append, get?_optionalJson, hnone]
  have hdescription : g.json.get? "description" = g.description.map .string := by
    simp [ObjGraph.json, get?_cons, get?_append, get?_optionalJson, hnone]
  have htexts : TextsOf g.json ["title", "description"] := by
    simpa [TextsOf] using ⟨⟨_, htitle⟩, _, hdescription⟩
  have hnodes (k : String) (hk : k ∉ ["title", "description"]) :
      g.json.get? k = (object g.nodesJson).get? k := by
    have hne : k ≠ "title" ∧ k ≠ "description" := by simpa using hk
    simp [ObjGraph.json, get?_cons, get?_append, get?_optionalJson, hne]
  unfold readGraph
  dsimp only
  rw [htexts.unpack (by simp) htitle, htexts.unpack (by simp) hdescription,
    readNodes_json htexts ((hnodes _ (by decide)).trans hkeys) ((hnodes _ (by decide)).trans hvalues)
      ((hnodes _ (by decide)).trans hlinks), List.append_nil]

theorem readTree_json (t : ObjTree) (hroot : t.rootnode.isSome = true) :
    readTree objkey t.json =
      .call (.tree objkey (some t.title) t.description (keysAgain t.toObjGraph)) ::
        ((nodesAgain t.toObjGraph).map fun values => .call (.treeNode objkey values)) ++
        [.call (.treeRoot objkey (readInt (t.rootnode.getD [])))] ++ linkCalls (.treeLink objkey) 0 t.nodelinks := by
  obtain ⟨hkeys, hvalues, hlinks, hnone⟩ := get?_nodesJson t.toObjGraph
  obtain ⟨root, hroot⟩ := Option.isSome_iff_exists.mp hroot
  have htitle : t.json.get? "title" = (some t.title).map .string := by
    simp [ObjTree.json, get?_cons, get?_append, get?_optionalJson, hnone]
  have hdescription : t.json.get? "description" = t.description.map .string := by
    simp [ObjTree.json, get?_cons, get?_append, get?_optionalJson, hnone]
  have hrootnode : t.json.get? "rootnode" = (some root).map .string := by
    simp [ObjTree.json, get?_cons, get?_append, get?_optionalJson, hnone, hroot]
  have htexts : TextsOf t.json ["title", "description"] := by
    simpa [TextsOf] using ⟨⟨_, htitle⟩, _, hdescription⟩
  have hrtexts : TextsOf t.json ["rootnode"] := by
    simpa [TextsOf] using ⟨_, hrootnode⟩
  have hnodes (k : String) (hk : k ∉ ["title", "description", "rootnode"]) :
      t.json.get? k = (object t.nodesJson).get? k := by
    have hne : k ≠ "title" ∧ k ≠ "description" ∧ k ≠ "rootnode" := by simpa using hk
    simp [ObjTree.json, get?_cons, get?_append, get?_optionalJson, hne]
  unfold readTree readRoot
  dsimp only
  rw [htexts.unpack (by simp) htitle, htexts.unpack (by simp) hdescription, hrtexts.unpack (by simp) hrootnode,
    readNodes_json htexts ((hnodes _ (by decide)).trans hkeys) ((hnodes _ (by decide)).trans hvalues)
      ((hnodes _ (by decide)).trans hlinks), hroot]
  rfl

/-- The calls that add an object again. -/
def objectActions : (c : ObjClass) → c.Obj → List Action
  | .text, o => [.call (.text objkey (some (ObjText.title o)) (ObjText.message o))]
  | .grid, o =>
    .call (.grid objkey (some (ObjGrid.title o)) (ObjGrid.description o) (ObjGrid.keys o) (ObjGrid.fieldtypes o)) ::
      (ObjGrid.values o).map fun row => .call (.gridRow objkey row)
  | .multigrid, o =>
    .call (.multigrid objkey (some (ObjMultigrid.title o)) (ObjMultigrid.description o) (ObjMultigrid.rowkeys o)
      (ObjMultigrid.rowfieldtypes o) (ObjMultigrid.colkeys o) (ObjMultigrid.colfieldtypes o)
      (ObjMultigrid.colvalues o) (ObjMultigrid.measurename o) (ObjMultigrid.measuretype o)) ::
      ((ObjMultigrid.rowvalues o).zip (ObjMultigrid.measurevalues o)).map fun row =>
        .call (.multigridRow objkey row.1 row.2)
  | .tree, o =>
    .call (.tree objkey (some (ObjTree.toObjGraph o).title) (ObjTree.toObjGraph o).description
      (keysAgain (ObjTree.toObjGraph o))) ::
      ((nodesAgain (ObjTree.toObjGraph o)).map fun values => .call (.treeNode objkey values)) ++
      [.call (.treeRoot objkey (readInt ((ObjTree.rootnode o).getD [])))] ++
      linkCalls (.treeLink objkey) 0 (ObjTree.toObjGraph o).nodelinks
  | .digraph, o => graphActions true o
  | .graph, o => graphActions false o
where
  graphActions (isDigraph : Bool) (o : ObjGraph) : List Action :=
    .call (.graph objkey isDigraph (some o.title) o.description (keysAgain o)) ::
      ((nodesAgain o).map fun values => .call (.graphNode objkey values)) ++
      linkCalls (.graphLink objkey) 0 o.nodelinks

theorem readObject_json {c : ObjClass} {o : c.Obj} (hw : Whole c o) :
    readObject objkey c (objectJson c o) = objectActions objkey c o := by
  cases c with
  | text => exact readText_json objkey o
  | grid => exact readGrid_json objkey o
  | multigrid => exact readMultigrid_json objkey o hw.measurename hw.measuretype hw.rows
  | tree => exact readTree_json objkey o hw.1
  | digraph => exact readGraph_json objkey true o
  | graph => exact readGraph_json objkey false o

theorem ofName_name (c : ObjClass) : ObjClass.ofName c.name = some c := by
  cases c <;> decide

theorem readEntry_json {r : Entry} (hw : ∀ o ∈ r.objcontent, Whole r.objclass o) :
    readEntry r.json = r.objcontent.flatMap (objectActions r.objkey r.objclass) := by
  have hclass : r.json.get? "objclass" = (some r.objclass.name).map .string := by
    simp [Entry.json, get?_cons]
  have hkey : r.json.get? "objkey" = (some r.objkey).map .string := by
    simp [Entry.json, get?_cons]
  have hcontent : r.json.get? "objcontent" = some (.array (r.objcontent.map (objectJson r.objclass))) := by
    simp [Entry.json, get?_cons]
  have htexts : TextsOf r.json ["objclass", "objkey"] := by
    simpa [TextsOf] using ⟨⟨_, hclass⟩, _, hkey⟩
  unfold readEntry
  simp only [htexts.unpack (by simp) hclass, htexts.unpack (by simp) hkey, htexts.unpackValue, hcontent, ofName_name]
  show (r.objcontent.map (objectJson r.objclass)).flatMap (readObject r.objkey r.objclass) = _
  rw [List.flatMap_map]
  have hcongr (l : List r.objclass.Obj) (hl : ∀ o ∈ l, Whole r.objclass o) :
      (l.flatMap fun o => readObject r.objkey r.objclass (objectJson r.objclass o)) =
        l.flatMap (objectActions r.objkey r.objclass) := by
    induction l with
    | nil => rfl
    | cons o l ih =>
      rw [List.flatMap_cons, List.flatMap_cons, readObject_json _ (hl o List.mem_cons_self),
        ih fun o ho => hl o (List.mem_cons_of_mem _ ho)]
  exact hcongr r.objcontent hw

/-- Each key has its value: none is repeated. -/
theorem readDetails_json (call : Option (List Char) → Option (List Char) → Call) (key value : Option (List Char))
    (keys values : List (List Char)) (h : values.length = keys.length) :
    readDetails call key value (keys.map .string) (values.map .string) =
      (keys.zip values).map fun kv => .call (call (some kv.1) (some kv.2)) := by
  induction keys generalizing key value values with
  | nil => rfl
  | cons k keys ih =>
    cases values with
    | nil => cases h
    | cons v values =>
      rw [List.map_cons, List.map_cons, readDetails, List.tail_cons, ih _ _ values (Nat.succ.inj h)]
      rfl

theorem readKeys_json (call : Option (List Char) → Option (List Char) → Call) {e : Extra} (he : e.Inv)
    (hkeys : o.get? "keys" = if e.keys = [] then none else some (textsJson e.keys))
    (hvalues : o.get? "values" = if e.keys = [] then none else some (textsJson e.values)) :
    readKeys call o = (e.keys.zip e.values).map fun kv => .call (call (some kv.1) (some kv.2)) := by
  unfold readKeys
  rw [hkeys, hvalues]
  by_cases hk : e.keys = []
  · rw [if_pos hk, if_pos hk, hk]
    rfl
  · rw [if_neg hk, if_neg hk]
    exact readDetails_json call none none e.keys e.values he.2

theorem get?_extraJson (e : Extra) :
    ((object e.json).get? "keys" = if e.keys = [] then none else some (textsJson e.keys)) ∧
    ((object e.json).get? "values" = if e.keys = [] then none else some (textsJson e.values)) ∧
    ∀ k ∈ ["srckey", "srcname", "srcurl", "description", "producer"], (object e.json).get? k = none := by
  unfold Extra.json
  by_cases hk : e.keys = []
  · simp [hk]
  · simp [hk, get?_cons]

/-- The calls that set the source again. -/
def sourceActions (s : Source) : List Action :=
  .call (.source (some s.srckey) (some s.srcname) s.srcurl s.description s.producer) ::
    (s.keys.zip s.values).map fun kv => .call (.sourceDetail (some kv.1) (some kv.2))

theorem readSource_json {j : Json} {s : Source} (hs : s.toExtra.Inv) (h : j.get? "source" = some s.json) :
    readSource j = sourceActions s := by
  obtain ⟨hkeys, hvalues, hnone⟩ := get?_extraJson s.toExtra
  have hsrckey : s.json.get? "srckey" = (some s.srckey).map .string := by
    simp [Source.json, get?_cons, get?_append, get?_optionalJson, hnone]
  have hsrcname : s.json.get? "srcname" = (some s.srcname).map .string := by
    simp [Source.json, get?_cons, get?_append, get?_optionalJson, hnone]
  have hsrcurl : s.json.get? "srcurl" = s.srcurl.map .string := by
    simp [Source.json, get?_cons, get?_append, get?_optionalJson, hnone]
  have hdescription : s.json.get? "description" = s.description.map .string := by
    simp [Source.json, get?_cons, get?_append, get?_optionalJson, hnone]
  have hproducer : s.json.get? "producer" = s.producer.map .string := by
    simp [Source.json, get?_cons, get?_append, get?_optionalJson, hnone]
  have hk : s.json.get? "keys" = (object s.toExtra.json).get? "keys" := by
    simp [Source.json, get?_cons, get?_append, get?_optionalJson]
  have hv : s.json.get? "values" = (object s.toExtra.json).get? "values" := by
    simp [Source.json, get?_cons, get?_append, get?_optionalJson]
  have htexts : TextsOf s.json ["srckey", "srcname", "srcurl", "description", "producer"] := by
    simpa [TextsOf] using ⟨⟨_, hsrckey⟩, ⟨_, hsrcname⟩, ⟨_, hsrcurl⟩, ⟨_, hdescription⟩, _, hproducer⟩
  unfold readSource sourceActions
  rw [h]
  simp only [htexts.unpack (by simp) hsrckey, htexts.unpack (by simp) hsrcname, htexts.unpack (by simp) hsrcurl,
    htexts.unpack (by simp) hdescription, htexts.unpack (by simp) hproducer,
    readKeys_json .sourceDetail hs (hk.trans hkeys) (hv.trans hvalues)]

/-- The calls that build a document again. -/
def documentActions (d : Document) : List Action :=
  (d.source.map sourceActions).getD [] ++
    (d.extra.map fun e => (e.keys.zip e.values).map fun kv => Action.call (.extraDetail (some kv.1) (some kv.2))).getD
      [] ++
    (d.consumers.map fun s => .call (.consumer (some s))) ++
    d.response.flatMap fun r => r.objcontent.flatMap (objectActions r.objkey r.objclass)

theorem readConsumers_json (name : Option (List Char)) (l : List (List Char)) :
    readConsumers name (l.map .string) = l.map fun s => .call (.consumer (some s)) := by
  induction l generalizing name with
  | nil => rfl
  | cons s l ih =>
    rw [List.map_cons, readConsumers, ih]
    rfl

theorem get?_nonemptyJson (k k' : String) (l : List (List Char)) :
    (object (nonemptyJson k l)).get? k' = if k' = k ∧ l ≠ [] then some (textsJson l) else none := by
  unfold nonemptyJson
  by_cases hl : l = []
  · simp [hl]
  · simp [hl, get?_cons]

theorem itemsOf_nonempty (l : List (List Char)) :
    itemsOf (if l = [] then none else some (textsJson l)) = l.map .string := by
  by_cases hl : l = []
  · rw [if_pos hl, hl]
    rfl
  · rw [if_neg hl]
    rfl

/-- The reader makes the calls that build the document again. -/
theorem readDocument_json {d : Document} (hi : d.Inv) (hw : d.Whole) : readDocument d.json = documentActions d := by
  have hoption {α : Type} (k k' : String) (f : α → Json) (a : Option α) :
      (object (a.map fun a => (k, f a)).toList).get? k' = if k' = k then a.map f else none := by
    cases a <;> simp [get?_cons]
  have hlist : (object (if d.response.length ≠ 0 then
      [("response", Json.array (d.response.map Entry.json))] else [])).get? "response" =
      if d.response = [] then none else some (.array (d.response.map Entry.json)) := by
    by_cases hr : d.response = [] <;> simp [hr, get?_cons]
  have hlist' (k : String) (hk : k ≠ "response") : (object (if d.response.length ≠ 0 then
      [("response", Json.array (d.response.map Entry.json))] else [])).get? k = none := by
    by_cases hr : d.response = [] <;> simp [hr, hk, get?_cons]
  have hsource : d.json.get? "source" = d.source.map Source.json := by
    simp only [Document.json, get?_append, hlist' "source" (by decide)]
    simp [get?_nonemptyJson, hoption]
  have hextra : d.json.get? "extra" = d.extra.map fun e => .object e.json := by
    simp only [Document.json, get?_append, hlist' "extra" (by decide)]
    simp [get?_nonemptyJson, hoption]
  have hconsumers : itemsOf (d.json.get? "consumers") = d.consumers.map .string := by
    rw [← itemsOf_nonempty]
    simp only [Document.json, get?_append, hlist' "consumers" (by decide)]
    simp [get?_nonemptyJson, hoption]
  have hresponse : itemsOf (d.json.get? "response") = d.response.map Entry.json := by
    simp only [Document.json, get?_append, hlist]
    by_cases hr : d.response = []
    · simp [hr, get?_nonemptyJson, hoption, itemsOf]
    · simp [hr, itemsOf, items]
  unfold readDocument documentActions
  rw [hconsumers, readConsumers_json, hresponse]
  congr 1
  · congr 1
    congr 1
    · cases hs : d.source with
      | none =>
        rw [hs] at hsource
        rw [readSource, hsource]
        rfl
      | some s => exact readSource_json (hi.source s hs) (by rw [hsource, hs]; rfl)
    · cases he : d.extra with
      | none =>
        rw [he] at hextra
        rw [readExtra, hextra]
        rfl
      | some e =>
        rw [he] at hextra
        rw [readExtra, hextra]
        obtain ⟨hkeys, hvalues, -⟩ := get?_extraJson e
        exact readKeys_json .extraDetail (hi.extra e he).1 hkeys hvalues
  · have hentries (l : List Entry) (hl : ∀ r ∈ l, ∀ o ∈ r.objcontent, Whole r.objclass o) :
        (l.map Entry.json).flatMap readEntry =
          l.flatMap fun r => r.objcontent.flatMap (objectActions r.objkey r.objclass) := by
      induction l with
      | nil => rfl
      | cons r l ih =>
        rw [List.map_cons, List.flatMap_cons, List.flatMap_cons, readEntry_json (hl r List.mem_cons_self),
          ih fun r hr => hl r (List.mem_cons_of_mem _ hr)]
    exact hentries d.response hw

end Plan
end OphidiaWorkflow.Response
