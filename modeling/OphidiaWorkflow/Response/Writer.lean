import OphidiaWorkflow.Response.Invariants
import OphidiaWorkflow.Text.Jansson

/-!
The writer of the documents: the members of each object in their order, and the documents for which it succeeds.
-/
namespace OphidiaWorkflow.Response
open Json Lib

/-! ### The writer -/

def check (p : Prop) [Decidable p] : Except Code Unit := if p then .ok () else .error .badParam

/-- A null pointer where a text must be. -/
def required {α : Type} : Option α → Except Code α
  | some a => .ok a
  | none => .error .badParam

/-- `json_string`, without which `json_object_set_new` and `json_array_append_new` fail. -/
def writeText (s : List Char) : Except Code Json := if validUtf8 s then .ok (.string s) else .error .memory

def writeTexts (l : List (List Char)) : Except Code Json := Json.array <$> l.mapM writeText

def writeRows (rows : List (List (List Char))) : Except Code Json := Json.array <$> rows.mapM writeTexts

/-- A member that a null pointer leaves out. -/
def writeOptional (k : String) : Option (List Char) → Except Code (List (String × Json))
  | none => .ok []
  | some s => (fun j => [(k, j)]) <$> writeText s

namespace ObjText

def toJson (o : ObjText) : Except Code Json := do
  let title ← writeText o.title
  let message ← writeOptional "message" o.message
  return .object (("title", title) :: message)

end ObjText

namespace ObjGrid

def toJson (o : ObjGrid) : Except Code Json := do
  let title ← writeText o.title
  let description ← writeOptional "description" o.description
  check (o.keys.length = o.fieldtypes.length)
  let rowkeys ← writeTexts o.keys
  let rowfieldtypes ← writeTexts o.fieldtypes
  check (o.valuesNum2 = o.keys.length)
  let rowvalues ← writeRows o.values
  return .object (("title", title) :: description ++
    [("rowkeys", rowkeys), ("rowfieldtypes", rowfieldtypes), ("rowvalues", rowvalues)])

end ObjGrid

namespace ObjMultigrid

def toJson (o : ObjMultigrid) : Except Code Json := do
  let title ← writeText o.title
  let description ← writeOptional "description" o.description
  let measurename ← writeText (← required o.measurename)
  let measuretype ← writeText (← required o.measuretype)
  check (o.rowkeys.length = o.rowfieldtypes.length)
  let rowkeys ← writeTexts o.rowkeys
  let rowfieldtypes ← writeTexts o.rowfieldtypes
  check (o.rowvaluesNum2 = o.rowkeys.length)
  let rowvalues ← writeRows o.rowvalues
  check (o.colkeys.length = o.colfieldtypes.length)
  let colkeys ← writeTexts o.colkeys
  let colfieldtypes ← writeTexts o.colfieldtypes
  check (o.colvaluesNum2 = o.colkeys.length)
  let colvalues ← writeRows o.colvalues
  check (o.measurevaluesNum2 = o.colvalues.length)
  check (o.measurevalues.length = o.rowvalues.length)
  let measurevalues ← writeRows o.measurevalues
  return .object (("title", title) :: description ++
    [("measurename", measurename), ("measuretype", measuretype), ("rowkeys", rowkeys),
      ("rowfieldtypes", rowfieldtypes), ("rowvalues", rowvalues), ("colkeys", colkeys),
      ("colfieldtypes", colfieldtypes), ("colvalues", colvalues), ("measurevalues", measurevalues)])

end ObjMultigrid

def writeLink (l : Link) : Except Code Json := do
  let node ← writeText l.node
  let description ← writeOptional "description" l.description
  return .object (("node", node) :: description)

def writeLinks (links : List Link) : Except Code Json := Json.array <$> links.mapM writeLink

namespace ObjGraph

/-- Graphs without keys have no values. -/
def writeValues (o : ObjGraph) : Except Code (List (String × Json)) :=
  if o.nodekeys.length ≠ 0 then do
    check (o.nodevaluesNum2 = o.nodekeys.length)
    let nodekeys ← writeTexts o.nodekeys
    let nodevalues ← writeRows o.nodevalues
    return [("nodekeys", nodekeys), ("nodevalues", nodevalues)]
  else .ok []

/-- The members that trees and graphs have in common. -/
def writeNodes (o : ObjGraph) : Except Code (List (String × Json)) := do
  let nodes ← o.writeValues
  check (o.nodevalues.length ≠ 0 → o.nodevalues.length = o.nodelinks.length)
  let nodelinks ← Json.array <$> o.nodelinks.mapM writeLinks
  return nodes ++ [("nodelinks", nodelinks)]

def toJson (o : ObjGraph) : Except Code Json := do
  let title ← writeText o.title
  let description ← writeOptional "description" o.description
  let nodes ← o.writeNodes
  return .object (("title", title) :: description ++ nodes)

end ObjGraph

namespace ObjTree

def toJson (o : ObjTree) : Except Code Json := do
  let title ← writeText o.title
  let description ← writeOptional "description" o.description
  let rootnode ← writeText (← required o.rootnode)
  let nodes ← o.writeNodes
  return .object (("title", title) :: description ++ [("rootnode", rootnode)] ++ nodes)

end ObjTree

def writeObject : (c : ObjClass) → c.Obj → Except Code Json
  | .text => ObjText.toJson
  | .grid => ObjGrid.toJson
  | .multigrid => ObjMultigrid.toJson
  | .tree => ObjTree.toJson
  | .digraph => ObjGraph.toJson
  | .graph => ObjGraph.toJson

namespace Entry

def toJson (r : Entry) : Except Code Json := do
  let objclass ← writeText r.objclass.name
  let objkey ← writeText r.objkey
  check (r.objcontent ≠ [])
  let objcontent ← r.objcontent.mapM (writeObject r.objclass)
  return .object [("objclass", objclass), ("objkey", objkey), ("objcontent", .array objcontent)]

end Entry

/-- An array of texts that is left out if it is empty. -/
def writeNonempty (k : String) (l : List (List Char)) : Except Code (List (String × Json)) :=
  if l.length ≠ 0 then (fun j => [(k, j)]) <$> writeTexts l else .ok []

def Extra.toJson (e : Extra) : Except Code (List (String × Json)) := do
  check (e.keys.length = e.values.length)
  if e.keys.length ≠ 0 then
    let keys ← writeTexts e.keys
    let values ← writeTexts e.values
    return [("keys", keys), ("values", values)]
  else return []

namespace Source

def toJson (s : Source) : Except Code Json := do
  let srckey ← writeText s.srckey
  let srcname ← writeText s.srcname
  let srcurl ← writeOptional "srcurl" s.srcurl
  let description ← writeOptional "description" s.description
  let producer ← writeOptional "producer" s.producer
  let details ← s.toExtra.toJson
  return .object (("srckey", srckey) :: ("srcname", srcname) :: srcurl ++ description ++ producer ++ details)

end Source

namespace Document

def writeSource (d : Document) : Except Code (List (String × Json)) :=
  match d.source with
  | none => .ok []
  | some s => (fun j => [("source", j)]) <$> s.toJson

def writeExtra (d : Document) : Except Code (List (String × Json)) :=
  match d.extra with
  | none => .ok []
  | some e => (fun ms => [("extra", .object ms)]) <$> e.toJson

def writeResponse (d : Document) : Except Code (List (String × Json)) :=
  if d.response.length ≠ 0 then (fun l => [("response", .array l)]) <$> d.response.mapM Entry.toJson else .ok []

def toJson (d : Document) : Except Code Json := do
  let source ← d.writeSource
  let extra ← d.writeExtra
  let consumers ← writeNonempty "consumers" d.consumers
  let responseKeyset ← writeNonempty "responseKeyset" d.responseKeyset
  let response ← d.writeResponse
  return .object (source ++ extra ++ consumers ++ responseKeyset ++ response)

/-- `_oph_json_to_json_string` -/
def toJsonString [Jansson] (d : Document) : Except Code (List Char) := dumps <$> d.toJson

end Document

/-! ### What is written -/

def textsJson (l : List (List Char)) : Json := .array (l.map .string)

def rowsJson (rows : List (List (List Char))) : Json := .array (rows.map textsJson)

def optionalJson (k : String) (s : Option (List Char)) : List (String × Json) := (s.map fun s => (k, .string s)).toList

def ObjText.json (o : ObjText) : Json := .object (("title", .string o.title) :: optionalJson "message" o.message)

def ObjGrid.json (o : ObjGrid) : Json :=
  .object (("title", .string o.title) :: optionalJson "description" o.description ++
    [("rowkeys", textsJson o.keys), ("rowfieldtypes", textsJson o.fieldtypes), ("rowvalues", rowsJson o.values)])

def ObjMultigrid.json (o : ObjMultigrid) : Json :=
  .object (("title", .string o.title) :: optionalJson "description" o.description ++
    [("measurename", .string (o.measurename.getD [])), ("measuretype", .string (o.measuretype.getD [])),
      ("rowkeys", textsJson o.rowkeys), ("rowfieldtypes", textsJson o.rowfieldtypes),
      ("rowvalues", rowsJson o.rowvalues), ("colkeys", textsJson o.colkeys),
      ("colfieldtypes", textsJson o.colfieldtypes), ("colvalues", rowsJson o.colvalues),
      ("measurevalues", rowsJson o.measurevalues)])

def Link.json (l : Link) : Json := .object (("node", .string l.node) :: optionalJson "description" l.description)

def linksJson (links : List Link) : Json := .array (links.map Link.json)

def ObjGraph.valuesJson (o : ObjGraph) : List (String × Json) :=
  if o.nodekeys.length ≠ 0 then [("nodekeys", textsJson o.nodekeys), ("nodevalues", rowsJson o.nodevalues)] else []

def ObjGraph.nodesJson (o : ObjGraph) : List (String × Json) :=
  o.valuesJson ++ [("nodelinks", .array (o.nodelinks.map linksJson))]

def ObjGraph.json (o : ObjGraph) : Json :=
  .object (("title", .string o.title) :: optionalJson "description" o.description ++ o.nodesJson)

def ObjTree.json (o : ObjTree) : Json :=
  .object (("title", .string o.title) :: optionalJson "description" o.description ++
    [("rootnode", .string (o.rootnode.getD []))] ++ o.nodesJson)

def objectJson : (c : ObjClass) → c.Obj → Json
  | .text => ObjText.json
  | .grid => ObjGrid.json
  | .multigrid => ObjMultigrid.json
  | .tree => ObjTree.json
  | .digraph => ObjGraph.json
  | .graph => ObjGraph.json

def Entry.json (r : Entry) : Json :=
  .object [("objclass", .string r.objclass.name), ("objkey", .string r.objkey),
    ("objcontent", .array (r.objcontent.map (objectJson r.objclass)))]

def nonemptyJson (k : String) (l : List (List Char)) : List (String × Json) :=
  if l.length ≠ 0 then [(k, textsJson l)] else []

def Extra.json (e : Extra) : List (String × Json) :=
  if e.keys.length ≠ 0 then [("keys", textsJson e.keys), ("values", textsJson e.values)] else []

def Source.json (s : Source) : Json :=
  .object (("srckey", .string s.srckey) :: ("srcname", .string s.srcname) :: optionalJson "srcurl" s.srcurl ++
    optionalJson "description" s.description ++ optionalJson "producer" s.producer ++ s.toExtra.json)

namespace Document

def json (d : Document) : Json :=
  .object ((d.source.map fun s => ("source", s.json)).toList ++
    (d.extra.map fun e => ("extra", Json.object e.json)).toList ++ nonemptyJson "consumers" d.consumers ++
    nonemptyJson "responseKeyset" d.responseKeyset ++
    if d.response.length ≠ 0 then [("response", .array (d.response.map Entry.json))] else [])

end Document

def Entry.texts (r : Entry) : List (List Char) := r.objkey :: r.objcontent.flatMap (Response.texts r.objclass)

namespace Document

/-- The texts of a document that the writer prints. -/
def texts (d : Document) : List (List Char) :=
  (d.source.map Source.texts).getD [] ++ (d.extra.map fun e => e.keys ++ e.values).getD [] ++ d.consumers ++
    d.responseKeyset ++ d.response.flatMap Entry.texts

/-- What the writer asks of the objects of a document. -/
def Whole (d : Document) : Prop := ∀ r ∈ d.response, ∀ o ∈ r.objcontent, Response.Whole r.objclass o

end Document

/-! ### When the writer succeeds -/

section Ok

variable {α β ε : Type}

theorem bind_eq_ok {x : Except ε α} {f : α → Except ε β} {b : β} :
    x >>= f = .ok b ↔ ∃ a, x = .ok a ∧ f a = .ok b := by
  cases x with
  | error e => simp [bind, Except.bind]
  | ok a => simp [bind, Except.bind]

theorem map_eq_ok {x : Except ε α} {f : α → β} {b : β} : f <$> x = .ok b ↔ ∃ a, x = .ok a ∧ f a = b := by
  cases x with
  | error e => simp [Functor.map, Except.map]
  | ok a => simp [Functor.map, Except.map]

theorem pure_eq_ok {a b : α} : (pure a : Except ε α) = .ok b ↔ a = b := by simp [pure, Except.pure]

theorem check_eq_ok {p : Prop} [Decidable p] {u : Unit} : check p = .ok u ↔ p := by
  unfold check
  split
  · next h => simp [h]
  · next h => simp [h]

theorem required_eq_ok {o : Option α} {a : α} : required o = .ok a ↔ o = some a := by
  cases o <;> simp [required]

/-- A list is written if each of its elements is. -/
theorem mapM_eq_ok {f : α → Except ε β} {valid : α → Prop} {g : α → β} {l : List α} {l' : List β}
    (h : ∀ a ∈ l, ∀ b, f a = .ok b ↔ valid a ∧ b = g a) : l.mapM f = .ok l' ↔ (∀ a ∈ l, valid a) ∧ l' = l.map g := by
  induction l generalizing l' with
  | nil => exact ⟨fun h => ⟨by simp, (Except.ok.inj h).symm⟩, fun h => congrArg Except.ok h.2.symm⟩
  | cons a l ih =>
    have ha := h a List.mem_cons_self
    have hl {l' : List β} : l.mapM f = .ok l' ↔ (∀ a ∈ l, valid a) ∧ l' = l.map g :=
      ih fun a ha => h a (List.mem_cons_of_mem _ ha)
    simp only [List.mapM_cons, bind_eq_ok, pure_eq_ok, ha, hl, List.forall_mem_cons, List.map_cons]
    constructor
    · rintro ⟨b, ⟨hb, rfl⟩, l₁, ⟨hl, rfl⟩, rfl⟩
      exact ⟨⟨hb, hl⟩, rfl⟩
    · rintro ⟨⟨hb, hl⟩, rfl⟩
      exact ⟨g a, ⟨hb, rfl⟩, l.map g, ⟨hl, rfl⟩, rfl⟩

end Ok

section Written

variable {s : List Char} {l : List (List Char)} {rows : List (List (List Char))} {k : String} {j : Json}
  {ms : List (String × Json)} {c : ObjClass}

/-- The texts are such as `json_string` accepts them. -/
abbrev Valid (l : List (List Char)) : Prop := ∀ s ∈ l, validUtf8 s = true

theorem writeText_eq_ok : writeText s = .ok j ↔ validUtf8 s = true ∧ j = .string s := by
  unfold writeText
  split
  · next h => simp [h, eq_comm]
  · next h => simp [h]

theorem writeTexts_eq_ok : writeTexts l = .ok j ↔ Valid l ∧ j = textsJson l := by
  have h {l' : List Json} : l.mapM writeText = .ok l' ↔ Valid l ∧ l' = l.map .string :=
    mapM_eq_ok fun s _ j => writeText_eq_ok
  simp only [writeTexts, map_eq_ok, h, textsJson]
  constructor
  · rintro ⟨l', ⟨hl, rfl⟩, rfl⟩
    exact ⟨hl, rfl⟩
  · rintro ⟨hl, rfl⟩
    exact ⟨_, ⟨hl, rfl⟩, rfl⟩

theorem writeRows_eq_ok : writeRows rows = .ok j ↔ Valid rows.flatten ∧ j = rowsJson rows := by
  have h {l' : List Json} : rows.mapM writeTexts = .ok l' ↔ (∀ l ∈ rows, Valid l) ∧ l' = rows.map textsJson :=
    mapM_eq_ok fun s _ j => writeTexts_eq_ok
  simp only [writeRows, map_eq_ok, h, rowsJson, List.forall_mem_flatten]
  constructor
  · rintro ⟨l', ⟨hl, rfl⟩, rfl⟩
    exact ⟨hl, rfl⟩
  · rintro ⟨hl, rfl⟩
    exact ⟨_, ⟨hl, rfl⟩, rfl⟩

theorem writeOptional_eq_ok {s : Option (List Char)} :
    writeOptional k s = .ok ms ↔ Valid s.toList ∧ ms = optionalJson k s := by
  cases s with
  | none => exact ⟨fun h => ⟨by simp [Valid], (Except.ok.inj h).symm⟩, fun h => congrArg Except.ok h.2.symm⟩
  | some s =>
    simp only [writeOptional, map_eq_ok, writeText_eq_ok, Option.toList_some, List.forall_mem_singleton]
    constructor
    · rintro ⟨j, ⟨hs, rfl⟩, rfl⟩
      exact ⟨hs, rfl⟩
    · rintro ⟨hs, rfl⟩
      exact ⟨_, ⟨hs, rfl⟩, rfl⟩

theorem textJson_eq_ok {o : ObjText} : o.toJson = .ok j ↔ Valid (texts .text o) ∧ j = o.json := by
  simp only [ObjText.toJson, bind_eq_ok, pure_eq_ok, writeText_eq_ok, writeOptional_eq_ok, texts,
    List.forall_mem_cons, ObjText.json]
  constructor
  · rintro ⟨t, ⟨ht, rfl⟩, m, ⟨hm, rfl⟩, rfl⟩
    exact ⟨⟨ht, hm⟩, rfl⟩
  · rintro ⟨⟨ht, hm⟩, rfl⟩
    exact ⟨_, ⟨ht, rfl⟩, _, ⟨hm, rfl⟩, rfl⟩

theorem gridJson_eq_ok {o : ObjGrid} : o.toJson = .ok j ↔ o.Whole ∧ Valid (texts .grid o) ∧ j = o.json := by
  simp only [ObjGrid.toJson, bind_eq_ok, pure_eq_ok, writeText_eq_ok, writeOptional_eq_ok, writeTexts_eq_ok,
    writeRows_eq_ok, check_eq_ok, texts, List.forall_mem_cons, List.forall_mem_append, ObjGrid.Whole]
  constructor
  · rintro ⟨t, ⟨ht, rfl⟩, m, ⟨hd, rfl⟩, -, hl, ks, ⟨hks, rfl⟩, ts, ⟨hts, rfl⟩, -, hn, vs, ⟨hvs, rfl⟩, rfl⟩
    exact ⟨⟨hl, hn⟩, ⟨ht, ⟨⟨hd, hks⟩, hts⟩, hvs⟩, rfl⟩
  · rintro ⟨⟨hl, hn⟩, ⟨ht, ⟨⟨hd, hks⟩, hts⟩, hvs⟩, rfl⟩
    exact ⟨_, ⟨ht, rfl⟩, _, ⟨hd, rfl⟩, (), hl, _, ⟨hks, rfl⟩, _, ⟨hts, rfl⟩, (), hn, _, ⟨hvs, rfl⟩, rfl⟩

theorem multigridJson_eq_ok {o : ObjMultigrid} :
    o.toJson = .ok j ↔ o.Whole ∧ Valid (texts .multigrid o) ∧ j = o.json := by
  simp only [ObjMultigrid.toJson, bind_eq_ok, pure_eq_ok, writeText_eq_ok, writeOptional_eq_ok, writeTexts_eq_ok,
    writeRows_eq_ok, check_eq_ok, required_eq_ok, texts, List.forall_mem_cons, List.forall_mem_append]
  constructor
  · rintro ⟨t, ⟨ht, rfl⟩, m, ⟨hd, rfl⟩, mn, hmn, _, ⟨hvmn, rfl⟩, mt, hmt, _, ⟨hvmt, rfl⟩, -, h₁, _, ⟨hrk, rfl⟩,
      _, ⟨hrf, rfl⟩, -, h₂, _, ⟨hrv, rfl⟩, -, h₃, _, ⟨hck, rfl⟩, _, ⟨hcf, rfl⟩, -, h₄, _, ⟨hcv, rfl⟩, -, h₅, -, h₆,
      _, ⟨hmv, rfl⟩, rfl⟩
    refine ⟨⟨by rw [hmn]; rfl, by rw [hmt]; rfl, h₁, h₂, h₃, h₄, h₅, h₆⟩,
      ⟨ht, ⟨⟨⟨⟨⟨⟨⟨⟨⟨hd, ?_⟩, ?_⟩, hrk⟩, hrf⟩, hrv⟩, hck⟩, hcf⟩, hcv⟩, hmv⟩⟩, ?_⟩
    · rw [hmn]
      exact List.forall_mem_singleton.mpr hvmn
    · rw [hmt]
      exact List.forall_mem_singleton.mpr hvmt
    · rw [ObjMultigrid.json, hmn, hmt]
      rfl
  · rintro ⟨hw, ⟨ht, ⟨⟨⟨⟨⟨⟨⟨⟨⟨hd, hvmn⟩, hvmt⟩, hrk⟩, hrf⟩, hrv⟩, hck⟩, hcf⟩, hcv⟩, hmv⟩⟩, rfl⟩
    obtain ⟨mn, hmn⟩ := Option.isSome_iff_exists.mp hw.measurename
    obtain ⟨mt, hmt⟩ := Option.isSome_iff_exists.mp hw.measuretype
    have hvmn' := hvmn mn (by rw [hmn]; exact List.mem_singleton_self mn)
    have hvmt' := hvmt mt (by rw [hmt]; exact List.mem_singleton_self mt)
    refine ⟨_, ⟨ht, rfl⟩, _, ⟨hd, rfl⟩, mn, hmn, _, ⟨hvmn', rfl⟩, mt, hmt, _,
      ⟨hvmt', rfl⟩, (), hw.rowfieldtypes, _, ⟨hrk, rfl⟩, _, ⟨hrf, rfl⟩, (), hw.rowvalues,
      _, ⟨hrv, rfl⟩, (), hw.colfieldtypes, _, ⟨hck, rfl⟩, _, ⟨hcf, rfl⟩, (), hw.colvalues, _, ⟨hcv, rfl⟩, (),
      hw.measures, (), hw.rows, _, ⟨hmv, rfl⟩, ?_⟩
    rw [ObjMultigrid.json, hmn, hmt]
    rfl

theorem writeLink_eq_ok {l : Link} :
    writeLink l = .ok j ↔ Valid (l.node :: l.description.toList) ∧ j = l.json := by
  simp only [writeLink, bind_eq_ok, pure_eq_ok, writeText_eq_ok, writeOptional_eq_ok, List.forall_mem_cons, Link.json]
  constructor
  · rintro ⟨t, ⟨ht, rfl⟩, m, ⟨hm, rfl⟩, rfl⟩
    exact ⟨⟨ht, hm⟩, rfl⟩
  · rintro ⟨⟨ht, hm⟩, rfl⟩
    exact ⟨_, ⟨ht, rfl⟩, _, ⟨hm, rfl⟩, rfl⟩

theorem writeLinks_eq_ok {links : List Link} :
    writeLinks links = .ok j ↔
      Valid (links.flatMap fun l => l.node :: l.description.toList) ∧ j = linksJson links := by
  have h {l' : List Json} : links.mapM writeLink = .ok l' ↔
      (∀ l ∈ links, Valid (l.node :: l.description.toList)) ∧ l' = links.map Link.json :=
    mapM_eq_ok fun l _ j => writeLink_eq_ok
  simp only [writeLinks, map_eq_ok, h, linksJson, List.forall_mem_flatMap]
  constructor
  · rintro ⟨l', ⟨hl, rfl⟩, rfl⟩
    exact ⟨hl, rfl⟩
  · rintro ⟨hl, rfl⟩
    exact ⟨_, ⟨hl, rfl⟩, rfl⟩

/-- The texts of the nodes, their values and their links. -/
def nodesTexts (o : ObjGraph) : List (List Char) :=
  o.nodekeys ++ o.nodevalues.flatten ++ o.nodelinks.flatten.flatMap fun l => l.node :: l.description.toList

theorem writeValues_eq_ok {o : ObjGraph} (h : o.nodekeys = [] → o.nodevalues = []) :
    o.writeValues = .ok ms ↔
      (o.nodekeys ≠ [] → o.nodevaluesNum2 = o.nodekeys.length) ∧ Valid (o.nodekeys ++ o.nodevalues.flatten) ∧
        ms = o.valuesJson := by
  unfold ObjGraph.writeValues ObjGraph.valuesJson
  by_cases hk : o.nodekeys = []
  · rw [if_neg (by simp [hk]), if_neg (by simp [hk]), hk, h hk]
    exact ⟨fun hok => ⟨fun hne => absurd rfl hne, by simp [Valid], (Except.ok.inj hok).symm⟩,
      fun hms => congrArg Except.ok hms.2.2.symm⟩
  · have hlen : o.nodekeys.length ≠ 0 := fun h => hk (List.eq_nil_of_length_eq_zero h)
    rw [if_pos hlen, if_pos hlen]
    simp only [bind_eq_ok, pure_eq_ok, check_eq_ok, writeTexts_eq_ok, writeRows_eq_ok, List.forall_mem_append]
    constructor
    · rintro ⟨-, hn, _, ⟨hks, rfl⟩, _, ⟨hvs, rfl⟩, rfl⟩
      exact ⟨fun _ => hn, ⟨hks, hvs⟩, rfl⟩
    · rintro ⟨hn, ⟨hks, hvs⟩, rfl⟩
      exact ⟨(), hn hk, _, ⟨hks, rfl⟩, _, ⟨hvs, rfl⟩, rfl⟩

theorem writeNodes_eq_ok {o : ObjGraph} (h : o.nodekeys = [] → o.nodevalues = []) :
    o.writeNodes = .ok ms ↔ o.Whole ∧ Valid (nodesTexts o) ∧ ms = o.nodesJson := by
  have hlinks {l' : List Json} : o.nodelinks.mapM writeLinks = .ok l' ↔
      (∀ links ∈ o.nodelinks, Valid (links.flatMap fun l => l.node :: l.description.toList)) ∧
        l' = o.nodelinks.map linksJson := mapM_eq_ok fun l _ j => writeLinks_eq_ok
  have hflat : (∀ links ∈ o.nodelinks, Valid (links.flatMap fun l => l.node :: l.description.toList)) ↔
      Valid (o.nodelinks.flatten.flatMap fun l => l.node :: l.description.toList) := by
    simp only [List.forall_mem_flatMap, List.forall_mem_flatten]
  have hnodes : (o.nodevalues.length ≠ 0 → o.nodevalues.length = o.nodelinks.length) ↔
      (o.nodevalues ≠ [] → o.nodevalues.length = o.nodelinks.length) := by
    rw [ne_eq, List.length_eq_zero_iff]
  simp only [ObjGraph.writeNodes, bind_eq_ok, pure_eq_ok, check_eq_ok, map_eq_ok, writeValues_eq_ok h, hlinks, hflat,
    ObjGraph.nodesJson, nodesTexts, List.forall_mem_append, hnodes]
  constructor
  · rintro ⟨_, ⟨hn, hv, rfl⟩, -, hnl, _, ⟨_, ⟨hl, rfl⟩, rfl⟩, rfl⟩
    exact ⟨⟨hn, hnl⟩, ⟨hv, hl⟩, rfl⟩
  · rintro ⟨hw, ⟨hv, hl⟩, rfl⟩
    exact ⟨_, ⟨hw.1, hv, rfl⟩, (), hw.2, _, ⟨_, ⟨hl, rfl⟩, rfl⟩, rfl⟩

theorem valid_graphTexts {o : ObjGraph} :
    Valid (graphTexts o) ↔ validUtf8 o.title = true ∧ Valid o.description.toList ∧ Valid (nodesTexts o) := by
  simp only [graphTexts, nodesTexts, List.forall_mem_cons, List.forall_mem_append, and_assoc]

theorem graphJson_eq_ok {o : ObjGraph} (h : o.nodekeys = [] → o.nodevalues = []) :
    o.toJson = .ok j ↔ o.Whole ∧ Valid (graphTexts o) ∧ j = o.json := by
  simp only [ObjGraph.toJson, bind_eq_ok, pure_eq_ok, writeText_eq_ok, writeOptional_eq_ok, writeNodes_eq_ok h,
    valid_graphTexts, ObjGraph.json]
  constructor
  · rintro ⟨_, ⟨ht, rfl⟩, _, ⟨hd, rfl⟩, _, ⟨hw, hn, rfl⟩, rfl⟩
    exact ⟨hw, ⟨ht, hd, hn⟩, rfl⟩
  · rintro ⟨hw, ⟨ht, hd, hn⟩, rfl⟩
    exact ⟨_, ⟨ht, rfl⟩, _, ⟨hd, rfl⟩, _, ⟨hw, hn, rfl⟩, rfl⟩

theorem treeJson_eq_ok {o : ObjTree} (h : o.nodekeys = [] → o.nodevalues = []) :
    o.toJson = .ok j ↔
      (o.rootnode.isSome = true ∧ o.toObjGraph.Whole) ∧ Valid (texts .tree o) ∧ j = o.json := by
  simp only [ObjTree.toJson, bind_eq_ok, pure_eq_ok, writeText_eq_ok, writeOptional_eq_ok, writeNodes_eq_ok h,
    required_eq_ok, texts, List.forall_mem_append, valid_graphTexts, ObjTree.json]
  constructor
  · rintro ⟨_, ⟨ht, rfl⟩, _, ⟨hd, rfl⟩, r, hr, _, ⟨hvr, rfl⟩, _, ⟨hw, hn, rfl⟩, rfl⟩
    rw [hr]
    exact ⟨⟨rfl, hw⟩, ⟨List.forall_mem_singleton.mpr hvr, ht, hd, hn⟩, rfl⟩
  · rintro ⟨⟨hs, hw⟩, ⟨hvr, ht, hd, hn⟩, rfl⟩
    obtain ⟨r, hr⟩ := Option.isSome_iff_exists.mp hs
    have hvr' := hvr r (by rw [hr]; exact List.mem_singleton_self r)
    refine ⟨_, ⟨ht, rfl⟩, _, ⟨hd, rfl⟩, r, hr, _, ⟨hvr', rfl⟩, _, ⟨hw, hn, rfl⟩, ?_⟩
    rw [hr]
    rfl

theorem ObjGraph.Inv.nodevalues_eq_nil {directed : Bool} {o : ObjGraph} (hi : o.Inv directed) (h : o.nodekeys = []) :
    o.nodevalues = [] := by
  have hn : o.nodevaluesNum2 = 0 := hi.num2.elim id fun hn => by rw [hn, h]; rfl
  exact List.eq_nil_of_length_eq_zero (by rw [hi.nodes, if_pos hn])

/-- An object is written if it is whole and its texts are UTF-8. -/
theorem writeObject_eq_ok {o : c.Obj} (hi : Inv c o) :
    writeObject c o = .ok j ↔ (Whole c o ∧ Valid (texts c o)) ∧ j = objectJson c o := by
  rw [and_assoc]
  cases c with
  | text => exact textJson_eq_ok.trans ⟨fun h => ⟨trivial, h⟩, And.right⟩
  | grid => exact gridJson_eq_ok
  | multigrid => exact multigridJson_eq_ok
  | tree => exact treeJson_eq_ok hi.graph.nodevalues_eq_nil
  | digraph => exact graphJson_eq_ok hi.nodevalues_eq_nil
  | graph => exact graphJson_eq_ok hi.nodevalues_eq_nil

theorem validUtf8_name (c : ObjClass) : validUtf8 c.name = true := by
  cases c <;> decide

theorem entryJson_eq_ok {r : Entry} (hne : r.objcontent ≠ []) (hi : ∀ o ∈ r.objcontent, Inv r.objclass o) :
    r.toJson = .ok j ↔ ((∀ o ∈ r.objcontent, Whole r.objclass o) ∧ Valid r.texts) ∧ j = r.json := by
  have hobjects {l' : List Json} : r.objcontent.mapM (writeObject r.objclass) = .ok l' ↔
      (∀ o ∈ r.objcontent, Whole r.objclass o ∧ Valid (texts r.objclass o)) ∧
        l' = r.objcontent.map (objectJson r.objclass) := mapM_eq_ok fun o ho j => writeObject_eq_ok (hi o ho)
  have hsplit : (∀ o ∈ r.objcontent, Whole r.objclass o ∧ Valid (texts r.objclass o)) ↔
      (∀ o ∈ r.objcontent, Whole r.objclass o) ∧ ∀ o ∈ r.objcontent, Valid (texts r.objclass o) :=
    ⟨fun h => ⟨fun o ho => (h o ho).1, fun o ho => (h o ho).2⟩, fun h o ho => ⟨h.1 o ho, h.2 o ho⟩⟩
  simp only [Entry.toJson, bind_eq_ok, pure_eq_ok, writeText_eq_ok, check_eq_ok, hobjects, hsplit, Entry.texts,
    List.forall_mem_cons, List.forall_mem_flatMap, Entry.json]
  constructor
  · rintro ⟨_, ⟨-, rfl⟩, _, ⟨hk, rfl⟩, -, -, _, ⟨⟨hw, hv⟩, rfl⟩, rfl⟩
    exact ⟨⟨hw, hk, hv⟩, rfl⟩
  · rintro ⟨⟨hw, hk, hv⟩, rfl⟩
    exact ⟨_, ⟨validUtf8_name _, rfl⟩, _, ⟨hk, rfl⟩, (), hne, _, ⟨⟨hw, hv⟩, rfl⟩, rfl⟩

theorem writeNonempty_eq_ok : writeNonempty k l = .ok ms ↔ Valid l ∧ ms = nonemptyJson k l := by
  unfold writeNonempty nonemptyJson
  split
  · simp only [map_eq_ok, writeTexts_eq_ok]
    constructor
    · rintro ⟨_, ⟨hl, rfl⟩, rfl⟩
      exact ⟨hl, rfl⟩
    · rintro ⟨hl, rfl⟩
      exact ⟨_, ⟨hl, rfl⟩, rfl⟩
  · next hlen =>
    have hnil : l = [] := List.eq_nil_of_length_eq_zero (not_not.mp hlen)
    subst hnil
    exact ⟨fun h => ⟨by simp [Valid], (Except.ok.inj h).symm⟩, fun h => congrArg Except.ok h.2.symm⟩

theorem extraJson_eq_ok {e : Extra} (hi : e.Inv) : e.toJson = .ok ms ↔ Valid (e.keys ++ e.values) ∧ ms = e.json := by
  unfold Extra.toJson Extra.json
  have hlen := hi.2.symm
  split
  · simp only [bind_eq_ok, pure_eq_ok, check_eq_ok, writeTexts_eq_ok, List.forall_mem_append]
    constructor
    · rintro ⟨-, -, _, ⟨hks, rfl⟩, _, ⟨hvs, rfl⟩, rfl⟩
      exact ⟨⟨hks, hvs⟩, rfl⟩
    · rintro ⟨⟨hks, hvs⟩, rfl⟩
      exact ⟨(), hlen, _, ⟨hks, rfl⟩, _, ⟨hvs, rfl⟩, rfl⟩
  · next h0 =>
    have hks : e.keys = [] := List.eq_nil_of_length_eq_zero (not_not.mp h0)
    have hvs : e.values = [] := List.eq_nil_of_length_eq_zero (hi.2.trans (not_not.mp h0))
    simp only [bind_eq_ok, pure_eq_ok, check_eq_ok, hks, hvs]
    constructor
    · rintro ⟨-, -, rfl⟩
      exact ⟨by simp [Valid], rfl⟩
    · rintro ⟨-, rfl⟩
      exact ⟨(), trivial, rfl⟩

theorem sourceJson_eq_ok {s : Source} (hi : s.toExtra.Inv) : s.toJson = .ok j ↔ Valid s.texts ∧ j = s.json := by
  simp only [Source.toJson, bind_eq_ok, pure_eq_ok, writeText_eq_ok, writeOptional_eq_ok, extraJson_eq_ok hi,
    Source.texts, List.forall_mem_cons, List.forall_mem_append, Source.json]
  constructor
  · rintro ⟨_, ⟨hk, rfl⟩, _, ⟨hn, rfl⟩, _, ⟨hu, rfl⟩, _, ⟨hd, rfl⟩, _, ⟨hp, rfl⟩, _, ⟨he, rfl⟩, rfl⟩
    exact ⟨⟨hk, hn, ⟨⟨⟨hu, hd⟩, hp⟩, he.1⟩, he.2⟩, rfl⟩
  · rintro ⟨⟨hk, hn, ⟨⟨⟨hu, hd⟩, hp⟩, hks⟩, hvs⟩, rfl⟩
    exact ⟨_, ⟨hk, rfl⟩, _, ⟨hn, rfl⟩, _, ⟨hu, rfl⟩, _, ⟨hd, rfl⟩, _, ⟨hp, rfl⟩, _, ⟨⟨hks, hvs⟩, rfl⟩, rfl⟩

variable {d : Document}

theorem writeSource_eq_ok (hi : d.Inv) :
    d.writeSource = .ok ms ↔
      Valid ((d.source.map Source.texts).getD []) ∧ ms = (d.source.map fun s => ("source", s.json)).toList := by
  unfold Document.writeSource
  split
  · next hs =>
    rw [hs]
    exact ⟨fun h => ⟨by simp [Valid], (Except.ok.inj h).symm⟩, fun h => congrArg Except.ok h.2.symm⟩
  · next s hs =>
    rw [hs]
    simp only [map_eq_ok, sourceJson_eq_ok (hi.source s hs), Option.map_some, Option.getD_some, Option.toList_some]
    constructor
    · rintro ⟨_, ⟨hv, rfl⟩, rfl⟩
      exact ⟨hv, rfl⟩
    · rintro ⟨hv, rfl⟩
      exact ⟨_, ⟨hv, rfl⟩, rfl⟩

theorem writeExtra_eq_ok (hi : d.Inv) :
    d.writeExtra = .ok ms ↔
      Valid ((d.extra.map fun e => e.keys ++ e.values).getD []) ∧
        ms = (d.extra.map fun e => ("extra", Json.object e.json)).toList := by
  unfold Document.writeExtra
  split
  · next hs =>
    rw [hs]
    exact ⟨fun h => ⟨by simp [Valid], (Except.ok.inj h).symm⟩, fun h => congrArg Except.ok h.2.symm⟩
  · next e he =>
    rw [he]
    simp only [map_eq_ok, extraJson_eq_ok (hi.extra e he).1, Option.map_some, Option.getD_some, Option.toList_some]
    constructor
    · rintro ⟨_, ⟨hv, rfl⟩, rfl⟩
      exact ⟨hv, rfl⟩
    · rintro ⟨hv, rfl⟩
      exact ⟨_, ⟨hv, rfl⟩, rfl⟩

theorem writeResponse_eq_ok (hi : d.Inv) :
    d.writeResponse = .ok ms ↔ (d.Whole ∧ Valid (d.response.flatMap Entry.texts)) ∧
      ms = if d.response.length ≠ 0 then [("response", .array (d.response.map Entry.json))] else [] := by
  unfold Document.writeResponse Document.Whole
  split
  · have hentries {l' : List Json} : d.response.mapM Entry.toJson = .ok l' ↔
        (∀ r ∈ d.response, (∀ o ∈ r.objcontent, Whole r.objclass o) ∧ Valid r.texts) ∧ l' = d.response.map Entry.json :=
      mapM_eq_ok fun r hr j => entryJson_eq_ok (hi.response r hr).1 (hi.response r hr).2
    simp only [map_eq_ok, hentries, List.forall_mem_flatMap]
    constructor
    · rintro ⟨_, ⟨h, rfl⟩, rfl⟩
      exact ⟨⟨fun r hr => (h r hr).1, fun r hr => (h r hr).2⟩, rfl⟩
    · rintro ⟨⟨hw, hv⟩, rfl⟩
      exact ⟨_, ⟨fun r hr => ⟨hw r hr, hv r hr⟩, rfl⟩, rfl⟩
  · next hlen =>
    have hnil : d.response = [] := List.eq_nil_of_length_eq_zero (not_not.mp hlen)
    rw [hnil]
    exact ⟨fun h => ⟨by simp [Valid], (Except.ok.inj h).symm⟩, fun h => congrArg Except.ok h.2.symm⟩

/-- A document is written if all its objects are whole and all its texts UTF-8. -/
theorem documentJson_eq_ok (hi : d.Inv) : d.toJson = .ok j ↔ (d.Whole ∧ Valid d.texts) ∧ j = d.json := by
  simp only [Document.toJson, bind_eq_ok, pure_eq_ok, writeSource_eq_ok hi, writeExtra_eq_ok hi, writeNonempty_eq_ok,
    writeResponse_eq_ok hi, Document.texts, List.forall_mem_append, Document.json]
  constructor
  · rintro ⟨_, ⟨hs, rfl⟩, _, ⟨he, rfl⟩, _, ⟨hc, rfl⟩, _, ⟨hk, rfl⟩, _, ⟨⟨hw, hr⟩, rfl⟩, rfl⟩
    exact ⟨⟨hw, ⟨⟨⟨hs, he⟩, hc⟩, hk⟩, hr⟩, rfl⟩
  · rintro ⟨⟨hw, ⟨⟨⟨hs, he⟩, hc⟩, hk⟩, hr⟩, rfl⟩
    exact ⟨_, ⟨hs, rfl⟩, _, ⟨he, rfl⟩, _, ⟨hc, rfl⟩, _, ⟨hk, rfl⟩, _, ⟨⟨hw, hr⟩, rfl⟩, rfl⟩

theorem toJsonString_eq_ok [Jansson] (hi : d.Inv) :
    d.toJsonString = .ok s ↔ (d.Whole ∧ Valid d.texts) ∧ s = dumps d.json := by
  simp only [Document.toJsonString, map_eq_ok, documentJson_eq_ok hi]
  constructor
  · rintro ⟨_, ⟨h, rfl⟩, rfl⟩
    exact ⟨h, rfl⟩
  · rintro ⟨h, rfl⟩
    exact ⟨_, ⟨h, rfl⟩, rfl⟩

end Written
end OphidiaWorkflow.Response
