import OphidiaWorkflow.Response.Document

/-!
The calls of the library that build a document, each with its code and the document it leaves, and runs of them.

A call that fails may leave an object of which only a part was copied.
-/
namespace OphidiaWorkflow.Response
open Lib

attribute [local instance] lawfulBEq_text

namespace Document

/-- `_oph_json_add_responseKey` -/
def addResponseKey (d : Document) (responseKey : List Char) : Code × Document :=
  if responseKey ∈ d.responseKeyset then (.badParam, d)
  else (.success, { d with responseKeyset := d.responseKeyset ++ [responseKey] })

/-- `_oph_json_add_consumer` -/
def addConsumer (d : Document) : Option (List Char) → Code × Document
  | none => (.badParam, d)
  | some consumer =>
    if consumer ∈ d.consumers then (.badParam, d)
    else (.success, { d with consumers := d.consumers ++ [consumer] })

/-- `_oph_json_set_source` -/
def setSource (d : Document) (srckey srcname srcurl description producer : Option (List Char)) : Code × Document :=
  match srckey, srcname, d.source with
  | some srckey, some srcname, none =>
    (.success, { d with source := some { srckey, srcname, srcurl, description, producer } })
  | _, _, _ => (.badParam, d)

end Document

def Extra.add (e : Extra) (key value : List Char) : Code × Extra :=
  if key ∈ e.keys then (.badParam, e)
  else (.success, { keys := e.keys ++ [key], values := e.values ++ [value] })

namespace Document

/-- `_oph_json_add_source_detail` -/
def addSourceDetail (d : Document) (key value : Option (List Char)) : Code × Document :=
  match key, value, d.source with
  | some key, some value, some source =>
    (source.toExtra.add key value).map id fun e => { d with source := some { source with toExtra := e } }
  | _, _, _ => (.badParam, d)

/-- `_oph_json_add_extra_detail` -/
def addExtraDetail (d : Document) (key value : Option (List Char)) : Code × Document :=
  match key, value with
  | some key, some value => ((d.extra.getD {}).add key value).map id fun e => { d with extra := some e }
  | _, _ => (.badParam, d)

end Document

/-- The loops over the entries stop at the first with the key; `missing` is the answer if there is none. -/
def onEntry (objkey : List Char) (missing : Code) (f : Entry → Option (Code × Entry)) :
    List Entry → Option (Code × List Entry)
  | [] => some (missing, [])
  | r :: rs =>
    if r.objkey = objkey then (f r).map (Prod.map id (· :: rs))
    else (onEntry objkey missing f rs).map (Prod.map id (r :: ·))

/-- Calls about rows, nodes and links change the last object of an entry. -/
def onLast {α : Type} (f : α → Option (Code × α)) : List α → Option (Code × List α)
  | [] => some (.badParam, [])
  | [o] => (f o).map (Prod.map id fun o => [o])
  | o :: o' :: l => (onLast f (o' :: l)).map (Prod.map id (o :: ·))

namespace Entry

/-- An object of another class is refused. -/
def push (c : ObjClass) (built : Option (Code × c.Obj)) (r : Entry) : Option (Code × Entry) :=
  if h : c = r.objclass then
    built.map (Prod.map id fun o => { r with objcontent := r.objcontent ++ [h ▸ o] })
  else some (.badParam, r)

def onObject (c : ObjClass) (f : c.Obj → Option (Code × c.Obj)) : Entry → Option (Code × Entry)
  | ⟨c', objkey, objcontent⟩ =>
    if h : c' = c then
      (onLast f (h ▸ objcontent)).map (Prod.map id fun objcontent => { objclass := c, objkey, objcontent })
    else some (.badParam, ⟨c', objkey, objcontent⟩)

/-- The two classes of graphs share their calls. -/
def onGraph (f : Bool → ObjGraph → Option (Code × ObjGraph)) (r : Entry) : Option (Code × Entry) :=
  if r.objclass = .digraph then r.onObject .digraph (f true) else r.onObject .graph (f false)

end Entry

namespace Document

def onResponse (d : Document) (objkey : List Char) (missing : Code) (f : Entry → Option (Code × Entry)) :
    Option (Code × Document) :=
  (onEntry objkey missing f d.response).map (Prod.map id fun response => { d with response })

/-- The part that the calls which create an object share: a new entry, or one object more in an old one. -/
def addObject (d : Document) (c : ObjClass) (objkey : List Char) (built : Option (Code × c.Obj)) :
    Option (Code × Document) :=
  if objkey ∈ d.objkeys then d.onResponse objkey .badParam (Entry.push c built)
  else
    match d.addResponseKey objkey with
    | (.success, d') =>
      built.map (Prod.map id fun o =>
        { d' with response := d.response ++ [{ objclass := c, objkey, objcontent := [o] }] })
    | (_, d') => some (.memory, { d' with response := d.response ++ [{ objclass := c, objkey, objcontent := [] }] })

/-- `_oph_json_add_text` -/
def addText (d : Document) (objkey : List Char) (title message : Option (List Char)) : Option (Code × Document) :=
  match title with
  | none => some (.badParam, d)
  | some title => d.addObject .text objkey (some (.success, { title, message }))

/-- `_oph_json_add_grid` -/
def addGrid (d : Document) (objkey : List Char) (title description : Option (List Char))
    (keys fieldtypes : List (List Char)) : Option (Code × Document) :=
  match title with
  | none => some (.badParam, d)
  | some title =>
    if keys = [] ∨ fieldtypes = [] then some (.badParam, d)
    else d.addObject .grid objkey (some (newGrid title description keys fieldtypes))

/-- `_oph_json_add_grid_row` -/
def addGridRow (d : Document) (objkey : List Char) (values : List (List Char)) : Option (Code × Document) :=
  d.onResponse objkey .badParam (Entry.onObject .grid fun o => o.addRow values)

/-- `_oph_json_add_multigrid` -/
def addMultigrid (d : Document) (objkey : List Char) (title description : Option (List Char))
    (rowkeys rowfieldtypes colkeys colfieldtypes : List (List Char)) (colvalues : List (List (List Char)))
    (measurename measuretype : Option (List Char)) : Option (Code × Document) :=
  match title, measurename, measuretype with
  | some title, some measurename, some measuretype =>
    if rowkeys = [] ∨ rowfieldtypes = [] ∨ colkeys = [] ∨ colfieldtypes = [] ∨ colvalues = [] then
      some (.badParam, d)
    else
      d.addObject .multigrid objkey
        (newMultigrid title description rowkeys rowfieldtypes colkeys colfieldtypes colvalues measurename measuretype)
  | _, _, _ => some (.badParam, d)

/-- `_oph_json_add_multigrid_row` -/
def addMultigridRow (d : Document) (objkey : List Char) (rowvalues measurevalues : List (List Char)) :
    Option (Code × Document) :=
  d.onResponse objkey .badParam (Entry.onObject .multigrid fun o => o.addRow rowvalues measurevalues)

/-- `_oph_json_add_tree` -/
def addTree (d : Document) (objkey : List Char) (title description : Option (List Char))
    (nodekeys : Option (List (List Char))) : Option (Code × Document) :=
  match title with
  | none => some (.badParam, d)
  | some title => d.addObject .tree objkey (some (newTree title description nodekeys))

/-- `_oph_json_add_tree_node` -/
def addTreeNode (d : Document) (objkey : List Char) (nodevalues : Option (List (List Char))) :
    Option (Code × Document) :=
  d.onResponse objkey .badParam (Entry.onObject .tree fun o => o.addNode nodevalues)

/-- `_oph_json_set_tree_root`; the argument is an `int`. -/
def setTreeRoot (d : Document) (objkey : List Char) (rootnode : Int) : Option (Code × Document) :=
  if toInt32 rootnode < 0 then some (.badParam, d)
  else d.onResponse objkey .badParam (Entry.onObject .tree fun o => some (o.setRoot (toInt32 rootnode).toNat))

/-- `_oph_json_add_tree_link` -/
def addTreeLink (d : Document) (objkey : List Char) (sourcenode targetnode : Int)
    (description : Option (List Char)) : Option (Code × Document) :=
  if toInt32 sourcenode < 0 ∨ toInt32 targetnode < 0 then some (.badParam, d)
  else
    d.onResponse objkey .badParam (Entry.onObject .tree fun o =>
      some (o.addLink (toInt32 sourcenode).toNat (toInt32 targetnode).toNat description))

/-- `_oph_json_add_graph` -/
def addGraph (d : Document) (objkey : List Char) (isDigraph : Bool) (title description : Option (List Char))
    (nodekeys : Option (List (List Char))) : Option (Code × Document) :=
  match title with
  | none => some (.badParam, d)
  | some title =>
    if isDigraph then d.addObject .digraph objkey (some (newGraph title description nodekeys))
    else d.addObject .graph objkey (some (newGraph title description nodekeys))

/-- `_oph_json_add_graph_node` -/
def addGraphNode (d : Document) (objkey : List Char) (nodevalues : Option (List (List Char))) :
    Option (Code × Document) :=
  d.onResponse objkey .badParam (Entry.onGraph fun _ o => o.addNode nodevalues)

/-- `_oph_json_add_graph_link`; a key that no entry has is no error. -/
def addGraphLink (d : Document) (objkey : List Char) (node1 node2 : Int) (description : Option (List Char)) :
    Option (Code × Document) :=
  if toInt32 node1 < 0 ∨ toInt32 node2 < 0 ∨ d.response = [] then some (.badParam, d)
  else
    d.onResponse objkey .success (Entry.onGraph fun isDigraph o =>
      some (o.addLink isDigraph (toInt32 node1).toNat (toInt32 node2).toNat description))

end Document

/-- The calls of the library; a null pointer is `none`. -/
inductive Call
  | consumer (consumer : Option (List Char))
  | source (srckey srcname srcurl description producer : Option (List Char))
  | sourceDetail (key value : Option (List Char))
  | extraDetail (key value : Option (List Char))
  | text (objkey : List Char) (title message : Option (List Char))
  | grid (objkey : List Char) (title description : Option (List Char)) (keys fieldtypes : List (List Char))
  | gridRow (objkey : List Char) (values : List (List Char))
  | multigrid (objkey : List Char) (title description : Option (List Char)) (rowkeys rowfieldtypes colkeys
      colfieldtypes : List (List Char)) (colvalues : List (List (List Char)))
      (measurename measuretype : Option (List Char))
  | multigridRow (objkey : List Char) (rowvalues measurevalues : List (List Char))
  | tree (objkey : List Char) (title description : Option (List Char)) (nodekeys : Option (List (List Char)))
  | treeNode (objkey : List Char) (nodevalues : Option (List (List Char)))
  | treeRoot (objkey : List Char) (rootnode : Int)
  | treeLink (objkey : List Char) (sourcenode targetnode : Int) (description : Option (List Char))
  | graph (objkey : List Char) (isDigraph : Bool) (title description : Option (List Char))
      (nodekeys : Option (List (List Char)))
  | graphNode (objkey : List Char) (nodevalues : Option (List (List Char)))
  | graphLink (objkey : List Char) (node1 node2 : Int) (description : Option (List Char))

def Document.call (d : Document) : Call → Option (Code × Document)
  | .consumer consumer => some (d.addConsumer consumer)
  | .source srckey srcname srcurl description producer =>
    some (d.setSource srckey srcname srcurl description producer)
  | .sourceDetail key value => some (d.addSourceDetail key value)
  | .extraDetail key value => some (d.addExtraDetail key value)
  | .text objkey title message => d.addText objkey title message
  | .grid objkey title description keys fieldtypes => d.addGrid objkey title description keys fieldtypes
  | .gridRow objkey values => d.addGridRow objkey values
  | .multigrid objkey title description rowkeys rowfieldtypes colkeys colfieldtypes colvalues measurename
      measuretype =>
    d.addMultigrid objkey title description rowkeys rowfieldtypes colkeys colfieldtypes colvalues measurename
      measuretype
  | .multigridRow objkey rowvalues measurevalues => d.addMultigridRow objkey rowvalues measurevalues
  | .tree objkey title description nodekeys => d.addTree objkey title description nodekeys
  | .treeNode objkey nodevalues => d.addTreeNode objkey nodevalues
  | .treeRoot objkey rootnode => d.setTreeRoot objkey rootnode
  | .treeLink objkey sourcenode targetnode description => d.addTreeLink objkey sourcenode targetnode description
  | .graph objkey isDigraph title description nodekeys => d.addGraph objkey isDigraph title description nodekeys
  | .graphNode objkey nodevalues => d.addGraphNode objkey nodevalues
  | .graphLink objkey node1 node2 description => d.addGraphLink objkey node1 node2 description

/-- A run of calls, whatever their codes are. -/
def Document.calls (d : Document) (cs : List Call) : Option Document :=
  cs.foldlM (fun d c => (d.call c).map Prod.snd) d

end OphidiaWorkflow.Response
