import OphidiaWorkflow.Lib.Decimal
import OphidiaWorkflow.Text.Json

/-!
The documents with the answers of the operators, and the calls that build them.

An array that a call gets must hold what the call reads of it: a call that would read past its end has no answer,
`none`.
-/
namespace OphidiaWorkflow.Response
open Lib

theorem lawfulBEq_text : LawfulBEq (List Char) := inferInstance

attribute [local instance] lawfulBEq_text

/-- `OPH_JSON_SUCCESS` and the errors -/
inductive Code
  | success
  | memory
  | badParam
  | generic
  deriving DecidableEq

/-- `oph_json_is_type_correct`, also `oph_json_is_measuretype_correct` -/
def isTypeCorrect (type : List Char) : Bool :=
  type ∈ ["int", "long", "short", "byte", "float", "double", "string", "blob"].map String.toList

structure ObjText where
  title : List Char
  message : Option (List Char)

structure ObjGrid where
  title : List Char
  description : Option (List Char)
  keys : List (List Char)
  fieldtypes : List (List Char) := []
  values : List (List (List Char)) := []
  valuesNum2 : Nat := 0

structure ObjMultigrid where
  title : List Char
  description : Option (List Char)
  rowkeys : List (List Char)
  rowfieldtypes : List (List Char) := []
  rowvalues : List (List (List Char)) := []
  rowvaluesNum2 : Nat := 0
  colkeys : List (List Char) := []
  colfieldtypes : List (List Char) := []
  colvalues : List (List (List Char)) := []
  colvaluesNum2 : Nat := 0
  measurename : Option (List Char) := none
  measuretype : Option (List Char) := none
  measurevalues : List (List (List Char)) := []
  measurevaluesNum2 : Nat := 0

/-- `oph_json_link` -/
structure Link where
  node : List Char
  description : Option (List Char)

structure ObjGraph where
  title : List Char
  description : Option (List Char)
  nodekeys : List (List Char)
  nodevalues : List (List (List Char)) := []
  nodevaluesNum2 : Nat := 0
  nodelinks : List (List Link) := []

structure ObjTree extends ObjGraph where
  rootnode : Option (List Char) := none

inductive ObjClass
  | text
  | grid
  | multigrid
  | tree
  | digraph
  | graph
  deriving DecidableEq

namespace ObjClass

/-- `OPH_JSON_TEXT` and the names of the other classes -/
def name : ObjClass → List Char
  | text => "text".toList
  | grid => "grid".toList
  | multigrid => "multidimgrid".toList
  | tree => "tree".toList
  | digraph => "digraph".toList
  | graph => "graph".toList

/-- What the array of contents of a class holds. -/
abbrev Obj : ObjClass → Type
  | text => ObjText
  | grid => ObjGrid
  | multigrid => ObjMultigrid
  | tree => ObjTree
  | digraph => ObjGraph
  | graph => ObjGraph

end ObjClass

/-- `oph_json_response` -/
structure Entry where
  objclass : ObjClass
  objkey : List Char
  objcontent : List objclass.Obj

/-- `oph_json_extra`: the details -/
structure Extra where
  keys : List (List Char) := []
  values : List (List Char) := []

structure Source extends Extra where
  srckey : List Char
  srcname : List Char
  srcurl : Option (List Char)
  description : Option (List Char)
  producer : Option (List Char)

/-- `oph_json`; without arguments as `oph_json_alloc` leaves it -/
structure Document where
  source : Option Source := none
  extra : Option Extra := none
  consumers : List (List Char) := []
  responseKeyset : List (List Char) := []
  response : List Entry := []

def Document.objkeys (d : Document) : List (List Char) := d.response.map Entry.objkey

/-! ### The objects -/

/-- The loop that copies an array up to the first element that is refused, and whether there was none. -/
def store (accepts : List (List Char) → List Char → Bool) (stored : List (List Char)) :
    List (List Char) → Bool × List (List Char)
  | [] => (true, stored)
  | s :: l => if accepts stored s then store accepts (stored ++ [s]) l else (false, stored)

/-- Keys must be new. -/
def storeKeys : List (List Char) → Bool × List (List Char) := store (fun stored key => key ∉ stored) []

def storeTypes : List (List Char) → Bool × List (List Char) := store (fun _ type => isTypeCorrect type) []

/-- The object that `_oph_json_add_grid` leaves in the document. -/
def newGrid (title : List Char) (description : Option (List Char)) (keys fieldtypes : List (List Char)) :
    Code × ObjGrid :=
  let (distinct, stored) := storeKeys keys
  let o : ObjGrid := { title, description, keys := stored }
  if !distinct then (.badParam, o)
  else
    let (correct, stored) := storeTypes fieldtypes
    let o := { o with fieldtypes := stored }
    if !correct || keys.length ≠ fieldtypes.length then (.badParam, o)
    else (.success, { o with valuesNum2 := keys.length })

/-- The object that `_oph_json_add_multigrid` leaves in the document. -/
def newMultigrid (title : List Char) (description : Option (List Char)) (rowkeys rowfieldtypes colkeys
    colfieldtypes : List (List Char)) (colvalues : List (List (List Char))) (measurename measuretype : List Char) :
    Option (Code × ObjMultigrid) :=
  let (distinct, stored) := storeKeys rowkeys
  let o : ObjMultigrid := { title, description, rowkeys := stored }
  if !distinct then some (.badParam, o)
  else
    let (correct, stored) := storeTypes rowfieldtypes
    let o := { o with rowfieldtypes := stored }
    if !correct then some (.badParam, o)
    else
      let (distinct, stored) := storeKeys colkeys
      let o := { o with colkeys := stored }
      if !distinct then some (.badParam, o)
      else
        let (correct, stored) := storeTypes colfieldtypes
        let o := { o with colfieldtypes := stored }
        if !correct then some (.badParam, o)
        else if colvalues.any fun values => values.length < colkeys.length then none
        else
          let o := { o with
            colvalues := colvalues.map fun values => values.take colkeys.length
            colvaluesNum2 := colkeys.length
            measurename := some measurename }
          if !isTypeCorrect measuretype then some (.badParam, o)
          else some (.success, { o with
            measuretype := some measuretype
            measurevaluesNum2 := colvalues.length
            rowvaluesNum2 := rowkeys.length })

/-- The object that `_oph_json_add_graph` leaves in the document; the nodes of some graphs have no values. -/
def newGraph (title : List Char) (description : Option (List Char)) :
    Option (List (List Char)) → Code × ObjGraph
  | none => (.success, { title, description, nodekeys := [] })
  | some nodekeys =>
    let (distinct, stored) := storeKeys nodekeys
    let o : ObjGraph := { title, description, nodekeys := stored }
    if !distinct then (.badParam, o) else (.success, { o with nodevaluesNum2 := nodekeys.length })

/-- The object that `_oph_json_add_tree` leaves in the document. -/
def newTree (title : List Char) (description : Option (List Char)) (nodekeys : Option (List (List Char))) :
    Code × ObjTree :=
  (newGraph title description nodekeys).map id fun o => { o with }

/-- The row at the end of `values` as `_oph_json_add_grid_row` copies it. -/
def ObjGrid.addRow (o : ObjGrid) (values : List (List Char)) : Option (Code × ObjGrid) :=
  if values.length < o.valuesNum2 then none
  else some (.success, { o with values := o.values ++ [values.take o.valuesNum2] })

def ObjMultigrid.addRow (o : ObjMultigrid) (rowvalues measurevalues : List (List Char)) :
    Option (Code × ObjMultigrid) :=
  if measurevalues.length < o.measurevaluesNum2 ∨ rowvalues.length < o.rowvaluesNum2 then none
  else some (.success, { o with
    measurevalues := o.measurevalues ++ [measurevalues.take o.measurevaluesNum2]
    rowvalues := o.rowvalues ++ [rowvalues.take o.rowvaluesNum2] })

/-- A node has values if and only if the graph has keys. -/
def ObjGraph.addNode (o : ObjGraph) : Option (List (List Char)) → Option (Code × ObjGraph)
  | some nodevalues =>
    if o.nodevaluesNum2 = 0 then some (.badParam, o)
    else if nodevalues.length < o.nodevaluesNum2 then none
    else some (.success, { o with
      nodevalues := o.nodevalues ++ [nodevalues.take o.nodevaluesNum2]
      nodelinks := o.nodelinks ++ [[]] })
  | none =>
    if o.nodevaluesNum2 ≠ 0 then some (.badParam, o)
    else some (.success, { o with nodelinks := o.nodelinks ++ [[]] })

/-- The links that start at a node. -/
def ObjGraph.linksOf (o : ObjGraph) (node : Nat) : List Link := o.nodelinks.getD node []

/-- `links` has a link to the node. -/
def linksTo (links : List Link) (node : Nat) : Bool := links.any fun l => l.node = decimal node

/-- A link is in the list of its first node; without direction it may not be in that of the second one either. -/
def ObjGraph.addLink (o : ObjGraph) (directed : Bool) (node1 node2 : Nat) (description : Option (List Char)) :
    Code × ObjGraph :=
  if node1 ≠ node2 ∧ node1 < o.nodelinks.length ∧ node2 < o.nodelinks.length then
    if !directed && linksTo (o.linksOf node2) node1 then (.badParam, o)
    else if linksTo (o.linksOf node1) node2 then (.badParam, o)
    else (.success, { o with
      nodelinks := o.nodelinks.modify node1 (· ++ [{ node := decimal node2, description }]) })
  else (.badParam, o)

def ObjTree.addNode (o : ObjTree) (nodevalues : Option (List (List Char))) : Option (Code × ObjTree) :=
  (o.toObjGraph.addNode nodevalues).map (Prod.map id fun g => { o with toObjGraph := g })

def ObjTree.addLink (o : ObjTree) (sourcenode targetnode : Nat) (description : Option (List Char)) :
    Code × ObjTree :=
  (o.toObjGraph.addLink true sourcenode targetnode description).map id fun g => { o with toObjGraph := g }

/-- The root is set once. -/
def ObjTree.setRoot (o : ObjTree) (rootnode : Nat) : Code × ObjTree :=
  match o.rootnode with
  | some _ => (.badParam, o)
  | none => (.success, { o with rootnode := some (decimal rootnode) })

end OphidiaWorkflow.Response
