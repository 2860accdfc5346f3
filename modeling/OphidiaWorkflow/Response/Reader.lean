import OphidiaWorkflow.Response.Spoilt

/-!
The reader of the documents: the calls that it makes for a JSON value, in their order, up to the first that fails.
-/
namespace OphidiaWorkflow.Response
open Json Lib

/-- What the reader does next: a call of the library, the end with an error, or a step through a null pointer. -/
inductive Action
  | call (c : Call)
  | memory
  | generic
  | crash

/-- Whatever code a call has failed with, the reader answers with `OPH_JSON_GENERIC_ERROR`. -/
def execute : List Action → Document → Option (Code × Document)
  | [], d => some (.success, d)
  | .call c :: as, d =>
    (d.call c).bind fun answer =>
      if answer.1 = .success then execute as answer.2 else some (.generic, answer.2)
  | .memory :: _, d => some (.memory, d)
  | .generic :: _, d => some (.generic, d)
  | .crash :: _, _ => none

/-- A value that `json_unpack` looks up after members that must be texts. -/
def unpackValue (o : Json) (texts : List String) (k : String) : Option Json :=
  if texts.all o.acceptsText then o.get? k else none

/-- The loop over an array of texts. -/
def readTexts (j : Json) : Option (List (List Char)) := j.items.mapM text?

/-- The loop over keys and values; where an array has no text, the variable keeps the one before. -/
def readDetails (call : Option (List Char) → Option (List Char) → Call) :
    Option (List Char) → Option (List Char) → List Json → List Json → List Action
  | _, _, [], _ => []
  | key, value, k :: ks, vs =>
    let key := k.text?.or key
    let value := (vs.head?.bind text?).or value
    .call (call key value) :: readDetails call key value ks vs.tail

/-- `json_array_get` at every index; a null pointer has none. -/
def itemsOf (j : Option Json) : List Json := (j.map items).getD []

def readKeys (call : Option (List Char) → Option (List Char) → Call) (o : Json) : List Action :=
  match o.get? "keys", o.get? "values" with
  | some keys, some values => readDetails call none none keys.items values.items
  | none, none => []
  | _, _ => [.generic]

def readSource (j : Json) : List Action :=
  match j.get? "source" with
  | none => []
  | some source =>
    let texts := ["srckey", "srcname", "srcurl", "description", "producer"]
    .call (.source (source.unpack texts "srckey") (source.unpack texts "srcname") (source.unpack texts "srcurl")
      (source.unpack texts "description") (source.unpack texts "producer")) :: readKeys .sourceDetail source

def readExtra (j : Json) : List Action :=
  match j.get? "extra" with
  | none => []
  | some extra => readKeys .extraDetail extra

def readConsumers : Option (List Char) → List Json → List Action
  | _, [] => []
  | consumer, j :: js =>
    let consumer := j.text?.or consumer
    .call (.consumer consumer) :: readConsumers consumer js

def readRow (call : List (List Char) → Call) (row : Json) : Action :=
  match readTexts row with
  | some values => .call (call values)
  | none => .generic

def readText (objkey : List Char) (o : Json) : List Action :=
  let texts := ["title", "message"]
  [.call (.text objkey (o.unpack texts "title") (o.unpack texts "message"))]

def readGrid (objkey : List Char) (o : Json) : List Action :=
  let texts := ["title", "description"]
  match unpackValue o texts "rowkeys", unpackValue o texts "rowfieldtypes" with
  | some rowkeys, some rowfieldtypes =>
    match readTexts rowkeys, readTexts rowfieldtypes with
    | some keys, some fieldtypes =>
      .call (.grid objkey (o.unpack texts "title") (o.unpack texts "description") keys fieldtypes) ::
        (itemsOf (o.get? "rowvalues")).map (readRow (.gridRow objkey))
    | _, _ => [.generic]
  | _, _ => [.memory]

/-- The loop over the rows and their measures; where there are no more measures, the row before gives them again. -/
def readMeasures (objkey : List Char) : Option Json → List Json → List Json → List Action
  | _, [], _ => []
  | measures, row :: rows, next =>
    let measures := next.head?.or measures
    (match measures with
      | none => []
      | some measures =>
        match readTexts row, readTexts measures with
        | some rowvalues, some measurevalues => [.call (.multigridRow objkey rowvalues measurevalues)]
        | _, _ => [.generic]) ++ readMeasures objkey measures rows next.tail

def readMultigrid (objkey : List Char) (o : Json) : List Action :=
  let texts := ["title", "description", "measurename", "measuretype"]
  let value := unpackValue o ["title", "description"]
  match value "rowkeys", value "rowfieldtypes", value "colkeys", value "colfieldtypes", value "colvalues" with
  | some rowkeys, some rowfieldtypes, some colkeys, some colfieldtypes, some colvalues =>
    match readTexts rowkeys, readTexts rowfieldtypes, readTexts colkeys, readTexts colfieldtypes,
        colvalues.items.mapM readTexts with
    | some rowkeys, some rowfieldtypes, some colkeys, some colfieldtypes, some colvalues =>
      .call (.multigrid objkey (o.unpack texts "title") (o.unpack texts "description") rowkeys rowfieldtypes colkeys
          colfieldtypes colvalues (o.unpack texts "measurename") (o.unpack texts "measuretype")) ::
        match o.get? "rowvalues", o.get? "measurevalues" with
        | some rowvalues, some measurevalues => readMeasures objkey none rowvalues.items measurevalues.items
        | _, _ => []
    | _, _, _, _, _ => [.generic]
  | _, _, _, _, _ => [.memory]

def readLink (link : Int → Int → Option (List Char) → Call) (source : Nat) (l : Json) : Action :=
  let texts := ["node", "description"]
  match l.unpack texts "node" with
  | some target => .call (link source (readInt target) (l.unpack texts "description"))
  | none => .generic

/-- The loop over the lists of links, from the node with number `source` on. -/
def readLinks (link : Int → Int → Option (List Char) → Call) : Nat → List Json → List Action
  | _, [] => []
  | source, links :: nodelinks => links.items.map (readLink link source) ++ readLinks link (source + 1) nodelinks

/-- The part that the readers of trees and of graphs share, with the calls of each and the root of a tree. -/
def readNodes (create node : Option (List (List Char)) → Call) (root : List Action)
    (link : Int → Int → Option (List Char) → Call) (o : Json) : List Action :=
  let nodelinks := itemsOf (o.get? "nodelinks")
  let empty := nodelinks.map fun _ => Action.call (node none)
  match unpackValue o ["title", "description"] "nodekeys" with
  | some nodekeys =>
    match readTexts nodekeys with
    | some keys =>
      .call (create (some keys)) :: (match o.get? "nodevalues" with
        | some nodevalues => nodevalues.items.map (readRow fun values => node (some values))
        | none => empty) ++ root ++ readLinks link 0 nodelinks
    | none => [.generic]
  | none => .call (create none) :: empty ++ root ++ readLinks link 0 nodelinks

/-- The number of the root is read without a look at whether there is one. -/
def readRoot (objkey : List Char) (o : Json) : Action :=
  match o.unpack ["rootnode"] "rootnode" with
  | some rootnode => .call (.treeRoot objkey (readInt rootnode))
  | none => .crash

def readTree (objkey : List Char) (o : Json) : List Action :=
  let texts := ["title", "description"]
  readNodes (.tree objkey (o.unpack texts "title") (o.unpack texts "description")) (.treeNode objkey)
    [readRoot objkey o] (.treeLink objkey) o

def readGraph (objkey : List Char) (isDigraph : Bool) (o : Json) : List Action :=
  let texts := ["title", "description"]
  readNodes (.graph objkey isDigraph (o.unpack texts "title") (o.unpack texts "description")) (.graphNode objkey) []
    (.graphLink objkey) o

def readObject (objkey : List Char) : ObjClass → Json → List Action
  | .text => readText objkey
  | .grid => readGrid objkey
  | .multigrid => readMultigrid objkey
  | .tree => readTree objkey
  | .digraph => readGraph objkey true
  | .graph => readGraph objkey false

/-- The class with a name. -/
def ObjClass.ofName (s : List Char) : Option ObjClass :=
  [text, grid, multigrid, tree, digraph, graph].find? fun c => c.name = s

def readEntry (o : Json) : List Action :=
  let texts := ["objclass", "objkey"]
  match o.unpack texts "objkey", o.unpack texts "objclass", unpackValue o texts "objcontent" with
  | some objkey, some objclass, some objcontent =>
    match ObjClass.ofName objclass with
    | some c => objcontent.items.flatMap (readObject objkey c)
    | none => [.generic]
  | _, _, _ => [.generic]

def readDocument (j : Json) : List Action :=
  readSource j ++ readExtra j ++ readConsumers none (itemsOf (j.get? "consumers")) ++
    (itemsOf (j.get? "response")).flatMap readEntry

/-- `_oph_json_from_json_string` -/
def fromJsonString [Jansson] (s : List Char) : Option (Code × Document) :=
  match loads s with
  | some j => execute (readDocument j) {}
  | none => some (.generic, {})

end OphidiaWorkflow.Response
