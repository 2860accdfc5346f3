import OphidiaWorkflow.Lib.Conditions
import OphidiaWorkflow.Server.Confinement
import OphidiaWorkflow.Text.Multiple
import OphidiaWorkflow.Text.Submission
import OphidiaWorkflow.Text.Subset

/-!
`oph_filters.c`: the query for the datacubes of a massive operation.

The filters write the conditions of the query one behind the other into a buffer of `OPH_MAX_STRING_SIZE`. A result
`none` stands for an error, or for a buffer that is left or a null pointer that is read.
-/
namespace OphidiaWorkflow.Filters

open Lib TaskString

/-- `OPH_MAX_STRING_SIZE` -/
def maxStringSize : Nat := 4096

/-- What `snprintf` leaves of a text. -/
def printed (s : List Char) : List Char := s.take (maxStringSize - 1)

/-- `strncat`, after the check of the room. -/
def append (s x : List Char) : Option (List Char) :=
  if maxStringSize - s.length - 1 ≤ x.length then none else some (s ++ x)

/-- The conditions of a list, with a text between them. -/
def joined (sep : List Char) : Bool → List (List Char) → List Char → Option (List Char)
  | _, [], s => some s
  | first, x :: xs, s => do
    let s ← (if first then some s else append s sep)
    let s ← append s (printed x)
    joined sep false xs s

/-- The two buffers, `tables` and `where_clause`. -/
structure Clauses where
  tables : List Char
  conditions : List Char

namespace Clauses

variable (c : Clauses)

def addTable (x : List Char) : Option Clauses := (append c.tables x).map fun tables => { c with tables }

def add (x : List Char) : Option Clauses := (append c.conditions x).map fun conditions => { c with conditions }

def addJoined (sep : List Char) (xs : List (List Char)) : Option Clauses :=
  (joined sep true xs c.conditions).map fun conditions => { c with conditions }

/-- `OPH_FILTER_AND1`, unless there is no condition yet. -/
def addAnd : Option Clauses := if c.conditions = [] then some c else c.add andText

/-- `OPH_FILTER_AND2`, with the bracket alone if there is no condition yet. -/
def addGroup : Option Clauses :=
  if c.conditions = [] then some { c with conditions := ['('] } else c.add (andText ++ ['('])

/-- The comma before a table, unless there is no table yet. -/
def addComma : Option Clauses := if c.tables = [] then some c else c.addTable [',']

end Clauses

/-- What stands between the conditions of a list: one must hold, or none of those that are negated. -/
def listText (negated : Bool) : List Char := if negated then andText else orText

/-- `OPH_FILTER_NOT1` -/
def bang (negated : Bool) : List Char := if negated then ['!'] else []

/-- `OPH_FILTER_NOT2` -/
def notText (negated : Bool) : List Char := if negated then "NOT ".toList else []

/-- A column compared with a value. -/
def comparison (column : List Char) (negated : Bool) (value : List Char) : List Char :=
  column ++ (bang negated ++ ("='".toList ++ (value ++ ['\''])))

/-- The items of a list of values, at least one. -/
def valueList (value : List Char) : Option (List (List Char)) :=
  match parseMultipleValueParam value with
  | .ok items => if items = [] then none else items.mapM id
  | .error _ => none

/-- A filter without a value does nothing. -/
def optional (filter : List Char → Clauses → Option Clauses) (value : Option (List Char)) (c : Clauses) :
    Option Clauses :=
  match value with
  | none => some c
  | some value => if value = [] then some c else filter value c

def levelCondition (negated : Bool) (item : List Char) : List Char :=
  comparison "datacube.level".toList negated (decimal (readInt item))

/-- `oph_filter_level` -/
def filterLevel (negated : Bool) : Option (List Char) → Clauses → Option Clauses :=
  optional fun value c => do
    let items ← valueList value
    let c ← c.addGroup
    let c ← c.addJoined (listText negated) (items.map (levelCondition negated))
    c.add [')']

/-- The filters that add one condition. -/
def filterOne (condition : List Char → Option (List Char)) : Option (List Char) → Clauses → Option Clauses :=
  optional fun value c => do
    let x ← condition value
    let c ← c.addAnd
    c.add (printed x)

def measureCondition (negated : Bool) (value : List Char) : List Char :=
  comparison "datacube.measure".toList negated value

/-- `oph_filter_measure` -/
def filterMeasure (negated : Bool) : Option (List Char) → Clauses → Option Clauses :=
  filterOne fun value => some (measureCondition negated value)

def containerCondition (negated : Bool) (value : List Char) : List Char :=
  comparison "container.containername".toList negated value

/-- `oph_filter_container` -/
def filterContainer (negated : Bool) : Option (List Char) → Clauses → Option Clauses :=
  filterOne fun value => some (containerCondition negated value)

/-- What stands behind the address of the server and a slash. -/
def behindServer (webServer : Option String) (value : List Char) : Option (List Char) := do
  let server ← webServer
  guard ((value.take server.length).map Char.toLower = server.toList.map Char.toLower)
  match value.drop server.length with
  | '/' :: rest => some rest
  | _ => none

def containerPidCondition (negated : Bool) (idcontainer : Int) : List Char :=
  comparison "datacube.idcontainer".toList negated (decimal idcontainer)

/-- `oph_filter_container_pid` -/
def filterContainerPid (webServer : Option String) (negated : Bool) : Option (List Char) → Clauses → Option Clauses :=
  filterOne fun value => (behindServer webServer value).map fun rest => containerPidCondition negated (readInt rest)

/-- `OPH_FILTER_TASK` -/
def taskTables : List Char := "task AS taskp,hasinput AS hasinputp,datacube AS datacubep".toList

def parentConditions (negated : Bool) (idparent idcontainer : Int) : List (List Char) :=
  ["datacube.iddatacube=taskp.idoutputcube".toList, "taskp.idtask=hasinputp.idtask".toList,
    "hasinputp.iddatacube=datacubep.iddatacube".toList,
    comparison "datacubep.iddatacube".toList negated (decimal idparent),
    comparison "datacubep.idcontainer".toList false (decimal idcontainer)]

/-- The identifiers of the container and of the datacube in a PID. -/
def readPid (webServer : Option String) (value : List Char) : Option (Int × Int) := do
  let rest ← behindServer webServer value
  guard (rest.length < maxStringSize)
  match tokens '/' rest with
  | _ :: second :: _ => some (readInt rest, readInt second)
  | _ => none

/-- `oph_filter_parent` -/
def filterParent (webServer : Option String) (negated : Bool) : Option (List Char) → Clauses → Option Clauses :=
  optional fun value c => do
    let (idcontainer, idparent) ← readPid webServer value
    let c ← c.addComma
    let c ← c.addTable taskTables
    let c ← c.addAnd
    c.add (printed (andText.intercalate (parentConditions negated idparent idcontainer)))

/-- `OPH_SUBSET_ISINSUBSET_PLUGIN` -/
def subsetCondition (negated : Bool) (iv : Subset.Interval) : List Char :=
  notText negated ++ ("mysql.oph_is_in_subset(datacube.iddatacube,".toList ++ (decimal iv.start ++ (',' ::
    (decimal (Subset.toLong iv.stride) ++ (',' :: (decimal iv.stop ++ [')']))))))

/-- `oph_filter_using_subset` -/
def filterUsingSubset (negated : Bool) : Option (List Char) → Clauses → Option Clauses :=
  optional fun value c => do
    let c ← c.addGroup
    match Subset.parse (value.map fun x => if x = '|' then ',' else x) 0 with
    | .error _ => none
    | .ok subset => do
      let condition ← joined (listText negated) true (subset.intervals.map (subsetCondition negated)) []
      let c ← c.add condition
      c.add [')']

/-- The loop over the metadata of a filter: a table and the conditions of each. -/
def addMetadata {α : Type} (sep : List Char) (table : Nat → List Char) (conditions : Nat → α → List (List Char)) :
    Nat → List α → Clauses → Option Clauses
  | _, [], c => some c
  | i, x :: xs, c => do
    let c ← (if i = 0 then some c else c.addTable [','])
    let c ← c.addTable (printed (table i))
    let c ← (if i = 0 then some c else c.add sep)
    let c ← c.add (printed (andText.intercalate (conditions i x)))
    addMetadata sep table conditions (i + 1) xs c

def metadataName (suffix : List Char) : List Char := "metadatainstance".toList ++ suffix

def metadataTable (suffix : List Char) : List Char := "metadatainstance AS ".toList ++ metadataName suffix

def metadataJoin (suffix : List Char) : List Char := metadataName suffix ++ ".iddatacube=datacube.iddatacube".toList

def metadataLabel (suffix : List Char) (negated : Bool) (key : List Char) : List Char :=
  comparison (metadataName suffix ++ ".label".toList) negated key

/-- The tables of the metadata end with `0`, `1`, ... -/
def keySuffix (i : Nat) : List Char := decimal i

/-- Or `0k0`, `0k1`, ... -/
def valueSuffix (i : Nat) : List Char := '0' :: 'k' :: decimal i

def metadataKeyConditions (negated : Bool) (i : Nat) (key : List Char) : List (List Char) :=
  [metadataJoin (keySuffix i), metadataLabel (keySuffix i) negated key]

/-- The lists of metadata are the other way round: all the keys must be there, or one of those that are negated. -/
def metadataText (negated : Bool) : List Char := if negated then orText else andText

/-- `oph_filter_metadata_key` -/
def filterMetadataKey (negated : Bool) : Option (List Char) → Clauses → Option Clauses :=
  optional fun value c => do
    let keys ← valueList value
    let c ← c.addComma
    let c ← c.addAnd
    addMetadata (metadataText negated) (fun i => metadataTable (keySuffix i)) (metadataKeyConditions negated) 0 keys c

def metadataValueCondition (suffix : List Char) (negated : Bool) (value : List Char) : List Char :=
  "CONVERT(".toList ++ (metadataName suffix ++ (".value USING latin1) ".toList ++ (notText negated ++
    ("LIKE '%".toList ++ (value ++ "%'".toList)))))

def metadataValueConditions (negated : Bool) (i : Nat) (kv : List Char × List Char) : List (List Char) :=
  [metadataJoin (valueSuffix i), metadataLabel (valueSuffix i) false kv.1,
    metadataValueCondition (valueSuffix i) negated kv.2]

/-- `oph_filter_metadata_value` -/
def filterMetadataValue (negated : Bool) (key : List Char) : Option (List Char) → Clauses → Option Clauses :=
  optional fun value c => do
    let keys ← valueList key
    let values ← valueList value
    guard (keys.length = values.length)
    let c ← c.addComma
    let c ← c.addAnd
    addMetadata (metadataText negated) (fun i => metadataTable (valueSuffix i)) (metadataValueConditions negated) 0
      (keys.zip values) c

/-! ### The folders -/

def folderCondition (negated : Bool) (id : Int) : List Char :=
  comparison "container.idfolder".toList negated (decimal id)

def subfoldersText : List Char := "SELECT idfolder FROM folder WHERE idparent = ".toList

/-- `MYSQL_QUERY_FS_RETRIEVE_SUB_FOLDER_ID` -/
def subfoldersQuery (id : Int) : List Char := subfoldersText ++ (decimal id ++ [';'])

/-- `oph_odb_fs_get_subfolders` -/
def getSubfolders (db : Folders.Ophidiadb) (id : Int) : Option (List Int) :=
  if id = 0 ∨ !db.connected ∨ Folders.mysqlBuflen ≤ (subfoldersQuery id).length then none
  else
    match db.query (subfoldersQuery id) with
    | none => none
    | some t =>
      if t.rows = [] then some []
      else if t.fieldCount ≠ 1 then none
      else t.rows.mapM fun row => (Folders.field row 0).map readInt

/-- The flag for the folders below: one level less of those that are asked for. -/
def deeper (recursive : Int) : Int := if recursive < 0 then recursive + 1 else recursive

/-- Why a search in the folders has no result: `OPH_MF_ERROR`, or it has not come to its end. -/
inductive Stop
  | error | fuel
  deriving DecidableEq, Repr

def orError {α : Type} : Option α → Except Stop α
  | none => .error .error
  | some a => .ok a

/-- `oph_add_folder`; `first` tells that the counter is still zero. -/
def addFolder (db : Folders.Ophidiadb) (negated : Bool) : Nat → Int → Bool → Int → Clauses → Except Stop Clauses
  | 0, _, _, _, _ => .error .fuel
  | fuel + 1, recursive, first, id, c => do
    let c ← orError (if first then some c else c.add (listText negated))
    let c ← orError (c.add (printed (folderCondition negated id)))
    if deeper recursive = 0 then .ok c
    else
      let subfolders ← orError (getSubfolders db id)
      subfolders.foldlM (fun c id => addFolder db negated fuel (deeper recursive) false id c) c

/-- The flag: 0 for the folder alone, 1 for all that is below it, and minus the depth that is asked for. -/
def recursiveFlag (recursive depth : Option (List Char)) : Int :=
  if recursive = some "yes".toList then
    match depth with
    | some depth => if 0 < readInt depth then -readInt depth else 1
    | none => 1
  else 0

/-- The server, the session and its folder. The check of the session climbs `fuel` folders at most. -/
structure Context where
  db : Folders.Ophidiadb
  webServer : Option String
  sessionid : String
  cwd : List Char
  fuel : Nat

/-- Each folder takes more than one character of the buffer. -/
def folderFuel : Nat := maxStringSize

/-- `oph_filter_path` -/
def filterPath (x : Context) (negated : Bool) (recursive depth : Option (List Char)) :
    Option (List Char) → Clauses → Option Clauses :=
  optional fun path c =>
    match Folders.pathParsing x.db [] path false with
    | .error _ => none
    | .ok (id, _) =>
      match Folders.checkFolderSession x.db x.fuel id x.sessionid.toList with
      | some (.ok permission) =>
        if permission = 0 then none
        else do
          let c ← c.addGroup
          let c ← (addFolder x.db negated folderFuel (recursiveFlag recursive depth) true id c).toOption
          c.add [')']
      | _ => none

/-- The path from the folder of the session on, in a buffer of `OPH_MAX_STRING_SIZE`. -/
def extendedPath (x : Context) (code path : List Char) : Option (List Char) :=
  let fromCwd :=
    if (path.dropWhile (· = ' ')).head? = some '/' then []
    else if ('/' :: code ++ x.cwd).reverse.dropWhile (· = ' ') |>.head? |>.any (· ≠ '/') then x.cwd ++ ['/']
    else x.cwd
  let ext := '/' :: code ++ (if path = [] then x.cwd else fromCwd ++ path)
  if ext.length < maxStringSize then some ext else none

/-! ### The query -/

/-- `task_tbl` -/
abbrev Arguments := String → Option (List Char)

/-- A filter of one argument, negated if the name ends with `OPH_MF_SYMBOL_NOT`. -/
def Arguments.filter (args : Arguments) (name : String) (negated : Bool)
    (filter : Bool → Option (List Char) → Clauses → Option Clauses) : Clauses → Option Clauses :=
  filter negated (args (if negated then name ++ "!" else name))

/-- The argument, unless it is empty. -/
def Arguments.given (args : Arguments) (name : String) : Option (List Char) := (args name).filter (· ≠ [])

/-- The filters that come in both forms in the same order. -/
def commonFilters (x : Context) (args : Arguments) (negated : Bool) (c : Clauses) : Option Clauses := do
  let c ← args.filter "level" negated filterLevel c
  let c ← args.filter "measure" negated filterMeasure c
  let c ← args.filter "parent_cube" negated (filterParent x.webServer) c
  let c ← args.filter "cube_filter" negated filterUsingSubset c
  match args.given (if negated then "container!" else "container") with
  | some container => filterContainer negated (some container) c
  | none => args.filter "container_pid" negated (filterContainerPid x.webServer) c

/-- The metadata with the positive filters. -/
def metadataFilter (args : Arguments) (c : Clauses) : Option Clauses :=
  match args.given "metadata_key" with
  | some key =>
    match args.given "metadata_value", args.given "metadata_value!" with
    | some value, _ => filterMetadataValue false key (some value) c
    | none, some value => filterMetadataValue true key (some value) c
    | none, none => filterMetadataKey false (some key) c
  | none => if (args.given "metadata_value").isSome then none else some c

/-- The metadata with the negative filters. -/
def negatedMetadataFilter (args : Arguments) (c : Clauses) : Option Clauses :=
  match args.given "metadata_key!" with
  | some key =>
    if (args "metadata_value").isSome || (args "metadata_value!").isSome then none
    else filterMetadataKey true (some key) c
  | none => if (args.given "metadata_value!").isSome then none else some c

/-- The path of the folders that are excluded, if there is one. -/
def negatedPath (x : Context) (code : List Char) (args : Arguments) : Option (Option (List Char)) :=
  match args.given "path!" with
  | some path => (extendedPath x code path).map some
  | none => some none

def basicClauses : Clauses where
  tables := "datacube,container".toList
  conditions := "datacube.idcontainer=container.idcontainer".toList

/-- `_oph_filter` up to the query. -/
def filterClauses (x : Context) (args : Option Arguments) : Option Clauses := do
  let code ← sessionCode x.webServer x.sessionid
  match args with
  | none =>
    let path ← extendedPath x code x.cwd
    filterPath x false (some "no".toList) none (some path) basicClauses
  | some args =>
    let path ← extendedPath x code ((args "path").getD [])
    let negatedPath ← negatedPath x code args
    let c ← commonFilters x args false basicClauses
    let c ← metadataFilter args c
    let c ← filterPath x false (args "recursive") (args "depth") (some path) c
    let c ← commonFilters x args true c
    let c ← negatedMetadataFilter args c
    filterPath x true (args "recursive") (args "depth") negatedPath c

/-- `OPH_MF_QUERY` and `OPH_MF_QUERY_DUMMY` -/
def Clauses.query (c : Clauses) : List Char :=
  if c.conditions = [] then "SELECT datacube.iddatacube, datacube.idcontainer FROM ".toList ++ c.tables
  else "SELECT DISTINCT datacube.iddatacube, datacube.idcontainer FROM ".toList ++
    (c.tables ++ (" WHERE ".toList ++ c.conditions))

/-- `_oph_filter` -/
def filter (x : Context) (args : Option Arguments) : Option (List Char) :=
  (filterClauses x args).map fun c => printed c.query

end OphidiaWorkflow.Filters
