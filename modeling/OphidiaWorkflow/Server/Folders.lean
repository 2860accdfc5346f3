import Mathlib.Data.List.Nodup
import OphidiaWorkflow.Lib.Cut
import OphidiaWorkflow.Lib.Decimal
import OphidiaWorkflow.Lib.Loops

/-!
The folders of the OphidiaDB: `oph_odb_fs_build_path` climbs from a folder to the root, `oph_odb_fs_path_parsing`
descends along a path.

Both put their queries into a buffer of `MYSQL_BUFLEN`, as they do the path.
-/
namespace OphidiaWorkflow.Folders

open Lib

/-- `MYSQL_BUFLEN` -/
def mysqlBuflen : Nat := 2048

/-- What `snprintf` leaves of a text in a buffer of `MYSQL_BUFLEN`. -/
def printed (s : List Char) : List Char := s.take (mysqlBuflen - 1)

/-- The codes of `oph_ophidiadb.h`. `undefined`: a buffer is left, or a null pointer is read. -/
inductive OdbError
  | nullParam | mysqlError | strBuffOverflow | tooManyRows | error | undefined
  deriving DecidableEq, Repr

/-- The answer to a query; a field may be null. -/
structure Table where
  fieldCount : Nat
  rows : List (List (Option (List Char)))
  deriving DecidableEq, Repr

/-- `ophidiadb`: `none` if `mysql_query` fails. -/
structure Ophidiadb where
  connected : Bool
  query : List Char → Option Table

/-- What stands before the numbers and the name in the queries. -/
def parentText : List Char := "SELECT idparent, foldername FROM folder WHERE idfolder = ".toList
def childText : List Char := "SELECT idfolder FROM folder WHERE idparent=".toList
def nameText : List Char := " AND foldername=\x27".toList

/-- `MYSQL_QUERY_FS_RETRIEVE_PARENT_FOLDER` -/
def parentQuery (id : Int) : List Char := parentText ++ (decimal id ++ [';'])

/-- `MYSQL_QUERY_OPH_FS_RETRIEVE_ROOT_ID` -/
def rootQuery : List Char := "SELECT idfolder FROM folder WHERE idparent IS NULL".toList

/-- `MYSQL_QUERY_OPH_FS_PATH_PARSING_ID` -/
def childQuery (id : Int) (name : List Char) : List Char :=
  childText ++ (decimal id ++ (nameText ++ (name ++ ['\x27'])))

/-- `row[k]` -/
def field (row : List (Option (List Char))) (k : Nat) : Option (List Char) := row.getD k none

/-- The loop of `oph_odb_fs_build_path`. -/
def climb (db : Ophidiadb) : Nat → Int → List Char → Option (Except OdbError (List Char))
  | 0, _, _ => none
  | fuel + 1, id, path =>
    if mysqlBuflen ≤ (parentQuery id).length then some (.error .strBuffOverflow)
    else
      match db.query (parentQuery id) with
      | none => some (.error .mysqlError)
      | some t =>
        match t.rows with
        | [row] =>
          if t.fieldCount ≠ 2 then some (.error .tooManyRows)
          else
            match field row 0, field row 1 with
            | none, _ => some (.ok (printed ('/' :: path)))
            | some p, some name => climb db fuel (readInt p) (printed (name ++ '/' :: path))
            | some _, none => some (.error .undefined)
        | _ => some (.error .tooManyRows)

/-- `oph_odb_fs_build_path`; `none` if the fuel is not enough. -/
def buildPath (db : Ophidiadb) (fuel : Nat) (id : Int) : Option (Except OdbError (List Char)) :=
  if id = 0 then some (.error .nullParam)
  else if !db.connected then some (.error .mysqlError)
  else climb db fuel id []

/-- What a token does to `list`, its last name first. -/
def pushToken (output : Bool) (list : List (List Char)) (token : List Char) : Except OdbError (List (List Char)) :=
  if token = ['.'] then if output then .ok list else .error .error
  else if token = ['.', '.'] then
    if output then
      match list with
      | [] => .error .error
      | _ :: list => .ok list
    else .error .error
  else .ok (printed token :: list)

/-- The path that is made of the names. -/
def pathOf (names : List (List Char)) : List Char := '/' :: names.flatMap fun name => name ++ ['/']

/-- From a folder to one of its descendants. -/
def descend (db : Ophidiadb) : Int → List (List Char) → Except OdbError Int
  | id, [] => .ok id
  | id, name :: names =>
    match db.query (printed (childQuery id name)) with
    | none => .error .mysqlError
    | some t =>
      match t.rows with
      | [row] =>
        match field row 0 with
        | some s => descend db (readInt s) names
        | none => .error .undefined
      | _ => .error .error

/-- `oph_odb_fs_path_parsing`; `output` tells whether `output_path` is given. -/
def pathParsing (db : Ophidiadb) (inpath cwd : List Char) (output : Bool) :
    Except OdbError (Int × Option (List Char)) :=
  if !db.connected then .error .mysqlError
  else if cwd.head? ≠ some '/' then .error .error
  else
    let buffer := printed (if inpath.head? = some '/' then inpath else cwd ++ '/' :: inpath)
    if buffer = ['/', '/'] ∨ tokens '/' buffer = [] then .error .error
    else
      match (tokens '/' buffer).foldlM (pushToken output) [] with
      | .error e => .error e
      | .ok list =>
        if output && mysqlBuflen ≤ (pathOf list.reverse).length then .error .undefined
        else
          match db.query rootQuery with
          | none => .error .mysqlError
          | some t =>
            match t.rows with
            | [row] =>
              match field row 0 with
              | some s =>
                match descend db (readInt s) list.reverse with
                | .ok id => .ok (id, if output then some (pathOf list.reverse) else none)
                | .error e => .error e
              | none => .error .undefined
            | _ => .error .error

/-- A row of the table `folder`. -/
structure Folder where
  idfolder : Int
  idparent : Option Int
  foldername : List Char
  deriving DecidableEq, Repr

/-- The way from the root down to a folder: the parents and the names. -/
inductive Descends (rows : List Folder) : Int → List (Int × List Char) → Prop
  | root {id name} (h : ⟨id, none, name⟩ ∈ rows) : Descends rows id []
  | child {id p name l} (h : ⟨id, some p, name⟩ ∈ rows) (hp : Descends rows p l) : Descends rows id (l ++ [(p, name)])

/-- A name that can stand in a path. -/
structure FolderName (name : List Char) : Prop where
  nonempty : name ≠ []
  slash : '/' ∉ name
  dot : name ≠ ['.']
  dots : name ≠ ['.', '.']

/-- A tree of folders with one root. -/
structure FolderTree where
  rows : List Folder
  nodup : (rows.map Folder.idfolder).Nodup
  range : ∀ f ∈ rows, 0 < f.idfolder ∧ f.idfolder < 2147483648
  root : ∀ f ∈ rows, ∀ g ∈ rows, f.idparent = none → g.idparent = none → f = g
  rooted : ∀ f ∈ rows, ∃ l, Descends rows f.idfolder l
  names : ∀ f ∈ rows, f.idparent ≠ none → FolderName f.foldername
  unique : ∀ f ∈ rows, ∀ g ∈ rows, f.idparent = g.idparent → f.foldername = g.foldername → f = g

/-- The database answers the queries with the rows of the tree. -/
structure Answers (T : FolderTree) (db : Ophidiadb) : Prop where
  connected : db.connected = true
  root : db.query rootQuery =
    some ⟨1, (T.rows.filter fun f => f.idparent = none).map fun f => [some (decimal f.idfolder)]⟩
  parent : ∀ id, db.query (parentQuery id) =
    some ⟨2, (T.rows.filter fun f => f.idfolder = id).map fun f => [f.idparent.map decimal, some f.foldername]⟩
  child : ∀ id name, db.query (childQuery id name) =
    some ⟨1, (T.rows.filter fun f => f.idparent = some id ∧ f.foldername = name).map
      fun f => [some (decimal f.idfolder)]⟩

section Tree

variable {T : FolderTree} {rows : List Folder} {f g : Folder} {id p : Int} {name : List Char}
  {l l' : List (Int × List Char)}

theorem filter_eq_singleton {α : Type*} {q : α → Bool} {l : List α} {x : α} (hl : l.Nodup) (hx : x ∈ l)
    (h : ∀ y ∈ l, q y = true ↔ y = x) : l.filter q = [x] := by
  induction l with
  | nil => cases hx
  | cons y l ih =>
    obtain ⟨hy, hl⟩ := List.nodup_cons.mp hl
    rcases List.mem_cons.mp hx with rfl | hx
    · rw [List.filter_cons_of_pos ((h x List.mem_cons_self).mpr rfl)]
      refine congrArg (x :: ·) (List.filter_eq_nil_iff.mpr fun z hz hq => hy ?_)
      rwa [← (h z (List.mem_cons_of_mem _ hz)).mp hq]
    · have hne : y ≠ x := fun he => hy (he ▸ hx)
      rw [List.filter_cons_of_neg fun hq => hne ((h y List.mem_cons_self).mp hq)]
      exact ih hl hx fun z hz => h z (List.mem_cons_of_mem _ hz)

namespace FolderTree

theorem eq_of_id (T : FolderTree) (hf : f ∈ T.rows) (hg : g ∈ T.rows) (h : f.idfolder = g.idfolder) : f = g :=
  List.inj_on_of_nodup_map T.nodup hf hg h

theorem rows_nodup (T : FolderTree) : T.rows.Nodup := List.Nodup.of_map _ T.nodup

theorem filter_id (hf : f ∈ T.rows) : (T.rows.filter fun g => g.idfolder = f.idfolder) = [f] := by
  refine filter_eq_singleton T.rows_nodup hf fun g hg => ?_
  rw [decide_eq_true_iff]
  exact ⟨T.eq_of_id hg hf, fun h => h ▸ rfl⟩

theorem filter_root (hf : f ∈ T.rows) (hr : f.idparent = none) : (T.rows.filter fun g => g.idparent = none) = [f] := by
  refine filter_eq_singleton T.rows_nodup hf fun g hg => ?_
  rw [decide_eq_true_iff]
  exact ⟨fun h => T.root g hg f hf h hr, fun h => h ▸ hr⟩

theorem filter_child (hf : f ∈ T.rows) (hp : f.idparent = some p) :
    (T.rows.filter fun g => g.idparent = some p ∧ g.foldername = f.foldername) = [f] := by
  refine filter_eq_singleton T.rows_nodup hf fun g hg => ?_
  rw [decide_eq_true_iff]
  exact ⟨fun h => T.unique g hg f hf (h.1.trans hp.symm) h.2, by rintro rfl; exact ⟨hp, rfl⟩⟩

theorem readInt_id (hf : f ∈ T.rows) : readInt (decimal f.idfolder) = f.idfolder := by
  obtain ⟨h0, h1⟩ := T.range f hf
  apply readInt_decimal
  rw [toInt32, Int.bmod]
  split <;> omega

end FolderTree

theorem Descends.of_root (hf : f ∈ T.rows) (hr : f.idparent = none) : Descends T.rows f.idfolder [] := by
  have hrow : (⟨f.idfolder, none, f.foldername⟩ : Folder) ∈ T.rows := by
    rw [← hr]
    exact hf
  exact .root hrow

theorem Descends.exists_row (h : Descends rows id l) : ∃ f ∈ rows, f.idfolder = id := by
  cases h with
  | root h => exact ⟨_, h, rfl⟩
  | child h => exact ⟨_, h, rfl⟩

theorem Descends.unique (h : Descends T.rows id l) (h' : Descends T.rows id l') : l = l' := by
  induction h generalizing l' with
  | root h =>
    cases h' with
    | root => rfl
    | child h' => cases T.eq_of_id h h' rfl
  | child h _ ih =>
    cases h' with
    | root h' => cases T.eq_of_id h h' rfl
    | child h' hp' =>
      cases T.eq_of_id h h' rfl
      rw [ih hp']

theorem Descends.names (h : Descends T.rows id l) : ∀ name ∈ l.map Prod.snd, FolderName name := by
  induction h with
  | root h => simp
  | child h _ ih =>
    intro name hm
    rw [List.map_append, List.mem_append] at hm
    rcases hm with hm | hm
    · exact ih name hm
    · rw [List.mem_singleton.mp hm]
      exact T.names _ h (by simp)

end Tree

section Paths

variable {names : List (List Char)} {name s : List Char}

theorem printed_eq (h : s.length < mysqlBuflen) : printed s = s := List.take_of_length_le (Nat.le_sub_one_of_lt h)

theorem tokens_pathOf (h : ∀ name ∈ names, FolderName name) : tokens '/' (pathOf names) = names := by
  rw [pathOf, tokens_cons_self]
  exact tokens_flatMap fun name hm => ⟨(h name hm).nonempty, (h name hm).slash⟩

theorem length_le_pathOf (h : name ∈ names) : name.length ≤ (pathOf names).length := by
  obtain ⟨a, b, rfl⟩ := List.append_of_mem h
  rw [pathOf, List.length_cons, List.flatMap_append, List.flatMap_cons, List.length_append, List.length_append,
    List.length_append]
  omega

theorem pushTokens (h : ∀ name ∈ names, FolderName name ∧ name.length < mysqlBuflen) (output : Bool)
    (list : List (List Char)) : names.foldlM (pushToken output) list = .ok (names.reverse ++ list) := by
  induction names generalizing list with
  | nil => rfl
  | cons name names ih =>
    obtain ⟨hn, hl⟩ := h name List.mem_cons_self
    have hpush : pushToken output list name = .ok (name :: list) := by
      unfold pushToken
      rw [if_neg hn.dot, if_neg hn.dots, printed_eq hl]
    rw [List.foldlM_cons, hpush]
    refine (ih (fun n hm => h n (List.mem_cons_of_mem _ hm)) (name :: list)).trans ?_
    rw [List.reverse_cons, List.append_assoc]
    rfl

end Paths

section RoundTrip

variable {T : FolderTree} {db : Ophidiadb} {f : Folder} {id id' : Int} {l l' : List (Int × List Char)}
  {path cwd : List Char}

theorem length_parentQuery (hf : f ∈ T.rows) : (parentQuery f.idfolder).length < mysqlBuflen := by
  obtain ⟨h0, h1⟩ := T.range f hf
  have hlen : (decimal f.idfolder).length ≤ 10 :=
    length_decimal_le (Int.le_of_lt h0) (by decide) (Int.lt_of_lt_of_le h1 (by decide))
  have hbase : parentText.length = 57 := rfl
  unfold parentQuery mysqlBuflen
  rw [List.length_append, List.length_append, hbase, List.length_singleton]
  omega

/-- The climb from a folder puts the names on its way in front of the path. -/
theorem climb_of_descends (hdb : Answers T db) (h : Descends T.rows id l)
    (hfit : (pathOf (l.map Prod.snd) ++ path).length < mysqlBuflen) :
    climb db (l.length + 1) id path = some (.ok (pathOf (l.map Prod.snd) ++ path)) := by
  induction h generalizing path with
  | @root id name h =>
    have hrow := FolderTree.filter_id h
    rw [climb, if_neg (Nat.not_le.mpr (length_parentQuery h)), hdb.parent]
    dsimp only at hrow ⊢
    rw [hrow]
    exact congrArg (fun s => some (Except.ok s)) (printed_eq hfit)
  | @child id p name l h hp ih =>
    have hrow := FolderTree.filter_id h
    obtain ⟨g, hg, rfl⟩ := hp.exists_row
    have hpath : pathOf ((l ++ [(g.idfolder, name)]).map Prod.snd) ++ path =
        pathOf (l.map Prod.snd) ++ (name ++ '/' :: path) := by
      simp [pathOf]
    rw [hpath] at hfit ⊢
    have hshort : printed (name ++ '/' :: path) = name ++ '/' :: path := by
      refine printed_eq (Nat.lt_of_le_of_lt ?_ hfit)
      rw [@List.length_append _ (pathOf _)]
      omega
    rw [List.length_append, List.length_singleton, climb, if_neg (Nat.not_le.mpr (length_parentQuery h)), hdb.parent]
    dsimp only at hrow ⊢
    rw [hrow]
    refine Eq.trans ?_ (ih hfit)
    show climb db (l.length + 1) (readInt (decimal g.idfolder)) (printed (name ++ '/' :: path)) = _
    rw [FolderTree.readInt_id hg, hshort]

theorem descend_append (db : Ophidiadb) (id : Int) (a b : List (List Char)) :
    descend db id (a ++ b) = (descend db id a).bind fun id => descend db id b := by
  induction a generalizing id with
  | nil => rfl
  | cons name a ih =>
    rw [List.cons_append, descend, descend]
    cases db.query (printed (childQuery id name)) with
    | none => rfl
    | some t =>
      dsimp only
      split
      · split
        · exact ih _
        · rfl
      · rfl

/-- The database answers the query for a child with the rows of the tree. -/
def AnswersChild (T : FolderTree) (db : Ophidiadb) (id : Int) (name : List Char) : Prop :=
  db.query (childQuery id name) =
    some ⟨1, (T.rows.filter fun f => f.idparent = some id ∧ f.foldername = name).map
      fun f => [some (decimal f.idfolder)]⟩

/-- The way down from the root, if no query is cut off. -/
theorem descend_of_descends (h : Descends T.rows id l) (hf : f ∈ T.rows) (hr : f.idparent = none)
    (hdb : ∀ q ∈ l, AnswersChild T db q.1 q.2) (hq : ∀ q ∈ l, (childQuery q.1 q.2).length < mysqlBuflen) :
    descend db f.idfolder (l.map Prod.snd) = .ok id := by
  induction h with
  | @root id name h =>
    rw [T.root f hf _ h hr rfl]
    rfl
  | @child id p name l h hp ih =>
    have hrow := FolderTree.filter_child h rfl
    have hlast : (p, name) ∈ l ++ [(p, name)] := List.mem_append_right _ (List.mem_singleton_self _)
    rw [List.map_append, descend_append,
      ih (fun q hm => hdb q (List.mem_append_left _ hm)) fun q hm => hq q (List.mem_append_left _ hm)]
    show descend db p [name] = _
    rw [descend, printed_eq (hq (p, name) hlast), hdb (p, name) hlast]
    dsimp only at hrow ⊢
    rw [hrow]
    exact congrArg Except.ok (FolderTree.readInt_id h)

theorem Descends.exists_root (h : Descends T.rows id l) : ∃ f ∈ T.rows, f.idparent = none := by
  induction h with
  | root h => exact ⟨_, h, rfl⟩
  | child _ _ ih => exact ih

theorem pathParsing_pathOf (hdb : Answers T db) (h : Descends T.rows id l) (hl : l ≠ [])
    (hfit : (pathOf (l.map Prod.snd)).length < mysqlBuflen) (hc : cwd.head? = some '/') (hf : f ∈ T.rows)
    (hr : f.idparent = none) : pathParsing db (pathOf (l.map Prod.snd)) cwd true =
      (descend db f.idfolder (l.map Prod.snd)).map fun id => (id, some (pathOf (l.map Prod.snd))) := by
  have hnames := h.names
  have htokens := tokens_pathOf hnames
  have hne : l.map Prod.snd ≠ [] := fun hn => hl (List.map_eq_nil_iff.mp hn)
  have hpush := pushTokens (fun name hm => ⟨hnames name hm, Nat.lt_of_le_of_lt (length_le_pathOf hm) hfit⟩) true []
  have hrow := FolderTree.filter_root hf hr
  have habs : (if (pathOf (l.map Prod.snd)).head? = some '/' then pathOf (l.map Prod.snd)
      else cwd ++ '/' :: pathOf (l.map Prod.snd)) = pathOf (l.map Prod.snd) := if_pos rfl
  have hslash : pathOf (l.map Prod.snd) ≠ ['/', '/'] := by
    intro he
    rw [he] at htokens
    exact hne htokens.symm
  rw [pathParsing, hdb.connected, if_neg (by decide), if_neg (fun hn => hn hc)]
  dsimp only
  rw [habs, printed_eq hfit, htokens, if_neg (by simp [hslash, hne]), hpush]
  dsimp only
  rw [List.append_nil, List.reverse_reverse, if_neg (by simpa using hfit), hdb.root]
  dsimp only
  rw [hrow]
  show (match descend db (readInt (decimal f.idfolder)) (l.map Prod.snd) with
    | .ok id => Except.ok (id, some (pathOf (l.map Prod.snd)))
    | .error e => .error e) = _
  rw [FolderTree.readInt_id hf]
  cases descend db f.idfolder (l.map Prod.snd) <;> rfl

end RoundTrip

section TreeDb

variable {T : FolderTree} {id id' p p' : Int} {name name' s : List Char} {l : List (Int × List Char)}
  {names : List (List Char)}

theorem not_mem_space (n : Int) : ' ' ∉ decimal n := not_mem_decimal n (by decide) (by decide)

/-- A query tells the parent, whatever follows. -/
theorem childText_inj {t t' : List Char}
    (h : childText ++ (decimal id ++ (nameText ++ t)) = childText ++ (decimal id' ++ (nameText ++ t'))) :
    id = id' ∧ t = t' := by
  have hcut (n : Int) (u : List Char) :
      cutAt ' ' (decimal n ++ (nameText ++ u)) = some (decimal n, nameText.tail ++ u) :=
    cutAt_append_cons _ (not_mem_space n)
  have hc := congrArg (cutAt ' ') (List.append_cancel_left h)
  rw [hcut, hcut] at hc
  obtain ⟨hd, ht⟩ := Prod.mk.inj (Option.some.inj hc)
  exact ⟨decimal_injective hd, List.append_cancel_left ht⟩

theorem childQuery_inj (h : childQuery id name = childQuery id' name') : id = id' ∧ name = name' := by
  obtain ⟨hid, hn⟩ := childText_inj h
  exact ⟨hid, List.append_cancel_right hn⟩

theorem length_childQuery (id : Int) (name : List Char) :
    (childQuery id name).length = (decimal id).length + name.length + 61 := by
  have h1 : childText.length = 43 := rfl
  have h2 : nameText.length = 17 := rfl
  rw [childQuery, List.length_append, List.length_append, List.length_append, List.length_append, h1, h2,
    List.length_singleton]
  omega

theorem parentQuery_inj (h : parentQuery id = parentQuery id') : id = id' := by
  unfold parentQuery at h
  exact decimal_injective (List.append_cancel_right (List.append_cancel_left h))

/-- Where the queries differ. -/
def queryKind (s : List Char) : Option Char × Option Char := (s[9]?, s[42]?)

theorem queryKind_root : queryKind rootQuery = (some 'f', some ' ') := rfl

theorem queryKind_parent (id : Int) : queryKind (parentQuery id) = (some 'p', some 'E') := by
  have h9 : 9 < parentText.length := by decide
  have h42 : 42 < parentText.length := by decide
  rw [queryKind, parentQuery, List.getElem?_append_left h9, List.getElem?_append_left h42]
  rfl

theorem queryKind_child (t : List Char) : queryKind (childText ++ t) = (some 'f', some '=') := by
  have h9 : 9 < childText.length := by decide
  have h42 : 42 < childText.length := by decide
  rw [queryKind, List.getElem?_append_left h9, List.getElem?_append_left h42]
  rfl

/-- A database that has no row for any other query. -/
def treeDb (T : FolderTree) : Ophidiadb where
  connected := true
  query s :=
    if s = rootQuery then some ⟨1, (T.rows.filter fun f => f.idparent = none).map fun f => [some (decimal f.idfolder)]⟩
    else if (queryKind s).1 = some 'p' then
      some ⟨2, (T.rows.filter fun f => parentQuery f.idfolder = s).map
        fun f => [f.idparent.map decimal, some f.foldername]⟩
    else
      some ⟨1, (T.rows.filter fun f => f.idparent.map (fun p => childQuery p f.foldername) = some s).map
        fun f => [some (decimal f.idfolder)]⟩

theorem treeDb_child (T : FolderTree) (t : List Char) : (treeDb T).query (childText ++ t) =
    some ⟨1, (T.rows.filter fun f => f.idparent.map (fun p => childQuery p f.foldername) = some (childText ++ t)).map
      fun f => [some (decimal f.idfolder)]⟩ := by
  have hkind := queryKind_child t
  have hroot : childText ++ t ≠ rootQuery := by
    intro h
    rw [h, queryKind_root] at hkind
    cases hkind
  have hparent : (queryKind (childText ++ t)).1 ≠ some 'p' := by
    rw [hkind]
    decide
  unfold treeDb
  dsimp only
  rw [if_neg hroot, if_neg hparent]

theorem filter_childQuery (T : FolderTree) (id : Int) (name : List Char) :
    (T.rows.filter fun f => f.idparent.map (fun p => childQuery p f.foldername) = some (childQuery id name)) =
      T.rows.filter fun f => f.idparent = some id ∧ f.foldername = name := by
  refine List.filter_congr fun f _ => decide_eq_decide.mpr ?_
  rw [Option.map_eq_some_iff]
  constructor
  · rintro ⟨p, hp, hq⟩
    obtain ⟨rfl, hn⟩ := childQuery_inj hq
    exact ⟨hp, hn⟩
  · rintro ⟨hp, rfl⟩
    exact ⟨id, hp, rfl⟩

theorem answers_treeDb (T : FolderTree) : Answers T (treeDb T) where
  connected := rfl
  root := by
    unfold treeDb
    dsimp only
    rw [if_pos rfl]
  parent id := by
    have hkind := queryKind_parent id
    have hroot : parentQuery id ≠ rootQuery := by
      intro h
      rw [h, queryKind_root] at hkind
      cases hkind
    have hfilter : (T.rows.filter fun f => parentQuery f.idfolder = parentQuery id) =
        T.rows.filter fun f => f.idfolder = id := by
      refine List.filter_congr fun f _ => decide_eq_decide.mpr ?_
      exact ⟨parentQuery_inj, fun h => h ▸ rfl⟩
    unfold treeDb
    dsimp only
    rw [if_neg hroot, if_pos (congrArg Prod.fst hkind), hfilter]
  child id name := by
    rw [← filter_childQuery]
    exact treeDb_child T _

theorem printed_childQuery (hp : (decimal p).length ≤ 10) (name : List Char) :
    ∃ t, printed (childQuery p name) = childText ++ (decimal p ++ (nameText ++ t)) := by
  have hlen : (childText ++ (decimal p ++ nameText)).length ≤ mysqlBuflen - 1 := by
    have h1 : childText.length = 43 := rfl
    have h2 : nameText.length = 17 := rfl
    rw [List.length_append, List.length_append, h1, h2, mysqlBuflen]
    omega
  have hq : childQuery p name = (childText ++ (decimal p ++ nameText)) ++ (name ++ ['\x27']) := by
    rw [childQuery, List.append_assoc, List.append_assoc]
  refine ⟨(name ++ ['\x27']).take (mysqlBuflen - 1 - (childText ++ (decimal p ++ nameText)).length), ?_⟩
  rw [hq, printed, List.take_append, List.take_of_length_le hlen, List.append_assoc, List.append_assoc]

/-- The texts that the database takes are answered with the rows whose queries they are. -/
def Answered (T : FolderTree) (db : Ophidiadb) (Takes : List Char → Prop) : Prop :=
  ∀ t r, db.query (childText ++ t) = some r → Takes (childText ++ t) ∧
    r = ⟨1, (T.rows.filter fun f => f.idparent.map (fun p => childQuery p f.foldername) = some (childText ++ t)).map
      fun f => [some (decimal f.idfolder)]⟩

/-- A way down from a folder that such a database shows is one of the tree, with the queries as they are cut off. -/
theorem descends_of_descend {db : Ophidiadb} {Takes : List Char → Prop} (hdb : Answered T db Takes)
    (h : Descends T.rows p l) (hd : descend db p names = .ok id) :
    ∃ l', Descends T.rows id (l ++ l') ∧ List.Forall₂
      (fun q name => printed (childQuery q.1 name) = childQuery q.1 q.2 ∧ Takes (childQuery q.1 q.2)) l' names := by
  induction names generalizing p l with
  | nil =>
    cases hd
    exact ⟨[], by rwa [List.append_nil], .nil⟩
  | cons name names ih =>
    obtain ⟨g, hg, rfl⟩ := h.exists_row
    obtain ⟨h0, h1⟩ := T.range g hg
    have hdecimal : (decimal g.idfolder).length ≤ 10 :=
      length_decimal_le (Int.le_of_lt h0) (by decide) (Int.lt_of_lt_of_le h1 (by decide))
    obtain ⟨t, ht⟩ := printed_childQuery hdecimal name
    rw [descend, ht] at hd
    cases hanswer : db.query (childText ++ (decimal g.idfolder ++ (nameText ++ t))) with
    | none =>
      rw [hanswer] at hd
      cases hd
    | some r =>
      obtain ⟨htakes, rfl⟩ := hdb _ _ hanswer
      rw [hanswer] at hd
      dsimp only at hd
      cases hrows : T.rows.filter fun f => f.idparent.map (fun p => childQuery p f.foldername) =
          some (childText ++ (decimal g.idfolder ++ (nameText ++ t))) with
      | nil =>
        rw [hrows] at hd
        cases hd
      | cons f fs =>
        rw [hrows] at hd
        cases fs with
        | cons f' fs => cases hd
        | nil =>
          have hf : f ∈ T.rows.filter fun f => f.idparent.map (fun p => childQuery p f.foldername) =
              some (childText ++ (decimal g.idfolder ++ (nameText ++ t))) := hrows ▸ List.mem_cons_self
          obtain ⟨hmem, hq⟩ := List.mem_filter.mp hf
          obtain ⟨p, hp, hq⟩ := Option.map_eq_some_iff.mp (of_decide_eq_true hq)
          obtain ⟨rfl, -⟩ := childText_inj hq
          have hdesc : Descends T.rows f.idfolder (l ++ [(g.idfolder, f.foldername)]) := by
            refine .child ?_ h
            rw [← hp]
            exact hmem
          have hrest : descend db (readInt (decimal f.idfolder)) names = .ok id := hd
          rw [FolderTree.readInt_id hmem] at hrest
          obtain ⟨l', hl', hall⟩ := ih hdesc hrest
          refine ⟨(g.idfolder, f.foldername) :: l', ?_, .cons ⟨ht.trans hq.symm, ?_⟩ hall⟩
          · rwa [List.append_assoc, List.singleton_append] at hl'
          · show Takes (childQuery g.idfolder f.foldername)
            rwa [hq]

end TreeDb

section Claim

variable {T : FolderTree} {db : Ophidiadb} {f : Folder} {id : Int} {l : List (Int × List Char)} {path cwd : List Char}

/-- The path of the folder leads back to it. -/
def RoundTrip (db : Ophidiadb) (id : Int) (cwd : List Char) : Prop :=
  ∃ fuel path, buildPath db fuel id = some (.ok path) ∧ pathParsing db path cwd true = .ok (id, some path)

theorem climb_succ {fuel : Nat} {r : Except OdbError (List Char)} (h : climb db fuel id path = some r) :
    climb db (fuel + 1) id path = some r := by
  induction fuel generalizing id path with
  | zero => cases h
  | succ fuel ih =>
    rw [climb] at h ⊢
    split at h
    · next hlen => rwa [if_pos hlen]
    · next hlen =>
      rw [if_neg hlen]
      split at h
      · exact h
      · split at h
        · split at h
          · next hfields => rwa [if_pos hfields]
          · next hfields =>
            rw [if_neg hfields]
            split at h
            · exact h
            · exact ih h
            · exact h
        · exact h

theorem buildPath_eq (hdb : Answers T db) (hf : f ∈ T.rows) (h : Descends T.rows f.idfolder l)
    (hfit : (pathOf (l.map Prod.snd)).length < mysqlBuflen) :
    buildPath db (l.length + 1) f.idfolder = some (.ok (pathOf (l.map Prod.snd))) := by
  have hclimb : climb db (l.length + 1) f.idfolder [] = some (.ok (pathOf (l.map Prod.snd) ++ [])) :=
    climb_of_descends hdb h (by rwa [List.append_nil])
  rw [List.append_nil] at hclimb
  rw [buildPath, if_neg (Int.ne_of_gt (T.range f hf).1), hdb.connected, if_neg (by decide), hclimb]

theorem path_unique (hdb : Answers T db) (hf : f ∈ T.rows) (h : Descends T.rows f.idfolder l)
    (hfit : (pathOf (l.map Prod.snd)).length < mysqlBuflen) {fuel : Nat}
    (hb : buildPath db fuel f.idfolder = some (.ok path)) : path = pathOf (l.map Prod.snd) := by
  have heq := buildPath_eq hdb hf h hfit
  unfold buildPath at hb heq
  rw [if_neg (Int.ne_of_gt (T.range f hf).1), hdb.connected, if_neg (by decide)] at hb heq
  exact Except.ok.inj (eq_of_fuel (fun n => climb db n f.idfolder []) (fun _ _ => climb_succ) hb heq)

theorem ne_nil_of_nonroot (hf : f ∈ T.rows) (hn : f.idparent ≠ none) (h : Descends T.rows f.idfolder l) : l ≠ [] := by
  rintro rfl
  generalize hid : f.idfolder = id at h
  generalize hl : ([] : List (Int × List Char)) = l at h
  cases h with
  | root h =>
    rw [T.eq_of_id hf h hid] at hn
    exact hn rfl
  | child => simp at hl

theorem roundTrip_of_fit (hdb : Answers T db) (hf : f ∈ T.rows) (hn : f.idparent ≠ none)
    (h : Descends T.rows f.idfolder l) (hfit : (pathOf (l.map Prod.snd)).length < mysqlBuflen) (hc : cwd.head? = some '/')
    (hq : ∀ q ∈ l, (childQuery q.1 q.2).length < mysqlBuflen) : RoundTrip db f.idfolder cwd := by
  obtain ⟨r, hr, hroot⟩ := h.exists_root
  refine ⟨_, _, buildPath_eq hdb hf h hfit, ?_⟩
  rw [pathParsing_pathOf hdb h (ne_nil_of_nonroot hf hn h) hfit hc hr hroot,
    descend_of_descends h hr hroot (fun q _ => hdb.child q.1 q.2) hq]
  rfl

/-- The database without other rows shows that no query was cut off. -/
theorem fit_of_roundTrip (hf : f ∈ T.rows) (hn : f.idparent ≠ none) (h : Descends T.rows f.idfolder l)
    (hfit : (pathOf (l.map Prod.snd)).length < mysqlBuflen) (hc : cwd.head? = some '/')
    (hrt : RoundTrip (treeDb T) f.idfolder cwd) : ∀ q ∈ l, (childQuery q.1 q.2).length < mysqlBuflen := by
  have hdb := answers_treeDb T
  obtain ⟨r, hr, hroot⟩ := h.exists_root
  obtain ⟨fuel, path, hb, hp⟩ := hrt
  obtain rfl := path_unique hdb hf h hfit hb
  rw [pathParsing_pathOf hdb h (ne_nil_of_nonroot hf hn h) hfit hc hr hroot] at hp
  cases hd : descend (treeDb T) r.idfolder (l.map Prod.snd) with
  | error e =>
    rw [hd] at hp
    cases hp
  | ok id =>
    rw [hd] at hp
    obtain rfl : id = f.idfolder := (Prod.mk.inj (Except.ok.inj hp)).1
    have hanswered : Answered T (treeDb T) fun _ => True := by
      intro t r hr
      rw [treeDb_child] at hr
      exact ⟨trivial, (Option.some.inj hr).symm⟩
    obtain ⟨l', hl', hall⟩ := descends_of_descend hanswered (.of_root hr hroot) hd
    obtain rfl : l = l' := h.unique hl'
    rw [List.forall₂_map_right_iff, List.forall₂_same] at hall
    intro q hm
    have hlen := congrArg List.length (hall q hm).1
    rw [printed, List.length_take, mysqlBuflen] at hlen
    rw [mysqlBuflen]
    omega

/-- The path of a folder leads back to it, whatever the database has for other queries, exactly if the queries for the
folders on the way fit into the buffer. -/
theorem roundTrip_iff (hf : f ∈ T.rows) (hn : f.idparent ≠ none) (h : Descends T.rows f.idfolder l)
    (hfit : (pathOf (l.map Prod.snd)).length < mysqlBuflen) (hc : cwd.head? = some '/') :
    (∀ db, Answers T db → RoundTrip db f.idfolder cwd) ↔ ∀ q ∈ l, (childQuery q.1 q.2).length < mysqlBuflen := by
  constructor
  · exact fun hrt => fit_of_roundTrip hf hn h hfit hc (hrt (treeDb T) (answers_treeDb T))
  · exact fun hq db hdb => roundTrip_of_fit hdb hf hn h hfit hc hq

end Claim

/-- The table of a root with one folder. -/
def oneFolderRows (name : List Char) : List Folder := [⟨1, none, []⟩, ⟨2, some 1, name⟩]

theorem root_oneFolder (name : List Char) : Descends (oneFolderRows name) 1 [] := .root List.mem_cons_self

theorem descends_oneFolder (name : List Char) : Descends (oneFolderRows name) 2 [(1, name)] :=
  .child (List.mem_cons_of_mem _ (List.mem_singleton_self _)) (root_oneFolder name)

/-- A root with one folder. -/
def oneFolder (name : List Char) (h : FolderName name) : FolderTree where
  rows := oneFolderRows name
  nodup := by simp [oneFolderRows]
  range := by simp [oneFolderRows]
  root := by simp [oneFolderRows]
  rooted := by
    intro f hf
    rcases List.mem_cons.mp hf with rfl | hf
    · exact ⟨[], root_oneFolder name⟩
    · rw [List.mem_singleton.mp hf]
      exact ⟨_, descends_oneFolder name⟩
  names := by simpa [oneFolderRows] using h
  unique := by simp [oneFolderRows]

def home : FolderTree := oneFolder "home".toList ⟨by decide, by decide, by decide, by decide⟩

theorem roundTrip_home : RoundTrip (treeDb home) 2 "/tmp".toList := by
  have hfolder : (⟨2, some 1, "home".toList⟩ : Folder) ∈ home.rows := List.mem_cons_of_mem _ (List.mem_singleton_self _)
  refine (roundTrip_iff (f := ⟨2, some 1, "home".toList⟩) hfolder (by simp) (descends_oneFolder _) (by decide)
    rfl).mpr ?_ (treeDb home) (answers_treeDb home)
  intro q hq
  rw [List.mem_singleton.mp hq]
  decide

theorem not_roundTrip_of_length {name : List Char} (hn : FolderName name) (hfit : (pathOf [name]).length < mysqlBuflen)
    (hlen : 1986 ≤ name.length) : ¬∀ db, Answers (oneFolder name hn) db → RoundTrip db 2 ['/'] := by
  intro h
  have hfolder : (⟨2, some 1, name⟩ : Folder) ∈ (oneFolder name hn).rows :=
    List.mem_cons_of_mem _ (List.mem_singleton_self _)
  have hrt := h _ (answers_treeDb _)
  have hshort := fit_of_roundTrip (f := ⟨2, some 1, name⟩) hfolder (by simp) (descends_oneFolder _) hfit rfl hrt
    (1, name) List.mem_cons_self
  have hone : (decimal 1).length = 1 := rfl
  rw [length_childQuery, hone, mysqlBuflen] at hshort
  dsimp only at hshort
  omega

theorem folderName_replicate {n : Nat} (h : 3 ≤ n) : FolderName (List.replicate n 'a') where
  nonempty he := by
    have hlen := congrArg List.length he
    rw [List.length_replicate, List.length_nil] at hlen
    omega
  slash h := absurd (List.eq_of_mem_replicate h) (by decide)
  dot he := by
    have hlen := congrArg List.length he
    rw [List.length_replicate, List.length_singleton] at hlen
    omega
  dots he := by
    have hlen := congrArg List.length he
    rw [List.length_replicate, List.length_cons, List.length_singleton] at hlen
    omega

theorem length_pathOf_singleton (name : List Char) : (pathOf [name]).length = name.length + 2 := by simp [pathOf]

theorem not_roundTrip_2000 : (pathOf [List.replicate 2000 'a']).length < mysqlBuflen ∧
    ¬∀ db, Answers (oneFolder _ (folderName_replicate (by decide : 3 ≤ 2000))) db → RoundTrip db 2 ['/'] := by
  have hlen : (List.replicate 2000 'a').length = 2000 := List.length_replicate
  have hfit : (pathOf [List.replicate 2000 'a']).length < mysqlBuflen := by
    rw [length_pathOf_singleton, hlen]
    decide
  exact ⟨hfit, not_roundTrip_of_length _ hfit (by rw [hlen]; decide)⟩

end OphidiaWorkflow.Folders
