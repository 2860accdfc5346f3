import Mathlib.Logic.Relation
import OphidiaWorkflow.Server.Folders

/-!
The folders that a session may use: `oph_odb_fs_check_folder_session` climbs from a folder to the root, looking for the
home of the session, which `oph_odb_fs_get_session_home_id` finds.
-/
namespace OphidiaWorkflow.Folders

open Lib

def sessionText : List Char := "SELECT idfolder FROM session WHERE sessionid = \x27".toList
def parentIdText : List Char := "SELECT idparent FROM folder WHERE idfolder = ".toList

/-- `MYSQL_QUERY_FS_RETRIEVE_SESSION_FOLDER_ID` -/
def sessionQuery (sessionid : List Char) : List Char := sessionText ++ (sessionid ++ ['\x27', ';'])

/-- `MYSQL_QUERY_FS_RETRIEVE_PARENT_FOLDER_ID` -/
def parentIdQuery (id : Int) : List Char := parentIdText ++ (decimal id ++ [';'])

/-- The only field of the only row, which both functions ask for; `none` in it is a null field. -/
def onlyField (db : Ophidiadb) (query : List Char) : Except OdbError (Option (List Char)) :=
  if mysqlBuflen ≤ query.length then .error .strBuffOverflow
  else
    match db.query query with
    | none => .error .mysqlError
    | some t =>
      match t.rows with
      | [row] => if t.fieldCount ≠ 1 then .error .tooManyRows else .ok (field row 0)
      | _ => .error .tooManyRows

/-- `oph_odb_fs_get_session_home_id` -/
def getSessionHomeId (db : Ophidiadb) (sessionid : List Char) : Except OdbError Int :=
  if !db.connected then .error .mysqlError
  else
    match onlyField db (sessionQuery sessionid) with
    | .error e => .error e
    | .ok none => .error .undefined
    | .ok (some s) => .ok (readInt s)

/-- The loop of `oph_odb_fs_check_folder_session`: the final `status`. -/
def searchHome (db : Ophidiadb) (home : Int) : Nat → Int → Option (Except OdbError Int)
  | 0, _ => none
  | fuel + 1, id =>
    match onlyField db (parentIdQuery id) with
    | .error e => some (.error e)
    | .ok none => some (.ok 0)
    | .ok (some s) => if readInt s = home then some (.ok 1) else searchHome db home fuel (readInt s)

/-- `oph_odb_fs_check_folder_session`; `none` if the fuel is not enough. -/
def checkFolderSession (db : Ophidiadb) (fuel : Nat) (id : Int) (sessionid : List Char) :
    Option (Except OdbError Int) :=
  if id = 0 then some (.error .nullParam)
  else if !db.connected then some (.error .mysqlError)
  else
    match getSessionHomeId db sessionid with
    | .error .undefined => some (.error .undefined)
    | .error _ => some (.error .mysqlError)
    | .ok home => if home = id then some (.ok 1) else searchHome db home fuel id

/-- A table of folders whose parents lead to a root. The ids are those that the functions can be given. -/
structure FolderTable where
  rows : List Folder
  nodup : (rows.map Folder.idfolder).Nodup
  range : ∀ f ∈ rows, f.idfolder ≠ 0 ∧ toInt32 f.idfolder = f.idfolder
  rooted : ∀ f ∈ rows, ∃ l, Descends rows f.idfolder l

/-- The second folder is the parent of the first one. -/
def Parent (rows : List Folder) (id p : Int) : Prop := ∃ name, ⟨id, some p, name⟩ ∈ rows

/-- The database answers with the rows of the table and with the home of the session. The column of the session
identifiers is a VARCHAR(1024). -/
structure SessionAnswers (T : FolderTable) (sessionid : List Char) (home : Int) (db : Ophidiadb) : Prop where
  connected : db.connected = true
  varchar : sessionid.length ≤ 1024
  session : db.query (sessionQuery sessionid) = some ⟨1, [[some (decimal home)]]⟩
  parent : ∀ id, db.query (parentIdQuery id) =
    some ⟨1, (T.rows.filter fun f => f.idfolder = id).map fun f => [f.idparent.map decimal]⟩

variable {T : FolderTable} {db : Ophidiadb} {f : Folder} {id home : Int} {sessionid s : List Char}
  {l : List (Int × List Char)}

theorem FolderTable.filter_id (T : FolderTable) (hf : f ∈ T.rows) :
    (T.rows.filter fun g => g.idfolder = f.idfolder) = [f] := by
  refine filter_eq_singleton (List.Nodup.of_map _ T.nodup) hf fun g hg => ?_
  rw [decide_eq_true_iff]
  exact ⟨List.inj_on_of_nodup_map T.nodup hg hf, fun h => h ▸ rfl⟩

theorem onlyField_eq {r : Option (List Char)} (hlen : s.length < mysqlBuflen) (h : db.query s = some ⟨1, [[r]]⟩) :
    onlyField db s = .ok r := by
  rw [onlyField, if_neg (Nat.not_le.mpr hlen), h]
  rfl

theorem getSessionHomeId_eq (hdb : SessionAnswers T sessionid home db) (hh : toInt32 home = home) :
    getSessionHomeId db sessionid = .ok home := by
  have hlen : (sessionQuery sessionid).length < mysqlBuflen := by
    have hbase : sessionText.length = 48 := rfl
    have hv := hdb.varchar
    rw [sessionQuery, List.length_append, List.length_append, hbase]
    show 48 + (sessionid.length + 2) < 2048
    omega
  rw [getSessionHomeId, hdb.connected, onlyField_eq hlen hdb.session]
  exact congrArg Except.ok (readInt_decimal hh)

/-- What the loop finds in the row of a folder. -/
theorem onlyField_parent (hdb : SessionAnswers T sessionid home db) (hf : f ∈ T.rows) :
    onlyField db (parentIdQuery f.idfolder) = .ok (f.idparent.map decimal) := by
  have hlen : (parentIdQuery f.idfolder).length < mysqlBuflen := by
    have hbase : parentIdText.length = 45 := rfl
    have hid := length_decimal_int32 (T.range f hf).2
    rw [parentIdQuery, List.length_append, List.length_append, hbase]
    show 45 + ((decimal f.idfolder).length + 1) < 2048
    omega
  refine onlyField_eq hlen ?_
  rw [hdb.parent, T.filter_id hf]
  rfl

theorem FolderTable.parent_iff (hf : f ∈ T.rows) {p : Int} : Parent T.rows f.idfolder p ↔ f.idparent = some p := by
  constructor
  · rintro ⟨name, hm⟩
    have he := List.inj_on_of_nodup_map T.nodup hf hm rfl
    rw [he]
  · rintro hp
    refine ⟨f.foldername, ?_⟩
    rw [← hp]
    exact hf

/-- By induction on the way down to the folder: the loop ends at the root at the latest, and on its way it finds the
home exactly if this is an ancestor. -/
theorem searchHome_of_descends (hdb : SessionAnswers T sessionid home db) (h : Descends T.rows id l) :
    ∃ status, (status = 1 ↔ Relation.TransGen (Parent T.rows) id home) ∧
      ∀ fuel, l.length < fuel → searchHome db home fuel id = some (.ok status) := by
  induction h with
  | @root id name h =>
    have hparent {p : Int} := T.parent_iff h (p := p)
    refine ⟨0, iff_of_false (by decide) fun hup => ?_, fun fuel hfuel => ?_⟩
    · obtain ⟨p, hp, -⟩ := Relation.TransGen.head'_iff.mp hup
      cases hparent.mp hp
    · cases fuel with
      | zero => cases hfuel
      | succ fuel =>
        have hrow := onlyField_parent hdb h
        rw [searchHome]
        dsimp only at hrow
        rw [hrow]
        rfl
  | @child id p name l h hp ih =>
    obtain ⟨g, hg, rfl⟩ := hp.exists_row
    obtain ⟨status, hstatus, hrun⟩ := ih
    have hup : Relation.TransGen (Parent T.rows) id home ↔
        g.idfolder = home ∨ Relation.TransGen (Parent T.rows) g.idfolder home := by
      rw [Relation.TransGen.head'_iff]
      constructor
      · rintro ⟨p, hp, hrest⟩
        cases (T.parent_iff h).mp hp
        exact (Relation.reflTransGen_iff_eq_or_transGen.mp hrest).imp_left Eq.symm
      · intro hrest
        exact ⟨g.idfolder, (T.parent_iff h).mpr rfl,
          Relation.reflTransGen_iff_eq_or_transGen.mpr (hrest.imp_left Eq.symm)⟩
    have hread : readInt (decimal g.idfolder) = g.idfolder := readInt_decimal (T.range g hg).2
    have hround (fuel : Nat) : searchHome db home (fuel + 1) id =
        if g.idfolder = home then some (.ok 1) else searchHome db home fuel g.idfolder := by
      have hrow := onlyField_parent hdb h
      rw [searchHome]
      dsimp only at hrow
      rw [hrow]
      dsimp only [Option.map_some]
      rw [hread]
    by_cases hhome : g.idfolder = home
    · refine ⟨1, iff_of_true rfl (hup.mpr (.inl hhome)), fun fuel hfuel => ?_⟩
      cases fuel with
      | zero => cases hfuel
      | succ fuel => rw [hround, if_pos hhome]
    · refine ⟨status, hstatus.trans (hup.trans (or_iff_right hhome)).symm, fun fuel hfuel => ?_⟩
      rw [List.length_append, List.length_singleton] at hfuel
      cases fuel with
      | zero => cases hfuel
      | succ fuel =>
        rw [hround, if_neg hhome]
        exact hrun fuel (Nat.lt_of_succ_lt_succ hfuel)

/-- The check of a folder ends with success, and finds the home of the session exactly if this is the folder itself or
one of its ancestors. -/
theorem checkFolderSession_iff (hdb : SessionAnswers T sessionid home db) (hh : toInt32 home = home) (hf : f ∈ T.rows) :
    ∃ status n, (∀ fuel, n ≤ fuel → checkFolderSession db fuel f.idfolder sessionid = some (.ok status)) ∧
      (status = 1 ↔ Relation.ReflTransGen (Parent T.rows) f.idfolder home) := by
  have hcheck (fuel : Nat) : checkFolderSession db fuel f.idfolder sessionid =
      if home = f.idfolder then some (.ok 1) else searchHome db home fuel f.idfolder := by
    rw [checkFolderSession, if_neg (T.range f hf).1, hdb.connected, getSessionHomeId_eq hdb hh]
    rfl
  obtain ⟨l, hl⟩ := T.rooted f hf
  obtain ⟨status, hstatus, hrun⟩ := searchHome_of_descends hdb hl
  by_cases hhome : home = f.idfolder
  · refine ⟨1, 0, fun fuel _ => ?_, iff_of_true rfl (hhome ▸ .refl)⟩
    rw [hcheck, if_pos hhome]
  · refine ⟨status, l.length + 1, fun fuel hfuel => ?_, ?_⟩
    · rw [hcheck, if_neg hhome]
      exact hrun fuel hfuel
    · rw [hstatus, Relation.reflTransGen_iff_eq_or_transGen, or_iff_right hhome]

theorem parentIdQuery_inj {id' : Int} (h : parentIdQuery id = parentIdQuery id') : id = id' := by
  unfold parentIdQuery at h
  exact decimal_injective (List.append_cancel_right (List.append_cancel_left h))

theorem parentIdQuery_ne_sessionQuery (id : Int) (sessionid : List Char) :
    parentIdQuery id ≠ sessionQuery sessionid := by
  intro h
  have hchar := congrArg (fun s : List Char => s[9]?) h
  have hp : 9 < parentIdText.length := by decide
  have hs : 9 < sessionText.length := by decide
  dsimp only [parentIdQuery, sessionQuery] at hchar
  rw [List.getElem?_append_left hp, List.getElem?_append_left hs] at hchar
  revert hchar
  decide

/-- A database with the table and one session. -/
def sessionDb (T : FolderTable) (sessionid : List Char) (home : Int) : Ophidiadb where
  connected := true
  query s :=
    if s = sessionQuery sessionid then some ⟨1, [[some (decimal home)]]⟩
    else some ⟨1, (T.rows.filter fun f => parentIdQuery f.idfolder = s).map fun f => [f.idparent.map decimal]⟩

theorem sessionAnswers_sessionDb (T : FolderTable) (hs : sessionid.length ≤ 1024) (home : Int) :
    SessionAnswers T sessionid home (sessionDb T sessionid home) where
  connected := rfl
  varchar := hs
  session := if_pos rfl
  parent id := by
    have hfilter : (T.rows.filter fun f => parentIdQuery f.idfolder = parentIdQuery id) =
        T.rows.filter fun f => f.idfolder = id := by
      refine List.filter_congr fun f _ => decide_eq_decide.mpr ?_
      exact ⟨parentIdQuery_inj, fun h => h ▸ rfl⟩
    unfold sessionDb
    dsimp only
    rw [if_neg (parentIdQuery_ne_sessionQuery id sessionid), hfilter]

/-- The root with the home of a session and a folder in it. -/
def homeRows : List Folder := [⟨1, none, []⟩, ⟨2, some 1, "home".toList⟩, ⟨3, some 2, "data".toList⟩]

theorem descends_homeRows : ∀ f ∈ homeRows, ∃ l, Descends homeRows f.idfolder l := by
  have h1 : Descends homeRows 1 [] := .root List.mem_cons_self
  have h2 : Descends homeRows 2 ([] ++ [(1, "home".toList)]) := .child (List.mem_cons_of_mem _ List.mem_cons_self) h1
  have h3 : Descends homeRows 3 (([] ++ [(1, "home".toList)]) ++ [(2, "data".toList)]) :=
    .child (List.mem_cons_of_mem _ (List.mem_cons_of_mem _ List.mem_cons_self)) h2
  intro f hf
  simp only [homeRows, List.mem_cons, List.not_mem_nil, or_false] at hf
  rcases hf with rfl | rfl | rfl
  · exact ⟨_, h1⟩
  · exact ⟨_, h2⟩
  · exact ⟨_, h3⟩

def homeTable : FolderTable where
  rows := homeRows
  nodup := by decide
  range := by decide
  rooted := descends_homeRows

theorem checkFolderSession_home : ∃ status n,
    (∀ fuel, n ≤ fuel → checkFolderSession (sessionDb homeTable "s".toList 2) fuel 3 "s".toList = some (.ok status)) ∧
      (status = 1 ↔ Relation.ReflTransGen (Parent homeTable.rows) 3 2) :=
  checkFolderSession_iff (f := ⟨3, some 2, "data".toList⟩) (sessionAnswers_sessionDb homeTable (by decide) 2) (by decide)
    (by decide)

end OphidiaWorkflow.Folders
