import Mathlib.Algebra.Order.BigOperators.Group.List
import Mathlib.Algebra.Order.Group.Nat
import OphidiaWorkflow.Flow.References
import OphidiaWorkflow.Response.RoundTrip

/-!
`oph_extract_from_json`: the keys with which a loop selects values in the answer of another task.

A key is `objkey.title.colkey(row,col)`. All but the first part may be left out, and an object may also be named by its
title alone. Rows and columns are counted from 1, `*` stands for all of them and `end` for the last one.
-/
namespace OphidiaWorkflow.Response
open Lib

/-- The parts of a key. -/
structure Selector where
  objkey : List Char
  title : Option (List Char) := none
  colkey : Option (List Char) := none
  row : Option (List Char) := none
  col : Option (List Char) := none

/-- The indexes behind the last part. Without a title nothing is cut off behind the number of the row, not even the
bracket. -/
def readIndexes (titled : Bool) (target : List Char) : Option (List Char × Option (List Char) × Option (List Char)) :=
  match cutAt '(' target with
  | none => some (target, none, none)
  | some (target, rest) =>
    match cutAt ',' rest with
    | some (row, rest) => (cutAt ')' rest).map fun p => (target, some row, some p.1)
    | none => (cutAt ')' rest).map fun p => (target, some (if titled then p.1 else rest), none)

/-- The parts of a key are separated by points; the last one is followed by the indexes. -/
def readSelector (key : List Char) : Option Selector :=
  match tokens '.' key with
  | [objkey] => (readIndexes false objkey).map fun p => { objkey := p.1, row := p.2.1, col := p.2.2 }
  | [objkey, title] =>
    (readIndexes true title).map fun p => { objkey, title := some p.1, row := p.2.1, col := p.2.2 }
  | [objkey, title, colkey] =>
    (readIndexes true colkey).map fun p =>
      { objkey, title := some title, colkey := some p.1, row := p.2.1, col := p.2.2 }
  | _ => none

/-- The titles of the objects that values can be extracted from. -/
def Entry.titles : Entry → Option (List (List Char))
  | ⟨.text, _, os⟩ => some (os.map ObjText.title)
  | ⟨.grid, _, os⟩ => some (os.map ObjGrid.title)
  | _ => none

/-- The loop over the objects of entry `i`: where it ends, and the entry that has an object with the title. It is left
at the second object with the title. -/
def searchObjects (title : List Char) (i : Nat) : Nat → Option Nat → List (List Char) → Nat × Option Nat
  | j, k, [] => (j, k)
  | j, k, t :: ts =>
    if t = title ∧ k.isSome then (j, k) else searchObjects title i (j + 1) (if t = title then some i else k) ts

/-- The loop over the entries, `none` if it is left. The index `j` of the inner loop is looked at behind entries of
the other classes too, which do not set it. -/
def searchEntries (title : List Char) : Nat → Nat → Option Nat → List Entry → Option (Option Nat)
  | _, _, k, [] => some k
  | i, j, k, r :: rs =>
    let (j, k) :=
      match r.titles with
      | some ts => searchObjects title i 0 k ts
      | none => (j, k)
    if j < r.objcontent.length then none else searchEntries title (i + 1) j k rs

/-- The entry that a key is about, with what remains of the key: an entry of that name, or the one with an object of
that title. -/
def Document.lookup (d : Document) (key : Selector) : Option (Entry × Option (List Char) × Option (List Char)) :=
  match d.response.find? fun r => r.objkey = key.objkey with
  | some r => some (r, key.title, key.colkey)
  | none =>
    if key.colkey.isSome then none
    else
      match searchEntries key.objkey 0 0 none d.response with
      | some (some i) => d.response[i]?.map fun r => (r, some key.objkey, key.title)
      | _ => none

/-- The object with the title; without a title there must be one object only. -/
def pickObject {α : Type} (titleOf : α → List Char) (title : Option (List Char)) (os : List α) : Option α :=
  match title, os with
  | some title, os => os.find? fun o => titleOf o = title
  | none, [o] => some o
  | none, _ => none

/-- A row or a column, from 0 on, or all of them. -/
inductive Index
  | all
  | nth (n : Nat)

/-- An index is an `unsigned int`; zero stands for the first element too. -/
def readIndex (num : Nat) : Option (List Char) → Index
  | none => .nth 0
  | some s =>
    if s = "*".toList then .all
    else if s = "end".toList then .nth ((num + (2 ^ 32 - 1)) % 2 ^ 32)
    else .nth ((strtol s % 2 ^ 32).toNat - 1)

def ObjGrid.cell (o : ObjGrid) (i j : Nat) : List Char := (o.values.getD i []).getD j []

/-- The values of a grid that are selected. -/
def ObjGrid.select (o : ObjGrid) : Index → Index → Option (List (List Char))
  | .all, .all => none
  | .all, .nth j =>
    if 0 < o.values.length ∧ j < o.valuesNum2 then some ((List.range o.values.length).map fun i => o.cell i j) else none
  | .nth i, .all =>
    if i < o.values.length ∧ 0 < o.valuesNum2 then some ((List.range o.valuesNum2).map fun j => o.cell i j) else none
  | .nth i, .nth j => if i < o.values.length ∧ j < o.valuesNum2 then some [o.cell i j] else none

/-- A column is named by its key or by its number. -/
def ObjGrid.extract (o : ObjGrid) (colkey row col : Option (List Char)) : Option (List Char) := do
  let col ← match colkey with
    | some c => (o.keys.findIdx? fun key => key = c).map .nth
    | none => some (readIndex o.valuesNum2 col)
  let cells ← o.select (readIndex o.values.length row) col
  some ("|".toList.intercalate cells)

/-- What is selected in an entry; `none` if a null pointer is copied. -/
def Entry.extract : Entry → Option (List Char) → Option (List Char) → Selector → Option (Option (List Char))
  | ⟨.text, _, os⟩, title, _, _ =>
    match pickObject ObjText.title title os with
    | some o => o.message.map some
    | none => some none
  | ⟨.grid, _, os⟩, title, colkey, key =>
    some ((pickObject ObjGrid.title title os).bind fun o => o.extract colkey key.row key.col)
  | _, _, _, _ => some none

/-- `oph_extract_from_json`: the text that replaces the key, if something is found. -/
def extractFromJson [Json.Jansson] (key s : List Char) : Option (Option (List Char)) :=
  match readSelector key with
  | none => some none
  | some key =>
    match fromJsonString s with
    | none => none
    | some (.success, d) =>
      match d.lookup key with
      | some (r, title, colkey) => r.extract title colkey key
      | none => some none
    | some _ => some none

/-! ### The search for a title -/

/-- How many objects of an entry have the title. -/
def Entry.hits (title : List Char) (r : Entry) : Nat := (r.titles.getD []).count title

def hitsOf (title : List Char) (rs : List Entry) : Nat := (rs.map (Entry.hits title)).sum

theorem Entry.hits_le_hitsOf (title : List Char) {r : Entry} {rs : List Entry} (h : r ∈ rs) :
    r.hits title ≤ hitsOf title rs :=
  List.le_sum_of_mem (List.mem_map_of_mem h)

theorem two_hits {title : List Char} {r r' : Entry} {rs : List Entry} (hr : r ∈ rs) (hr' : r' ∈ rs) (hne : r ≠ r')
    (h : 0 < r.hits title) (h' : 0 < r'.hits title) : 1 < hitsOf title rs := by
  induction rs with
  | nil => cases hr
  | cons r₀ rs ih =>
    have hsum : hitsOf title (r₀ :: rs) = r₀.hits title + hitsOf title rs := by simp [hitsOf]
    rw [hsum]
    rcases List.mem_cons.mp hr with rfl | hrs
    · rcases List.mem_cons.mp hr' with rfl | hrs'
      · exact absurd rfl hne
      · have := Entry.hits_le_hitsOf title hrs'
        omega
    · rcases List.mem_cons.mp hr' with rfl | hrs'
      · have := Entry.hits_le_hitsOf title hrs
        omega
      · have := ih hrs hrs'
        omega

/-- An entry that is neither a text nor a grid has no more objects than the last one before it that is, or than `j` if
there is none. -/
def Passed : Nat → List Entry → Prop
  | _, [] => True
  | j, r :: rs => if r.titles.isSome then Passed r.objcontent.length rs else r.objcontent.length ≤ j ∧ Passed j rs

theorem Entry.length_titles {r : Entry} {ts : List (List Char)} (h : r.titles = some ts) :
    ts.length = r.objcontent.length := by
  obtain ⟨c, k, os⟩ := r
  cases c <;> cases h
  · exact List.length_map _
  · exact List.length_map _

section Search

variable {title : List Char} {i j : Nat} {k : Option Nat} {ts : List (List Char)} {rs : List Entry} {r : Entry}

/-- How many objects with the title have been met. -/
def met (k : Option Nat) : Nat := if k.isSome then 1 else 0

/-- The loop over the objects ends behind the last one unless this is the second one with the title. -/
theorem searchObjects_eq (h : met k + ts.count title ≤ 1) :
    searchObjects title i j k ts = (j + ts.length, if title ∈ ts then some i else k) := by
  induction ts generalizing j k with
  | nil => rfl
  | cons t ts ih =>
    rw [searchObjects, List.length_cons]
    by_cases ht : t = title
    · subst ht
      rw [List.count_cons_self] at h
      have hk : k.isSome = false := by
        cases hk : k.isSome with
        | false => rfl
        | true =>
          rw [met, hk, if_pos rfl] at h
          omega
      have hnot : t ∉ ts := List.count_eq_zero.mp (by omega)
      have hmet : met (some i) + ts.count t ≤ 1 := by
        rw [List.count_eq_zero.mpr hnot]
        simp [met]
      rw [if_neg (by simp [hk]), if_pos rfl, ih hmet, if_neg hnot, if_pos List.mem_cons_self]
      congr 1
      omega
    · rw [List.count_cons_of_ne ht] at h
      rw [if_neg fun h => ht h.1, if_neg ht, ih h]
      congr 1
      · omega
      · simp [Ne.symm ht]

theorem searchObjects_left (h : 1 < met k + ts.count title) : (searchObjects title i j k ts).1 < j + ts.length := by
  induction ts generalizing j k with
  | nil =>
    unfold met at h
    split at h <;> simp at h
  | cons t ts ih =>
    rw [searchObjects, List.length_cons]
    split
    · simp only
      omega
    · next hgo =>
      have hmore : 1 < met (if t = title then some i else k) + ts.count title := by
        by_cases ht : t = title
        · have hk : k.isSome = false := by simpa [ht] using hgo
          rw [ht, List.count_cons_self, met, hk] at h
          rw [if_pos ht, met]
          simpa using h
        · rw [List.count_cons_of_ne ht] at h
          rwa [if_neg ht]
      have := @ih (j + 1) _ hmore
      omega

/-- The loop over the entries is not left if there is one object with the title at most and no entry of another class
is met with an index that is too small. -/
theorem searchEntries_eq_some_iff {m : Option Nat} :
    searchEntries title i j k rs = some m ↔
      Passed j rs ∧ met k + hitsOf title rs ≤ 1 ∧
        m = ((rs.findIdx? fun r => 0 < r.hits title).map (· + i)).or k := by
  induction rs generalizing i j k with
  | nil =>
    rw [searchEntries, Option.some.injEq]
    have hk : met k + hitsOf title [] ≤ 1 := by
      unfold met
      split <;> simp [hitsOf]
    simp only [Passed, hk, true_and, List.findIdx?_nil, Option.map_none, Option.none_or]
    exact eq_comm
  | cons r rs ih =>
    have hsum : hitsOf title (r :: rs) = r.hits title + hitsOf title rs := by simp [hitsOf]
    have hshift (f : Option Nat) : (f.map (· + 1)).map (· + i) = f.map (· + (i + 1)) := by
      rw [Option.map_map]
      congr 1
      funext n
      exact (Nat.add_right_comm n 1 i).trans (Nat.add_assoc n i 1)
    rw [searchEntries, Passed, List.findIdx?_cons, hsum]
    cases ht : r.titles with
    | none =>
      have hzero : r.hits title = 0 := by simp [Entry.hits, ht]
      rw [hzero]
      simp only [Option.isSome_none, Bool.false_eq_true, ↓reduceIte, Nat.zero_add, lt_irrefl, decide_false]
      split
      · next hlt => exact iff_of_false (by simp) fun h => absurd h.1.1 (by omega)
      · next hge => rw [ih, hshift, and_iff_right (Nat.not_lt.mp hge)]
    | some ts =>
      have hhits : r.hits title = ts.count title := by simp [Entry.hits, ht]
      have hlen := Entry.length_titles ht
      simp only [Option.isSome_some, ↓reduceIte]
      by_cases hone : met k + ts.count title ≤ 1
      · rw [searchObjects_eq hone]
        simp only
        rw [if_neg (by omega), ih, Nat.zero_add, hlen, hhits, ← Nat.add_assoc]
        by_cases hmem : title ∈ ts
        · have hpos := List.count_pos_iff.mpr hmem
          have hk : k = none := by
            cases k with
            | none => rfl
            | some k =>
              simp only [met, Option.isSome_some, ↓reduceIte] at hone
              omega
          subst hk
          have hcount : ts.count title = 1 := by
            simp only [met, Option.isSome_none, Bool.false_eq_true, ↓reduceIte] at hone
            omega
          rw [if_pos hmem, hcount]
          simp only [zero_lt_one, decide_true, ↓reduceIte, Option.map_some, Nat.zero_add, Option.or_none]
          refine and_congr_right fun _ => and_congr_right fun hle => ?_
          have hnone : (rs.findIdx? fun r => 0 < r.hits title) = none := by
            rw [List.findIdx?_eq_none_iff]
            intro r' hr'
            have hz : hitsOf title rs = 0 := by
              simp only [met, Option.isSome_some, ↓reduceIte] at hle
              omega
            have hle := Entry.hits_le_hitsOf title hr'
            rw [decide_eq_false_iff_not]
            omega
          rw [hnone]
          rfl
        · rw [List.count_eq_zero.mpr hmem, if_neg hmem]
          simp only [lt_irrefl, decide_false, Bool.false_eq_true, ↓reduceIte, Nat.add_zero]
          rw [hshift]
      · have hleft := @searchObjects_left title i 0 k ts (by omega)
        rw [if_pos (by omega)]
        exact iff_of_false (by simp) fun h => absurd h.2.1 (by omega)

/-- Without an entry of that name and without a column, an object is found by its title exactly if it is the only one of
that title and no entry of another class has more objects than the text or the grid before it. -/
theorem lookup_title_iff {d : Document} {key : Selector} {title colkey : Option (List Char)}
    (hname : ∀ r ∈ d.response, r.objkey ≠ key.objkey) (hcol : key.colkey = none) :
    d.lookup key = some (r, title, colkey) ↔
      (title = some key.objkey ∧ colkey = key.title) ∧ r ∈ d.response ∧ 0 < r.hits key.objkey ∧
        hitsOf key.objkey d.response = 1 ∧ Passed 0 d.response := by
  have hfind : (d.response.find? fun r => decide (r.objkey = key.objkey)) = none :=
    List.find?_eq_none.mpr fun r hr => by simpa using hname r hr
  have hentries (m : Option Nat) := @searchEntries_eq_some_iff key.objkey 0 0 none d.response m
  simp only [met, Option.isSome_none, Bool.false_eq_true, ↓reduceIte, Nat.zero_add, Option.or_none] at hentries
  unfold Document.lookup
  rw [hfind, hcol]
  simp only [Option.isSome_none, Bool.false_eq_true, ↓reduceIte]
  constructor
  · intro h
    split at h
    · next i hi =>
      obtain ⟨hpassed, hle, hm⟩ := (hentries _).mp hi
      obtain ⟨r', hr', he⟩ := Option.map_eq_some_iff.mp h
      cases he
      obtain ⟨i', hi', rfl⟩ := Option.map_eq_some_iff.mp hm.symm
      obtain ⟨hlt, hpos, -⟩ := List.findIdx?_eq_some_iff_getElem.mp hi'
      have hget : d.response[i'] = r := by
        rw [Nat.add_zero, List.getElem?_eq_getElem hlt] at hr'
        exact Option.some.inj hr'
      rw [hget, decide_eq_true_eq] at hpos
      have hmem : r ∈ d.response := hget ▸ List.getElem_mem hlt
      have := Entry.hits_le_hitsOf key.objkey hmem
      exact ⟨⟨rfl, rfl⟩, hmem, hpos, by omega, hpassed⟩
    · cases h
  · rintro ⟨⟨rfl, rfl⟩, hmem, hpos, hone, hpassed⟩
    obtain ⟨i, hi⟩ : ∃ i, (d.response.findIdx? fun r => decide (0 < r.hits key.objkey)) = some i := by
      rw [← Option.isSome_iff_exists, List.findIdx?_isSome, List.any_eq_true]
      exact ⟨r, hmem, by simpa using hpos⟩
    rw [(hentries (some i)).mpr ⟨hpassed, hone.le, by rw [hi]; rfl⟩]
    obtain ⟨hlt, hfirst, -⟩ := List.findIdx?_eq_some_iff_getElem.mp hi
    have hget : d.response[i] = r := by
      by_contra hne
      have htwo := two_hits (List.getElem_mem hlt) hmem hne (by simpa using hfirst) hpos
      omega
    dsimp only
    rw [List.getElem?_eq_getElem hlt, hget]
    rfl

end Search

/-- A list of two cubes and a text. -/
def listing : List Call :=
  [.grid "list".toList (some "Cubes".toList) none ["cube".toList, "level".toList] ["string".toList, "int".toList],
    .gridRow "list".toList ["c1".toList, "0".toList],
    .gridRow "list".toList ["c2".toList, "1".toList],
    .text "summary".toList (some "Summary".toList) (some "2 cubes".toList)]

def cubesGrid : ObjGrid where
  title := "Cubes".toList
  description := none
  keys := ["cube".toList, "level".toList]
  fieldtypes := ["string".toList, "int".toList]
  values := [["c1".toList, "0".toList], ["c2".toList, "1".toList]]
  valuesNum2 := 2

def summaryText : Entry where
  objclass := .text
  objkey := "summary".toList
  objcontent := [({ title := "Summary".toList, message := some "2 cubes".toList } : ObjText)]

def listingDocument : Document where
  responseKeyset := ["list".toList, "summary".toList]
  response := [⟨.grid, "list".toList, [cubesGrid]⟩, summaryText]

theorem calls_listing : ({} : Document).calls listing = some listingDocument := rfl

theorem lookup_title_listing :
    listingDocument.lookup { objkey := "Summary".toList } = some (summaryText, some "Summary".toList, none) := by
  refine (@lookup_title_iff _ listingDocument { objkey := "Summary".toList } _ _ ?_ rfl).mpr ⟨⟨rfl, rfl⟩, ?_, ?_, ?_,
    ?_⟩
  · decide
  · exact List.mem_cons_of_mem _ List.mem_cons_self
  · decide
  · decide
  · exact trivial

/-- Behind a tree the text is not found. -/
example : (Document.lookup { listingDocument with response := cubesDocument.response ++ listingDocument.response }
    { objkey := "Summary".toList }).isSome = false := rfl

/-- The first of the answers in which the key is found: the tasks that a loop depends on are gone through in their
order. -/
def extractFromResponses [Json.Jansson] (responses : List (List Char)) (key : List Char) : Option (List Char) :=
  responses.findSome? fun s => (extractFromJson key s).join

/-! ### A loop over the values of a column -/

/-- The key of a column with all its rows. -/
def columnKey (objkey title colkey : List Char) : List Char :=
  objkey ++ '.' :: (title ++ '.' :: (colkey ++ "(*)".toList))

/-- The parts of the key stay apart, and it is not cut. -/
structure Nameable (objkey title colkey : List Char) : Prop where
  objkey_ne_nil : objkey ≠ []
  title_ne_nil : title ≠ []
  points : '.' ∉ objkey ∧ '.' ∉ title ∧ '.' ∉ colkey
  bars : '|' ∉ objkey ∧ '|' ∉ title ∧ '|' ∉ colkey
  bracket : '(' ∉ colkey
  short : (columnKey objkey title colkey).length ≤ maxString

/-- The grid is the first of its title in the entry, and column `j` has the key. -/
structure Document.Column (d : Document) (objkey title colkey : List Char) (o : ObjGrid) (j : Nat) : Prop where
  entry : ∃ os, (⟨.grid, objkey, os⟩ : Entry) ∈ d.response ∧ os.find? (fun o : ObjGrid => o.title = title) = some o
  key : o.keys[j]? = some colkey
  rows : o.values ≠ []

def ObjGrid.column (o : ObjGrid) (j : Nat) : List (List Char) := o.values.map fun row => row.getD j []

section Column

variable {objkey title colkey s v : List Char} {o : ObjGrid} {j : Nat} {d : Document} {cells : List (List Char)}

theorem readSelector_columnKey (h : Nameable objkey title colkey) :
    readSelector (columnKey objkey title colkey) =
      some { objkey, title := some title, colkey := some colkey, row := some "*".toList } := by
  have hlast : '.' ∉ colkey ++ "(*)".toList := by
    rw [List.mem_append, not_or]
    exact ⟨h.points.2.2, by decide⟩
  have htokens : tokens '.' (columnKey objkey title colkey) = [objkey, title, colkey ++ "(*)".toList] := by
    rw [columnKey, tokens_append_cons h.objkey_ne_nil h.points.1, tokens_append_cons h.title_ne_nil h.points.2.1,
      tokens_eq_singleton (List.append_ne_nil_of_right_ne_nil _ (by decide)) hlast]
  have hindexes : readIndexes true (colkey ++ "(*)".toList) = some (colkey, some "*".toList, none) := by
    unfold readIndexes
    rw [show "(*)".toList = '(' :: "*)".toList from rfl, cutAt_append_cons _ h.bracket]
    rfl
  rw [readSelector, htokens]
  simp only [hindexes, Option.map_some]

theorem find?_objkey (hi : d.Inv) {r : Entry} (hr : r ∈ d.response) :
    (d.response.find? fun r' => r'.objkey = r.objkey) = some r := by
  obtain ⟨rs, rs', hsplit⟩ := List.append_of_mem hr
  rw [hsplit, List.find?_append, List.find?_eq_none.mpr, List.find?_cons_of_pos (by simp)]
  · rfl
  · intro r' hr' he
    have hnodup := hi.objkeys
    rw [Document.objkeys, hsplit, List.map_append, List.map_cons] at hnodup
    exact (List.nodup_append.mp hnodup).2.2 _ (List.mem_map_of_mem hr') _ List.mem_cons_self (by simpa using he)

/-- The key selects the cells of the column, from the first row to the last. -/
theorem extractFromJson_column [Json.Jansson] (hi : d.Inv) (hw : d.Whole) (hs : fromJsonString s = some (.success, d))
    (hn : Nameable objkey title colkey) (hc : d.Column objkey title colkey o j) :
    extractFromJson (columnKey objkey title colkey) s = some (some ("|".toList.intercalate (o.column j))) := by
  obtain ⟨os, hr, ho⟩ := hc.entry
  have hmem : o ∈ os := List.mem_of_find?_eq_some ho
  have hoi : ObjGrid.Inv o := (hi.response _ hr).2 o hmem
  have how : ObjGrid.Whole o := hw _ hr o hmem
  obtain ⟨hj, hkey⟩ := List.getElem?_eq_some_iff.mp hc.key
  have hlookup : d.lookup { objkey, title := some title, colkey := some colkey, row := some "*".toList } =
      some (⟨.grid, objkey, os⟩, some title, some colkey) := by
    rw [Document.lookup, find?_objkey hi hr]
  have hindex : o.keys.findIdx? (fun key => key = colkey) = some j := by
    rw [List.findIdx?_eq_some_iff_getElem]
    refine ⟨hj, by simpa using hkey, fun i hij => ?_⟩
    have hne : o.keys[i] ≠ o.keys[j] := fun he => hij.ne (hoi.nodup.getElem_inj_iff.mp he)
    simpa [hkey] using hne
  have hrows : 0 < o.values.length := List.length_pos_iff.mpr hc.rows
  have hcells : (List.range o.values.length).map (fun i => o.cell i j) = o.column j := by
    refine List.ext_getElem (by simp [ObjGrid.column]) fun i h₁ h₂ => ?_
    have hilt : i < o.values.length := by simpa [ObjGrid.column] using h₂
    simp [ObjGrid.column, ObjGrid.cell, hilt]
  have hextract : o.extract (some colkey) (some "*".toList) none = some ("|".toList.intercalate (o.column j)) := by
    unfold ObjGrid.extract
    simp only [hindex, Option.map_some]
    show (o.select .all (.nth j)).bind _ = _
    rw [ObjGrid.select, if_pos ⟨hrows, how.2 ▸ hj⟩, hcells]
    rfl
  unfold extractFromJson
  simp only [readSelector_columnKey hn, hs, hlookup]
  show some ((os.find? _).bind _) = _
  rw [ho]
  exact congrArg some hextract

theorem isChain_cons_of {x : Char} (hx : ∀ y ∈ v.head?, x ≠ '|' ∨ y ≠ '|')
    (h : v.IsChain fun a b => a ≠ '|' ∨ b ≠ '|') :
    (x :: v).IsChain fun a b => a ≠ '|' ∨ b ≠ '|' := by
  cases v with
  | nil => exact .singleton _
  | cons y v => exact .cons_cons (hx y rfl) h

theorem isChain_append {c : List Char} (hc : '|' ∉ c) (h : v.IsChain fun a b => a ≠ '|' ∨ b ≠ '|') :
    (c ++ v).IsChain fun a b => a ≠ '|' ∨ b ≠ '|' := by
  induction c with
  | nil => exact h
  | cons x c ih =>
    obtain ⟨hx, hc⟩ := not_or.mp (List.mem_cons.not.mp hc)
    exact isChain_cons_of (fun _ _ => .inl (Ne.symm hx)) (ih hc)

/-- Cells that are values of a loop: not empty, without a separator, and not cut. -/
def Plain (cells : List (List Char)) : Prop := ∀ c ∈ cells, (c ≠ [] ∧ '|' ∉ c) ∧ c.length ≤ maxString

theorem tokens_intercalate (h : Plain cells) : tokens '|' ("|".toList.intercalate cells) = cells := by
  induction cells with
  | nil => rfl
  | cons c cells ih =>
    obtain ⟨⟨⟨hne, hc⟩, -⟩, h⟩ := List.forall_mem_cons.mp h
    cases cells with
    | nil => rw [List.intercalate_singleton, tokens_eq_singleton hne hc]
    | cons c' cells =>
      rw [List.intercalate_cons_cons]
      exact (congrArg (tokens '|') (List.append_assoc _ _ _)).trans
        ((tokens_append_cons hne hc _).trans (congrArg _ (ih h)))

theorem separated_intercalate (h : Plain cells) : Values.Separated ("|".toList.intercalate cells) := by
  induction cells with
  | nil => exact .singleton _
  | cons c cells ih =>
    obtain ⟨⟨⟨hne, hc⟩, -⟩, hcells⟩ := List.forall_mem_cons.mp h
    obtain ⟨x, c, rfl⟩ := List.exists_cons_of_ne_nil hne
    have hx : x ≠ '|' := fun hx => hc (hx ▸ List.mem_cons_self)
    have hstart {v : List Char} (hv : v.IsChain fun a b => a ≠ '|' ∨ b ≠ '|') : Values.Separated (x :: c ++ v) :=
      isChain_cons_of (fun y hy => .inr (by cases hy; exact hx)) (isChain_append hc hv)
    cases cells with
    | nil =>
      rw [List.intercalate_singleton, ← List.append_nil (x :: c)]
      exact hstart .nil
    | cons c' cells =>
      rw [List.intercalate_cons_cons, List.append_assoc]
      exact hstart (ih hcells)

theorem mem_intercalate {c c' : List Char} : '|' ∈ "|".toList.intercalate (c :: c' :: cells) := by
  rw [List.intercalate_cons_cons, List.append_assoc]
  exact List.mem_append_right _ List.mem_cons_self

/-- A loop over one key goes over the values that are found for it, if none of them is a key again. -/
theorem checkInputResponse_key {extract : List Char → Option (List Char)} {key : List Char}
    (hkey : key ≠ [] ∧ '|' ∉ key)
    (hshort : key.length ≤ maxString) (hne : cells ≠ []) (hcells : Plain cells)
    (hfound : extract key = some ("|".toList.intercalate cells)) (hsettled : ∀ c ∈ cells, extract c = none)
    (fuel : Nat) :
    Values.checkInputResponse extract id (fuel + 2) key = some (.values cells) := by
  have htokens : tokens '|' key = [key] := tokens_eq_singleton hkey.1 hkey.2
  rw [Values.checkInputResponse, if_neg hkey.1, Values.expandValues, htokens]
  obtain ⟨c, cells, rfl⟩ := List.exists_cons_of_ne_nil hne
  cases cells with
  | nil =>
    rw [List.intercalate_singleton] at hfound
    obtain ⟨⟨⟨-, hc⟩, -⟩, -⟩ := List.forall_mem_cons.mp hcells
    have hscan : Values.scanValues extract key.length [] [key] = .values [c] := by
      rw [Values.scanValues, List.take_of_length_le hshort, hfound]
      exact if_pos hc
    have hcount : ¬ (tokens '|' key).length < Values.countItems key := by
      have hsep : Values.Separated key := by
        obtain ⟨x, key, rfl⟩ := List.exists_cons_of_ne_nil hkey.1
        have hx : x ≠ '|' := fun hx => hkey.2 (hx ▸ List.mem_cons_self)
        have hchain := isChain_append hkey.2 .nil
        rw [List.append_nil] at hchain
        exact isChain_cons_of (fun y hy => .inr (by cases hy; exact hx)) hchain
      rw [Values.length_tokens_lt_iff hkey.1, not_not]
      exact hsep
    rw [hscan]
    rw [htokens] at hcount
    exact congrArg some (if_neg hcount)
  | cons c' cells =>
    have hbar : '|' ∈ "|".toList.intercalate (c :: c' :: cells) := mem_intercalate
    have hfits (v : List Char) : Values.fitsInto (1 + key.length + v.length) [] v = true := by
      have hroom : 0 + v.length + 1 ≤ 1 + key.length + v.length := by omega
      exact decide_eq_true hroom
    rw [Values.scanValues_list hshort hfound hbar, if_pos ⟨rfl, hfits _⟩]
    show Values.expandValues _ _ _ (fuel + 1) ("|".toList.intercalate (c :: c' :: cells)) = _
    have hscan : Values.scanValues extract key.length [] (c :: c' :: cells) = .values (c :: c' :: cells) := by
      have htake : (c :: c' :: cells).map (List.take maxString) = c :: c' :: cells :=
        (List.map_congr_left fun x hx => List.take_of_length_le (hcells x hx).2).trans (List.map_id _)
      rw [Values.scanValues_of_no_reference fun x hx => by
        rw [List.take_of_length_le (hcells x hx).2]
        exact hsettled x hx, htake]
      rfl
    have hcount := (Values.length_tokens_lt_iff (List.ne_nil_of_mem hbar)).not.mpr
      (not_not.mpr (separated_intercalate hcells))
    rw [tokens_intercalate hcells] at hcount
    rw [Values.expandValues, tokens_intercalate hcells, hscan]
    show some (if _ then _ else Values.Checked.values (List.map id _)) = _
    rw [if_neg hcount, List.map_id]

/--
A loop over the key of a column goes over its cells, from the first row to the last, once another task has built the
document and written it, and no task before that one knows the key.
-/
theorem loop_over_column [Json.Jansson] {cs : List Call} {before after : List (List Char)} (h : ({} : Document).calls cs = some d)
    (hnull : ∀ t ∈ d.texts, '\x00' ∉ t) (hs : d.toJsonString = .ok s) (hn : Nameable objkey title colkey)
    (hc : d.Column objkey title colkey o j) (hcells : Plain (o.column j))
    (hbefore : ∀ s' ∈ before, extractFromJson (columnKey objkey title colkey) s' = some none)
    (hsettled : ∀ s' ∈ before ++ s :: after, ∀ c ∈ o.column j, extractFromJson c s' = some none) (fuel : Nat) :
    Values.checkInputResponse (extractFromResponses (before ++ s :: after)) id (fuel + 2)
      (columnKey objkey title colkey) = some (.values (o.column j)) := by
  have hi := inv_calls inv_empty h
  obtain ⟨⟨hw, hv⟩, rfl⟩ := (toJsonString_eq_ok hi).mp hs
  have hread := fromJsonString_dumps hi hw fun t ht => isText_iff.mpr ⟨hv t ht, hnull t ht⟩
  have hkey : columnKey objkey title colkey ≠ [] ∧ '|' ∉ columnKey objkey title colkey := by
    refine ⟨List.append_ne_nil_of_right_ne_nil _ (List.cons_ne_nil _ _), ?_⟩
    simp [columnKey, hn.bars]
  refine checkInputResponse_key hkey hn.short ?_ hcells ?_ ?_ fuel
  · exact mt List.map_eq_nil_iff.mp hc.rows
  · have hnone : before.findSome? (fun s => (extractFromJson (columnKey objkey title colkey) s).join) = none :=
      List.findSome?_eq_none_iff.mpr fun s' hs' => by rw [hbefore s' hs']; rfl
    rw [extractFromResponses, List.findSome?_append, hnone, Option.none_or, List.findSome?_cons,
      extractFromJson_column hi hw hread hn hc]
    rfl
  · intro c hcell
    exact List.findSome?_eq_none_iff.mpr fun s' hs' => by rw [hsettled s' hs' c hcell]; rfl

theorem loop_over_cubes :
    ∃ s, listingDocument.toJsonString = .ok s ∧
      Values.checkInputResponse (extractFromResponses [s]) id 2 "list.Cubes.cube(*)".toList =
        some (.values ["c1".toList, "c2".toList]) := by
  have hi := inv_calls inv_empty calls_listing
  have hs : listingDocument.toJsonString = .ok (Json.dumps listingDocument.json) := rfl
  have hread := fromJsonString_dumps hi ((toJsonString_eq_ok hi).mp hs).1.1 (by decide)
  have hsettled : ∀ c ∈ cubesGrid.column 0, extractFromJson c (Json.dumps listingDocument.json) = some none := by
    intro c hc
    have hc : c = "c1".toList ∨ c = "c2".toList := by simpa [cubesGrid, ObjGrid.column] using hc
    rcases hc with rfl | rfl
    · unfold extractFromJson
      rw [hread]
      rfl
    · unfold extractFromJson
      rw [hread]
      rfl
  have hn : Nameable "list".toList "Cubes".toList "cube".toList :=
    { objkey_ne_nil := by decide, title_ne_nil := by decide, points := by decide, bars := by decide,
      bracket := by decide, short := by decide }
  have hc : listingDocument.Column "list".toList "Cubes".toList "cube".toList cubesGrid 0 :=
    { entry := ⟨[cubesGrid], List.mem_cons_self, rfl⟩, key := rfl, rows := by decide }
  exact ⟨_, hs, loop_over_column calls_listing (by decide) hs hn hc (by unfold Plain; decide)
    (List.forall_mem_nil _) (fun s' hs' => List.mem_singleton.mp hs' ▸ hsettled) 0⟩

end Column

end OphidiaWorkflow.Response
