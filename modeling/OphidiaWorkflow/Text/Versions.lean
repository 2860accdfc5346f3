import Mathlib.Data.List.MinMax
import OphidiaWorkflow.Flow.Values
import OphidiaWorkflow.Lib.Occurrence
import OphidiaWorkflow.Lib.Padded

/-!
`oph_tp_retrieve_function_xml_file`: the XML description of an operator, in a folder with one file for each version.

Without a version, the folder is read twice: to find the width of the fields of the versions, and to write the versions
with fields of that width. The first reading stops at the first description, and the second one with it.
-/
namespace OphidiaWorkflow.XmlFile

open Lib
open Values (sameKey)

/-- `OPH_TP_BUFLEN` -/
def buflen : Nat := 4096

/-- A `dirent`; `regular` if `lstat` finds a regular file or a symbolic link. -/
structure Dirent where
  name : List Char
  regular : Bool
  fits : name.length ≤ 255

/-- `OPH_TP_TASK_SYSTEM_ERROR`, or a null pointer given to `strlen`. -/
inductive Failure
  | systemError
  | undefined
  deriving DecidableEq, Repr

/-- `strcasestr` -/
def strcasestr (haystack needle : List Char) : Bool :=
  (occurrence (needle.map Char.toLower) (haystack.map Char.toLower)).isSome

/-- `strncasecmp` -/
def strncasecmp (n : Nat) (a b : List Char) : Bool := sameKey (a.take n) (b.take n)

/-- `<function_name>_operator_` -/
def stemOf (functionName : List Char) : List Char := functionName ++ "_operator_".toList

/-- The same, printed into `xml_filename`. -/
def pattern (functionName : List Char) : List Char := (stemOf functionName).take (buflen - 1)

/-- What both readings make of an entry. -/
inductive Examined
  | other
  | failed (e : Failure)
  | candidate (fields : List (List Char)) (extension : List Char)
  deriving DecidableEq, Repr

/-- The tests on an entry. The fields of a version end with a `.`, the last one with the `.` of the extension. -/
def examine (pattern : List Char) (ent : Dirent) : Examined :=
  if ent.regular = false ∨ strcasestr ent.name pattern = false then .other
  else if '_' ∉ ent.name ∨ '.' ∉ ent.name then .failed .systemError
  else if sameKey pattern (cutLast '_' ent.name).1 = false then .other
  else
    match ((cutLast '_' ent.name).2.splitOn '.').dropLast with
    -- `ptr3` is null if the only `.` of the name stand before its last `_`.
    | [] => .failed .undefined
    | fields => .candidate fields (cutLast '.' ent.name).2

/-- The two tests on the extension. -/
def isXml (extension : List Char) : Bool :=
  strncasecmp 3 extension "xml".toList && strncasecmp extension.length extension "xml".toList

/-- The variables of the first reading. -/
structure Widths where
  maxlen : Nat := 0
  maxversionlen : Nat := 0
  count : Nat := 0
  deriving DecidableEq, Repr

def Widths.add (w : Widths) (fields : List (List Char)) : Widths :=
  ⟨fields.foldl (fun m f => max m f.length) w.maxlen, max w.maxversionlen fields.length, w.count + 1⟩

/-- The first reading. -/
def measure (pattern : List Char) (w : Widths) : List Dirent → Except Failure Widths
  | [] => .error .systemError
  | ent :: rest =>
    match examine pattern ent with
    | .other => measure pattern w rest
    | .failed e => .error e
    | .candidate fields extension =>
      -- `break`: the entries that follow are not counted
      if isXml extension then .ok (w.add fields) else measure pattern (w.add fields) rest

/-- The value of a field, printed with `%0<maxlen>d` into `maxlen` characters. -/
def printField (maxlen : Nat) (value : Int) : List Char := (zeroPadded maxlen value).take maxlen

/-- The fields of a version; those that are missing are `0`. -/
def printVersion (maxlen : Nat) : Nat → List (List Char) → List Char
  | 0, _ => []
  | n + 1, [] => printField maxlen 0 ++ printVersion maxlen n []
  | n + 1, field :: fields => printField maxlen (readInt field) ++ printVersion maxlen n fields

def Widths.print (w : Widths) (fields : List (List Char)) : List Char := printVersion w.maxlen w.maxversionlen fields

/-- The second reading: the versions, each with the name of its file. -/
def collect (pattern : List Char) (w : Widths) (versions : List (List Char × List Char)) :
    List Dirent → Except Failure (List (List Char × List Char))
  | [] => .ok versions
  | ent :: rest =>
    match examine pattern ent with
    | .other => collect pattern w versions rest
    | .failed e => .error e
    | .candidate fields _ =>
      if versions.length + 1 = w.count then .ok (versions ++ [(w.print fields, ent.name)])
      else collect pattern w (versions ++ [(w.print fields, ent.name)]) rest

/-- `oph_tp_retrieve_function_xml_file` on the entries of the folder, `none` if it cannot be opened. The latest version
is the first of those that `strcmp` finds the greatest. -/
def retrieveFunctionXmlFile (functionName : List Char) (functionVersion : Option (List Char))
    (folder : Option (List Dirent)) : Except Failure (List Char) :=
  match folder with
  | none => .error .systemError
  | some entries =>
    match functionVersion with
    | none =>
      (measure (pattern functionName) {} entries).bind fun w =>
        (collect (pattern functionName) w [] entries).bind fun versions =>
          ((versions.argmax Prod.fst).elim (.error .undefined) fun version => .ok version.2)
    | some version =>
      let filename := (stemOf functionName ++ version ++ ".xml".toList).take (buflen - 1)
      (entries.find? fun ent => ent.regular && sameKey filename ent.name).elim (.error .systemError) fun ent =>
        .ok ent.name

/-- The name of the file of a version of the operator, whatever the case of the operator. -/
def Named (functionName name version extension : List Char) : Prop :=
  ∃ stem, name = stem ++ (version ++ '.' :: extension) ∧ sameKey (stemOf functionName) stem = true ∧
    '_' ∉ version ∧ '_' ∉ extension ∧ '.' ∉ extension

/-- An XML description file of the operator. -/
def Describes (functionName : List Char) (ent : Dirent) (version : List Char) : Prop :=
  ent.regular = true ∧ ∃ extension, Named functionName ent.name version extension ∧
    sameKey extension "xml".toList = true

/-- The components of a version. -/
def components (version : List Char) : List Int := (version.splitOn '.').map leadingNumber

/-- The answer is a description of the operator of the highest version. -/
def ReturnsHighest (functionName : List Char) (entries : List Dirent) : Prop :=
  ∃ ent ∈ entries, ∃ version, Describes functionName ent version ∧
    retrieveFunctionXmlFile functionName none (some entries) = .ok ent.name ∧
    ∀ other ∈ entries, ∀ v, Describes functionName other v → ¬ Below (components version) (components v)

section Entries

variable {functionName version extension name : List Char} {fields : List (List Char)} {ent : Dirent} {p : List Char}

theorem length_eq_of_sameKey {a b : List Char} (h : sameKey a b = true) : a.length = b.length := by
  have hmap := congrArg List.length (of_decide_eq_true h)
  rwa [List.length_map, List.length_map] at hmap

theorem isXml_iff {extension : List Char} : isXml extension = true ↔ sameKey extension "xml".toList = true := by
  have hwhole (n : Nat) (hn : extension.length ≤ n) (hthree : 3 ≤ n) :
      strncasecmp n extension "xml".toList = sameKey extension "xml".toList := by
    rw [strncasecmp, List.take_of_length_le hn, List.take_of_length_le (l := "xml".toList) hthree]
  rw [isXml, Bool.and_eq_true]
  constructor
  · rintro ⟨hstart, h⟩
    have hlen := length_eq_of_sameKey hstart
    rw [List.length_take, List.length_take] at hlen
    have hthree : 3 ≤ extension.length := min_eq_left_iff.mp hlen
    rwa [hwhole _ le_rfl hthree] at h
  · intro h
    have hlen : extension.length = 3 := length_eq_of_sameKey h
    rw [hlen, hwhole 3 hlen.le le_rfl]
    exact ⟨h, h⟩

theorem dropLast_splitOn {s t : List Char} (ht : '.' ∉ t) : ((s ++ '.' :: t).splitOn '.').dropLast = s.splitOn '.' := by
  rw [List.splitOn_append_cons_self, List.splitOn_eq_singleton ht, List.dropLast_concat]

theorem eq_underscore_of_toLower {c : Char} (h : c.toLower = '_') : c = '_' := by
  by_cases hupper : c.val ≥ 'A'.val ∧ c.val ≤ 'Z'.val
  · have hval : c.val + 32 = 95 := by
      have heq : c.toLower.val = c.val + 32 := congrArg Char.val (dif_pos hupper)
      rw [← heq, h]
      rfl
    have hc : c.val = 95 - 32 := by rw [← UInt32.add_sub_cancel c.val 32, hval]
    rw [hc] at hupper
    exact absurd hupper (by decide)
  · rwa [show c.toLower = c from dif_neg hupper] at h

theorem exists_of_sameKey {s t : List Char} (h : sameKey (s ++ ['_']) t = true) : ∃ b, t = b ++ ['_'] := by
  have hmap : t.map Char.toLower = s.map Char.toLower ++ ['_'] := by
    rw [← of_decide_eq_true h, List.map_append]
    rfl
  obtain ⟨b, l, rfl, -, hl⟩ := List.map_eq_append_iff.mp hmap
  obtain ⟨c, rfl, hc⟩ := List.map_eq_singleton_iff.mp hl
  exact ⟨b, by rw [eq_underscore_of_toLower hc]⟩

theorem pattern_eq (hfits : (stemOf functionName).length ≤ 255) : pattern functionName = stemOf functionName :=
  List.take_of_length_le (hfits.trans (by decide))

theorem fits_of_sameKey {stem : List Char} (hkey : sameKey (pattern functionName) stem = true)
    (hfits : stem.length ≤ 255) : (stemOf functionName).length ≤ 255 := by
  have hlen := length_eq_of_sameKey hkey
  rw [pattern, List.length_take] at hlen
  unfold buflen at hlen
  omega

/-- The candidates are the regular files with the name of a version, whatever the extension. -/
theorem examine_eq_candidate_iff : examine (pattern functionName) ent = .candidate fields extension ↔
    ent.regular = true ∧ ∃ version, Named functionName ent.name version extension ∧ fields = version.splitOn '.' := by
  constructor
  · intro h
    unfold examine at h
    split at h
    case isTrue => cases h
    case isFalse hfile =>
      rw [not_or, Bool.not_eq_false, Bool.not_eq_false] at hfile
      split at h
      case isTrue => cases h
      case isFalse hmem =>
        rw [not_or, not_not, not_not] at hmem
        obtain ⟨b, a, hname, ha, hcut⟩ := exists_cutLast hmem.1
        rw [hcut] at h
        split at h
        case isTrue => cases h
        case isFalse hkey =>
          rw [Bool.not_eq_false] at hkey
          split at h
          case h_1 => cases h
          case h_2 hne =>
            obtain ⟨rfl, rfl⟩ := Examined.candidate.inj h
            have hdot : '.' ∈ a := by
              by_contra hn
              exact hne (by rw [List.splitOn_eq_singleton hn]; rfl)
            obtain ⟨version, extension, rfl, hext, -⟩ := exists_cutLast hdot
            have hfits : (b ++ ['_']).length ≤ 255 := by
              have h255 := ent.fits
              rw [hname, List.length_append, List.length_cons] at h255
              rw [List.length_append, List.length_singleton]
              omega
            rw [pattern_eq (fits_of_sameKey hkey hfits)] at hkey
            have hlast : (cutLast '.' ent.name).2 = extension := by
              rw [hname, ← List.cons_append, ← List.append_assoc, cutLast_append_cons _ hext]
            obtain ⟨hversion, hunder⟩ := not_or.mp fun hm => ha (List.mem_append.mpr hm)
            refine ⟨hfile.1, version, ⟨b ++ ['_'], ?_, hkey, hversion, ?_, ?_⟩, dropLast_splitOn hext⟩
            · rw [hlast, hname, List.append_assoc, List.singleton_append]
            · rw [hlast]
              exact fun hm => hunder (List.mem_cons_of_mem _ hm)
            · rwa [hlast]
  · rintro ⟨hregular, version, ⟨stem, hname, hkey, hversion, hunder, hdot⟩, rfl⟩
    -- the last `_` of the name is the one that ends the stem
    obtain ⟨b, rfl⟩ : ∃ b, stem = b ++ ['_'] :=
      exists_of_sameKey (s := functionName ++ "_operator".toList) (by rw [List.append_assoc]; exact hkey)
    have hpattern : pattern functionName = stemOf functionName := by
      refine pattern_eq ?_
      rw [length_eq_of_sameKey hkey]
      have h255 := ent.fits
      rw [hname, List.length_append] at h255
      omega
    have hcontains : strcasestr ent.name (stemOf functionName) = true := by
      have hinfix : (stemOf functionName).map Char.toLower <:+: ent.name.map Char.toLower := by
        rw [of_decide_eq_true hkey, hname]
        exact ((List.prefix_append _ _).map Char.toLower).isInfix
      obtain ⟨r, hr, -⟩ := exists_occurrence hinfix
      rw [strcasestr, hr]
      rfl
    have hname' : ent.name = b ++ '_' :: (version ++ '.' :: extension) := by
      rw [hname, List.append_assoc, List.singleton_append]
    have hafter : '_' ∉ version ++ '.' :: extension := by
      rw [List.mem_append, List.mem_cons, not_or, not_or]
      exact ⟨hversion, by decide, hunder⟩
    have hlast : (cutLast '.' ent.name).2 = extension := by
      rw [hname, ← List.append_assoc, cutLast_append_cons _ hdot]
    have hmem : '_' ∈ ent.name ∧ '.' ∈ ent.name := by
      rw [hname']
      simp
    unfold examine
    rw [hpattern, hregular, hcontains, hlast, if_neg (by simp),
      if_neg (by rw [not_or, not_not, not_not]; exact hmem), hname', cutLast_append_cons b hafter, hkey,
      if_neg (by simp), dropLast_splitOn hdot]
    split
    · next hnil => exact absurd hnil (List.splitOn_ne_nil _ _)
    · rfl

end Entries

section Latest

variable {α β : Type*} [LinearOrder β] [DecidableLT β] {f : α → β} {l : List α} {a : α}

theorem argmax_concat_of_forall_lt (h : ∀ b ∈ l, f b < f a) : (l ++ [a]).argmax f = some a := by
  rw [List.argmax_concat]
  cases hl : l.argmax f with
  | none => rfl
  | some c => exact if_pos (h c (List.argmax_mem hl))

theorem exists_argmax_concat {b : α} (hb : b ∈ l) (hle : f a ≤ f b) : ∃ c ∈ l, (l ++ [a]).argmax f = some c := by
  rw [List.argmax_concat]
  cases hl : l.argmax f with
  | none =>
    rw [List.argmax_eq_none.mp hl] at hb
    cases hb
  | some c =>
    have hbc : f b ≤ f c := le_of_not_gt (List.not_lt_of_mem_argmax hb hl)
    exact ⟨c, List.argmax_mem hl, if_neg (not_lt_of_ge (hle.trans hbc))⟩

end Latest

section Readings

variable {p : List Char} {w w' : Widths} {ent : Dirent} {before after : List Dirent} {fields : List (List Char)}
  {extension : List Char}

/-- Both readings go on after the entry. -/
def Passed (p : List Char) (ent : Dirent) : Prop :=
  (∀ e, examine p ent ≠ .failed e) ∧
    ∀ fields extension, examine p ent = .candidate fields extension → isXml extension = false

theorem passed_of_other (h : examine p ent = .other) : Passed p ent := by
  constructor
  · intro e he
    cases h.symm.trans he
  · intro fields extension he
    cases h.symm.trans he

theorem passed_of_candidate (h : examine p ent = .candidate fields extension) (hxml : isXml extension = false) :
    Passed p ent := by
  constructor
  · intro e he
    cases h.symm.trans he
  · intro fields extension he
    cases h.symm.trans he
    exact hxml

/-- What the first reading keeps of an entry that it passes. -/
def widen (p : List Char) (w : Widths) (ent : Dirent) : Widths :=
  match examine p ent with
  | .candidate fields _ => w.add fields
  | _ => w

/-- What the second reading keeps of an entry. -/
def versionOf (p : List Char) (w : Widths) (ent : Dirent) : Option (List Char × List Char) :=
  match examine p ent with
  | .candidate fields _ => some (w.print fields, ent.name)
  | _ => none

theorem versionOf_eq_some_iff {v : List Char × List Char} : versionOf p w ent = some v ↔
    ∃ fields extension, examine p ent = .candidate fields extension ∧ v = (w.print fields, ent.name) := by
  unfold versionOf
  cases examine p ent with
  | other => simp
  | failed e => simp
  | candidate fields extension => simp [eq_comm]

theorem measure_append (h : ∀ e ∈ before, Passed p e) (rest : List Dirent) :
    measure p w (before ++ rest) = measure p (before.foldl (widen p) w) rest := by
  induction before generalizing w with
  | nil => rfl
  | cons ent before ih =>
    obtain ⟨hent, hbefore⟩ := List.forall_mem_cons.mp h
    rw [List.cons_append, List.foldl_cons, measure, widen, ← ih hbefore]
    cases hexam : examine p ent with
    | other => rfl
    | failed e => exact absurd hexam (hent.1 e)
    | candidate fields extension => simp [hent.2 _ _ hexam]

theorem exists_of_measure {entries : List Dirent} (h : measure p w entries = .ok w') :
    ∃ before ent after fields extension, entries = before ++ ent :: after ∧ (∀ e ∈ before, Passed p e) ∧
      examine p ent = .candidate fields extension ∧ isXml extension = true := by
  induction entries generalizing w with
  | nil => cases h
  | cons ent rest ih =>
    rw [measure] at h
    have hcons {w₁ : Widths} (hent : Passed p ent) (h : measure p w₁ rest = .ok w') :
        ∃ before e after fields extension, ent :: rest = before ++ e :: after ∧ (∀ e ∈ before, Passed p e) ∧
          examine p e = .candidate fields extension ∧ isXml extension = true := by
      obtain ⟨before, e, after, fields, extension, rfl, hbefore, hrest⟩ := ih h
      exact ⟨ent :: before, e, after, fields, extension, rfl, List.forall_mem_cons.mpr ⟨hent, hbefore⟩, hrest⟩
    cases hexam : examine p ent with
    | other =>
      rw [hexam] at h
      exact hcons (passed_of_other hexam) h
    | failed e =>
      rw [hexam] at h
      cases h
    | candidate fields extension =>
      rw [hexam] at h
      dsimp only at h
      split at h
      case isTrue hxml => exact ⟨[], ent, rest, fields, extension, rfl, List.forall_mem_nil _, hexam, hxml⟩
      case isFalse hxml => exact hcons (passed_of_candidate hexam (Bool.not_eq_true _ ▸ hxml)) h

theorem count_foldl_widen (before : List Dirent) (w w' : Widths) :
    (before.foldl (widen p) w).count = w.count + (before.filterMap (versionOf p w')).length := by
  induction before generalizing w with
  | nil => rfl
  | cons ent before ih =>
    rw [List.foldl_cons, ih, List.filterMap_cons, widen, versionOf]
    cases examine p ent with
    | other => rfl
    | failed e => rfl
    | candidate fields extension =>
      simp only [Widths.add, List.length_cons]
      omega

theorem collect_append (h : ∀ e ∈ before, Passed p e) {versions : List (List Char × List Char)}
    (hcount : versions.length + (before.filterMap (versionOf p w)).length < w.count) (rest : List Dirent) :
    collect p w versions (before ++ rest) = collect p w (versions ++ before.filterMap (versionOf p w)) rest := by
  induction before generalizing versions with
  | nil => rw [List.filterMap_nil, List.append_nil, List.nil_append]
  | cons ent before ih =>
    obtain ⟨hent, hbefore⟩ := List.forall_mem_cons.mp h
    rw [List.cons_append, collect]
    cases hexam : examine p ent with
    | other =>
      have hnone : versionOf p w ent = none := by rw [versionOf, hexam]
      rw [List.filterMap_cons_none hnone] at hcount ⊢
      exact ih hbefore hcount
    | failed e => exact absurd hexam (hent.1 e)
    | candidate fields extension =>
      have hsome : versionOf p w ent = some (w.print fields, ent.name) := by rw [versionOf, hexam]
      rw [List.filterMap_cons_some hsome, List.length_cons] at hcount
      have hlength : (versions ++ [(w.print fields, ent.name)]).length = versions.length + 1 := List.length_append
      rw [List.filterMap_cons_some hsome, List.append_cons, ← ih hbefore (by omega)]
      exact if_neg (by omega)

end Readings

section Printed

variable {w : Widths} {fields fields' : List (List Char)}

/-- The widths are enough for the fields of a version. -/
def Covers (w : Widths) (fields : List (List Char)) : Prop :=
  fields.length ≤ w.maxversionlen ∧ ∀ f ∈ fields, f.length ≤ w.maxlen

/-- The fields of a version are numbers that an `int` holds. -/
def Plain (fields : List (List Char)) : Prop := ∀ f ∈ fields, 0 ≤ leadingNumber f ∧ leadingNumber f < 2 ^ 31

theorem le_foldl_max (fields : List (List Char)) (m : Nat) :
    m ≤ fields.foldl (fun m f => max m f.length) m ∧
      ∀ f ∈ fields, f.length ≤ fields.foldl (fun m f => max m f.length) m := by
  induction fields generalizing m with
  | nil => exact ⟨le_rfl, List.forall_mem_nil _⟩
  | cons f fields ih =>
    obtain ⟨hle, hall⟩ := ih (max m f.length)
    rw [List.foldl_cons]
    exact ⟨(le_max_left _ _).trans hle, List.forall_mem_cons.mpr ⟨(le_max_right _ _).trans hle, hall⟩⟩

theorem covers_add (w : Widths) (fields : List (List Char)) : Covers (w.add fields) fields :=
  ⟨le_max_right _ _, (le_foldl_max fields w.maxlen).2⟩

theorem Covers.add (h : Covers w fields) (fields' : List (List Char)) : Covers (w.add fields') fields :=
  ⟨h.1.trans (le_max_left _ _), fun f hf => (h.2 f hf).trans (le_foldl_max fields' w.maxlen).1⟩

theorem Covers.foldl_widen (h : Covers w fields) (p : List Char) (before : List Dirent) :
    Covers (before.foldl (widen p) w) fields := by
  induction before generalizing w with
  | nil => exact h
  | cons ent before ih =>
    refine ih ?_
    unfold widen
    split
    · exact h.add _
    · exact h

theorem covers_foldl_widen {p extension : List Char} {before : List Dirent} {ent : Dirent} (hent : ent ∈ before)
    (hexam : examine p ent = .candidate fields extension) (w : Widths) : Covers (before.foldl (widen p) w) fields := by
  obtain ⟨l, r, rfl⟩ := List.append_of_mem hent
  rw [List.foldl_append, List.foldl_cons, widen, hexam]
  exact (covers_add _ fields).foldl_widen p r

theorem printVersion_eq (maxlen : Nat) {n : Nat} (h : fields.length ≤ n) :
    printVersion maxlen n fields = ((fields.map readInt).rightpad n 0).flatMap (printField maxlen) := by
  induction n generalizing fields with
  | zero =>
    obtain rfl := List.length_eq_zero_iff.mp (Nat.le_zero.mp h)
    rfl
  | succ n ih =>
    cases fields with
    | nil =>
      have hnil := @ih [] (Nat.zero_le n)
      rw [printVersion, hnil]
      simp [List.rightpad, List.replicate_succ]
    | cons f fields =>
      rw [printVersion, ih (Nat.le_of_succ_le_succ h)]
      simp [List.rightpad]

theorem length_printField {maxlen : Nat} {a : Int} (h : 0 ≤ a ∧ a < 10 ^ maxlen) :
    (printField maxlen a).length = maxlen := by
  obtain ⟨n, rfl⟩ := Int.eq_ofNat_of_zero_le h.1
  rcases Nat.eq_zero_or_pos maxlen with rfl | hpos
  · rfl
  · rw [printField, List.length_take, length_zeroPadded hpos (by exact_mod_cast h.2), min_self]

theorem printField_lt_printField_iff {maxlen : Nat} {a b : Int} (ha : 0 ≤ a ∧ a < 10 ^ maxlen)
    (hb : 0 ≤ b ∧ b < 10 ^ maxlen) : printField maxlen a < printField maxlen b ↔ a < b := by
  obtain ⟨n, rfl⟩ := Int.eq_ofNat_of_zero_le ha.1
  obtain ⟨m, rfl⟩ := Int.eq_ofNat_of_zero_le hb.1
  have hn : n < 10 ^ maxlen := by exact_mod_cast ha.2
  have hm : m < 10 ^ maxlen := by exact_mod_cast hb.2
  -- fields of no width belong to versions that are all 0
  rcases Nat.eq_zero_or_pos maxlen with rfl | hpos
  · obtain rfl : n = 0 := Nat.lt_one_iff.mp hn
    obtain rfl : m = 0 := Nat.lt_one_iff.mp hm
    exact iff_of_false (lt_irrefl _) (lt_irrefl _)
  · rw [printField, printField, List.take_of_length_le (length_zeroPadded hpos hn).le,
      List.take_of_length_le (length_zeroPadded hpos hm).le, zeroPadded_lt_zeroPadded_iff hpos hn hm, Int.ofNat_lt]

/-- Printed with widths that are enough for both, versions compare as their components do. -/
theorem print_lt_print_iff (h : Covers w fields) (h' : Covers w fields') (hp : Plain fields) (hp' : Plain fields') :
    w.print fields < w.print fields' ↔ Below (fields.map leadingNumber) (fields'.map leadingNumber) := by
  have hread {l : List (List Char)} (hl : Plain l) : l.map readInt = l.map leadingNumber :=
    List.map_congr_left fun f hf => readInt_eq_leadingNumber (toInt32_eq_self_iff.mpr (by have := hl f hf; omega))
  have hrange {l : List (List Char)} (hl : Plain l) (hc : Covers w l) :
      ∀ a ∈ (l.map leadingNumber).rightpad w.maxversionlen 0, 0 ≤ a ∧ a < 10 ^ w.maxlen := by
    intro a ha
    rcases List.mem_append.mp ha with ha | ha
    · obtain ⟨f, hf, rfl⟩ := List.mem_map.mp ha
      have hpow : (10 : Int) ^ f.length ≤ 10 ^ w.maxlen := by
        exact_mod_cast Nat.pow_le_pow_right (by decide) (hc.2 f hf)
      exact ⟨(hl f hf).1, (leadingNumber_lt_pow f).trans_le hpow⟩
    · rw [List.eq_of_mem_replicate ha]
      exact ⟨le_rfl, Int.pow_pos (by decide)⟩
  have hlength {l : List (List Char)} (hc : Covers w l) :
      ((l.map leadingNumber).rightpad w.maxversionlen 0).length = w.maxversionlen := by
    rw [List.length_rightpad, List.length_map]
    exact max_eq_left hc.1
  rw [Widths.print, Widths.print, printVersion_eq _ h.1, printVersion_eq _ h'.1, hread hp, hread hp',
    flatMap_lt_flatMap_iff (fun _ => length_printField) (fun _ _ => printField_lt_printField_iff)
      ((hlength h).trans (hlength h').symm) (hrange hp h) (hrange hp' h')]
  exact rightpad_lt_rightpad_iff (by rw [List.length_map]; exact h.1) (by rw [List.length_map]; exact h'.1)

end Printed

section Highest

variable {functionName : List Char} {before after entries : List Dirent} {ent : Dirent}

/-- The widths of the fields when the first reading stops at a description of `version`. -/
def widthsAt (functionName : List Char) (before : List Dirent) (version : List Char) : Widths :=
  (before.foldl (widen (pattern functionName)) {}).add (version.splitOn '.')

/-- The function goes on after the entry, which is not a description of the operator. If it has the name of a version
all the same, this one is lower than `version`, as they are printed. -/
def Lower (functionName : List Char) (before : List Dirent) (version : List Char) (ent : Dirent) : Prop :=
  (∀ e, examine (pattern functionName) ent ≠ .failed e) ∧
    ∀ v extension, ent.regular = true → Named functionName ent.name v extension →
      sameKey extension "xml".toList = false ∧
        (widthsAt functionName before version).print (v.splitOn '.') <
          (widthsAt functionName before version).print (version.splitOn '.')

/-- The first description of the folder has the highest version, and nothing before it is in its way. -/
def FirstIsHighest (functionName : List Char) (entries : List Dirent) : Prop :=
  ∃ before ent after version, entries = before ++ ent :: after ∧ Describes functionName ent version ∧
    (∀ e ∈ before, Lower functionName before version e) ∧
    ∀ other ∈ after, ∀ v, Describes functionName other v → ¬ Below (components version) (components v)

/-- If the versions are numbers that an `int` holds, the one that is printed lower is the lower one. -/
theorem lower_iff {version : List Char} {e : Dirent} (he : e ∈ before) (hversion : Plain (version.splitOn '.'))
    (hplain : ∀ v extension, Named functionName e.name v extension → Plain (v.splitOn '.')) :
    Lower functionName before version e ↔ (∀ x, examine (pattern functionName) e ≠ .failed x) ∧
      ∀ v extension, e.regular = true → Named functionName e.name v extension →
        sameKey extension "xml".toList = false ∧ Below (components v) (components version) := by
  refine and_congr_right fun _ => forall₂_congr fun v extension => forall₂_congr fun hregular hname =>
    and_congr_right fun _ => ?_
  have hexam := examine_eq_candidate_iff.mpr ⟨hregular, v, hname, rfl⟩
  exact print_lt_print_iff ((covers_foldl_widen he hexam {}).add _) (covers_add _ _) (hplain v extension hname) hversion

theorem describes_iff {version : List Char} : Describes functionName ent version ↔
    ∃ extension, ent.regular = true ∧ Named functionName ent.name version extension ∧ isXml extension = true := by
  unfold Describes
  simp only [isXml_iff, exists_and_left]

theorem Describes.examine {version : List Char} (h : Describes functionName ent version) :
    ∃ extension, examine (pattern functionName) ent = .candidate (version.splitOn '.') extension ∧
      isXml extension = true := by
  obtain ⟨extension, hregular, hname, hxml⟩ := describes_iff.mp h
  exact ⟨extension, examine_eq_candidate_iff.mpr ⟨hregular, version, hname, rfl⟩, hxml⟩

theorem exists_describes {fields : List (List Char)} {extension : List Char}
    (h : examine (pattern functionName) ent = .candidate fields extension) (hxml : isXml extension = true) :
    ∃ version, Describes functionName ent version ∧ fields = version.splitOn '.' := by
  obtain ⟨hregular, version, hname, hfields⟩ := examine_eq_candidate_iff.mp h
  exact ⟨version, describes_iff.mpr ⟨extension, hregular, hname, hxml⟩, hfields⟩

/-- The versions of a file are the same. -/
theorem Describes.components_eq {v v' : List Char} (h : Describes functionName ent v)
    (h' : Describes functionName ent v') : v.splitOn '.' = v'.splitOn '.' := by
  obtain ⟨_, hexam, -⟩ := h.examine
  obtain ⟨_, hexam', -⟩ := h'.examine
  exact (Examined.candidate.inj (hexam.symm.trans hexam')).1

theorem retrieveFunctionXmlFile_none (functionName : List Char) (entries : List Dirent) :
    retrieveFunctionXmlFile functionName none (some entries) =
      (measure (pattern functionName) {} entries).bind fun w =>
        (collect (pattern functionName) w [] entries).bind fun versions =>
          ((versions.argmax Prod.fst).elim (.error .undefined) fun version => .ok version.2) := rfl

/-- The second reading stops where the first one did. -/
theorem retrieveFunctionXmlFile_eq {version : List Char} (hbefore : ∀ e ∈ before, Passed (pattern functionName) e)
    (hdesc : Describes functionName ent version) :
    retrieveFunctionXmlFile functionName none (some (before ++ ent :: after)) =
      ((before.filterMap (versionOf (pattern functionName) (widthsAt functionName before version)) ++
        [((widthsAt functionName before version).print (version.splitOn '.'), ent.name)]).argmax Prod.fst).elim
          (.error .undefined) fun version => .ok version.2 := by
  obtain ⟨extension, hexam, hxml⟩ := hdesc.examine
  have hmeasure : measure (pattern functionName) {} (before ++ ent :: after) =
      .ok (widthsAt functionName before version) := by
    rw [measure_append hbefore, measure, hexam]
    exact if_pos hxml
  have hcount : (widthsAt functionName before version).count =
      (before.filterMap (versionOf (pattern functionName) (widthsAt functionName before version))).length + 1 := by
    show (before.foldl (widen (pattern functionName)) {}).count + 1 = _
    rw [count_foldl_widen before {} (widthsAt functionName before version)]
    exact congrArg (· + 1) (Nat.zero_add _)
  have hcollect : collect (pattern functionName) (widthsAt functionName before version) [] (before ++ ent :: after) =
      .ok (before.filterMap (versionOf (pattern functionName) (widthsAt functionName before version)) ++
        [((widthsAt functionName before version).print (version.splitOn '.'), ent.name)]) := by
    rw [collect_append hbefore (by rw [hcount, List.length_nil]; omega), List.nil_append, collect, hexam]
    exact if_pos hcount.symm
  rw [retrieveFunctionXmlFile_none, hmeasure]
  dsimp only [Except.bind]
  rw [hcollect]

theorem Lower.passed {version : List Char} {e : Dirent} (h : Lower functionName before version e) :
    Passed (pattern functionName) e := by
  refine ⟨h.1, fun fields extension hexam => ?_⟩
  obtain ⟨hregular, v, hname, -⟩ := examine_eq_candidate_iff.mp hexam
  have hxml := Bool.eq_false_iff.mp (h.2 v extension hregular hname).1
  exact Bool.eq_false_iff.mpr fun hx => hxml (isXml_iff.mp hx)

theorem Dirent.eq_of_name {e e' : Dirent} (h : e.regular = true) (h' : e'.regular = true) (hname : e.name = e'.name) :
    e = e' := by
  cases e
  cases e'
  simp_all

/-- The function returns the latest description of an operator exactly if the folder begins with it. -/
theorem returnsHighest_iff : ReturnsHighest functionName entries ↔ FirstIsHighest functionName entries := by
  constructor
  · rintro ⟨ent, -, version, hdesc, hret, hhigh⟩
    obtain ⟨w, hmeasure⟩ : ∃ w, measure (pattern functionName) {} entries = .ok w := by
      rw [retrieveFunctionXmlFile_none] at hret
      cases hm : measure (pattern functionName) {} entries with
      | error e =>
        rw [hm] at hret
        cases hret
      | ok w => exact ⟨w, rfl⟩
    obtain ⟨before, first, after, fields, extension, rfl, hbefore, hexam, hxml⟩ := exists_of_measure hmeasure
    obtain ⟨v, hfirst, rfl⟩ := exists_describes hexam hxml
    rw [retrieveFunctionXmlFile_eq hbefore hfirst] at hret
    -- a file before the description whose version is not lower would be returned in its place
    have hlower : ∀ u ∈ before.filterMap (versionOf (pattern functionName) (widthsAt functionName before v)),
        u.1 < (widthsAt functionName before v).print (v.splitOn '.') := by
      by_contra hn
      push Not at hn
      obtain ⟨u, hu, hle⟩ := hn
      obtain ⟨c, hc, hargmax⟩ := exists_argmax_concat (f := Prod.fst)
        (a := ((widthsAt functionName before v).print (v.splitOn '.'), first.name)) hu hle
      rw [hargmax] at hret
      obtain ⟨e, he, hc⟩ := List.mem_filterMap.mp hc
      obtain ⟨fs, ext, hexam', rfl⟩ := versionOf_eq_some_iff.mp hc
      obtain rfl : e = ent := Dirent.eq_of_name (examine_eq_candidate_iff.mp hexam').1 hdesc.1 (Except.ok.inj hret)
      obtain ⟨ext', hexam'', hxml'⟩ := hdesc.examine
      rw [(hbefore e he).2 _ _ hexam''] at hxml'
      cases hxml'
    rw [argmax_concat_of_forall_lt hlower] at hret
    obtain rfl : first = ent := Dirent.eq_of_name hfirst.1 hdesc.1 (Except.ok.inj hret)
    have hv : v.splitOn '.' = version.splitOn '.' := hfirst.components_eq hdesc
    refine ⟨before, first, after, version, rfl, hdesc, fun e he => ⟨(hbefore e he).1, fun u ext hregular hname => ?_⟩,
      fun other hother => hhigh other (List.mem_append_right _ (List.mem_cons_of_mem _ hother))⟩
    have hexam' := examine_eq_candidate_iff.mpr ⟨hregular, u, hname, rfl⟩
    constructor
    · have hxml' := Bool.eq_false_iff.mp ((hbefore e he).2 _ _ hexam')
      exact Bool.eq_false_iff.mpr fun hx => hxml' (isXml_iff.mpr hx)
    · rw [widthsAt, ← hv]
      exact hlower _ (List.mem_filterMap.mpr ⟨e, he, versionOf_eq_some_iff.mpr ⟨_, _, hexam', rfl⟩⟩)
  · rintro ⟨before, ent, after, version, rfl, hdesc, hlower, hhigh⟩
    refine ⟨ent, List.mem_append_right _ List.mem_cons_self, version, hdesc, ?_, ?_⟩
    · rw [retrieveFunctionXmlFile_eq (fun e he => (hlower e he).passed) hdesc, argmax_concat_of_forall_lt]
      · rfl
      · intro v hv
        obtain ⟨e, he, hv⟩ := List.mem_filterMap.mp hv
        obtain ⟨fields, extension, hexam, rfl⟩ := versionOf_eq_some_iff.mp hv
        obtain ⟨hregular, v, hname, rfl⟩ := examine_eq_candidate_iff.mp hexam
        exact ((hlower e he).2 v extension hregular hname).2
    · intro other hother v hv
      rcases List.mem_append.mp hother with hother | hother
      · obtain ⟨extension, hname, hxml⟩ := hv.2
        rw [((hlower other hother).2 v extension hv.1 hname).1] at hxml
        cases hxml
      · rcases List.mem_cons.mp hother with rfl | hother
        · rw [components, hdesc.components_eq hv]
          exact not_below_self _
        · exact hhigh other hother v hv

/-- Two versions of the operator `OPH_X`. -/
def older : Dirent := ⟨"OPH_X_operator_1.0.xml".toList, true, by decide⟩

def newer : Dirent := ⟨"OPH_X_operator_2.0.xml".toList, true, by decide⟩

/-- The first description is returned, although the second one has a higher version. -/
theorem not_returnsHighest_older : ¬ ((∃ ent ∈ [older, newer], ∃ v, Describes "OPH_X".toList ent v) →
    ReturnsHighest "OPH_X".toList [older, newer]) := by
  have holder : examine (pattern "OPH_X".toList) older = .candidate [['1'], ['0']] ['x', 'm', 'l'] := by decide +kernel
  have hnewer : examine (pattern "OPH_X".toList) newer = .candidate [['2'], ['0']] ['x', 'm', 'l'] := by decide +kernel
  obtain ⟨v, hv, hfields⟩ := exists_describes holder (by decide)
  obtain ⟨v', hv', hfields'⟩ := exists_describes hnewer (by decide)
  intro h
  obtain ⟨ent, hmem, version, hdesc, hret, hhigh⟩ := h ⟨older, List.mem_cons_self, v, hv⟩
  have heval : retrieveFunctionXmlFile "OPH_X".toList none (some [older, newer]) = .ok older.name := by decide +kernel
  obtain rfl : older = ent := Dirent.eq_of_name rfl hdesc.1 (Except.ok.inj (heval.symm.trans hret))
  refine hhigh newer (List.mem_cons_of_mem _ List.mem_cons_self) v' hv' ?_
  rw [components, components, hdesc.components_eq hv, ← hfields, ← hfields']
  decide +kernel

end Highest

end OphidiaWorkflow.XmlFile
