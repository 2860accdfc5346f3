import OphidiaWorkflow.Server.Trash
import OphidiaWorkflow.Text.Ranges

/-!
The cubes that `oph_workflow_notify` hands to the final task: it orders the trash `exit_cubes` and writes what it
extracts as a condition of `oph_subset_parse`.

The trash is used with the key NULL only, and has one node.
-/
namespace OphidiaWorkflow.Subset

open Lib Server

/-- `OPH_MAX_STRING_SIZE`, the size of the array `exit_cubes`. -/
def exitCubesSize : Nat := 4096

/-- `strncat` to the array. -/
def appendCube (text t : List Char) : List Char := text ++ t.take (exitCubesSize - text.length - 1)

/-- `snprintf` over `last_index`, which stands after `before`; `none`: the array is left. -/
def overwriteCube (before lastIndex : List Char) (cubeid : Int) : Option (List Char) :=
  let text := before ++ (decimal cubeid).take (exitCubesSize - lastIndex.length - 1)
  if text.length < exitCubesSize then some text else none

/-- A round of the loop over the trash. -/
def addCube (text : List Char) (cubeid : Int) : Option (List Char) :=
  if text = [] then some (decimal cubeid)
  else
    let (before, lastBlock) := cutLast ',' text
    match cutAt ':' lastBlock with
    | some (start, lastIndex) =>
      if strtol lastIndex = cubeid - 1 then overwriteCube (before ++ (start ++ [':'])) lastIndex cubeid
      else some (appendCube text (',' :: decimal cubeid))
    | none =>
      if strtol lastBlock = cubeid - 1 then some (appendCube text (':' :: decimal cubeid))
      else some (appendCube text (',' :: decimal cubeid))

/-- The loop; `none`: the array is left, or more rounds are needed. -/
def drain : Nat → Trash Unit → List Char → Option (List Char)
  | 0, _, _ => none
  | fuel + 1, t, text =>
    match t.extract () with
    | none => some text
    | some (cubeid, t) => (addCube text cubeid).bind (drain fuel t)

/-- The text made of the trash. -/
def exitCubes (fuel : Nat) (t : Trash Unit) : Option (List Char) :=
  (t.order fuel ()).bind fun r => drain fuel r.2 []

/-- The trash with the cubes, appended one after the other. -/
def trashOf (ids : List Int) : Trash Unit := ids.foldl (fun t id => t.append () id) []

/-- The loops end with a text, and it is parsed as the cubes in ascending order. -/
def Denotes (ids : List Int) : Prop :=
  ∃ text, (∃ n, ∀ fuel, n ≤ fuel → exitCubes fuel (trashOf ids) = some text) ∧
    ∃ S, parse text 0 = .ok S ∧ S.intervals.flatMap Interval.values = ids.insertionSort (· ≤ ·)

variable {ids l : List Int} {segs : List (Int × Int)} {s : Int × Int} {v : Int} {text : List Char} {fuel : Nat}
  {t : Trash Unit}

theorem ofKey_trashOf (ids : List Int) : Trash.OfKey () (trashOf ids) ∧ (trashOf ids).stored () = ids := by
  induction ids using List.reverseRecOn with
  | nil => exact ⟨.inl rfl, rfl⟩
  | append_singleton ids id ih =>
    obtain ⟨hkey, hstored⟩ := ih
    rw [trashOf, List.foldl_concat]
    obtain ⟨hkey', hstored'⟩ := Trash.OfKey.append hkey id
    exact ⟨hkey', hstored'.trans (congrArg (· ++ [id]) hstored)⟩

/-- The loop goes through what is stored. -/
theorem drain_eq (h : Trash.OfKey () t) (hf : (t.stored ()).length < fuel) (text : List Char) :
    drain fuel t text = (t.stored ()).foldlM addCube text := by
  induction fuel generalizing t text with
  | zero => exact absurd hf (Nat.not_lt_zero _)
  | succ fuel ih =>
    have hfst := Trash.fst_extract () t
    rw [drain]
    cases he : t.extract () with
    | none =>
      rw [he] at hfst
      rw [List.head?_eq_none_iff.mp hfst.symm]
      rfl
    | some r =>
      obtain ⟨cubeid, t'⟩ := r
      obtain ⟨hkey, hstored⟩ := h.extract he
      rw [hstored, List.length_cons] at hf
      rw [hstored, List.foldlM_cons]
      exact congrArg (Option.bind (addCube text cubeid)) (funext fun text => ih hkey (Nat.lt_of_succ_lt_succ hf) text)

/-- What stands before the last run. -/
def beforeLast (segs : List (Int × Int)) : List Char := if segs = [] then [] else rangesText segs ++ [',']

theorem rangesText_cons (s : Int × Int) (segs : List (Int × Int)) :
    rangesText (s :: segs) = beforeLast segs ++ segmentText s := by
  rw [rangesText, beforeLast]
  split
  · rfl
  · rw [List.append_assoc]
    rfl

theorem cutLast_rangesText (s : Int × Int) (segs : List (Int × Int)) :
    cutLast ',' (rangesText (s :: segs)) = (beforeLast segs, segmentText s) := by
  rw [rangesText, beforeLast]
  split
  · exact cutLast_of_not_mem (comma_not_mem s)
  · exact cutLast_append_cons _ (comma_not_mem s)

theorem appendCube_eq {t : List Char} (h : (text ++ t).length < exitCubesSize) : appendCube text t = text ++ t := by
  rw [List.length_append] at h
  rw [appendCube, List.take_of_length_le (by omega)]

theorem overwriteCube_eq {before lastIndex : List Char} (hi : lastIndex.length ≤ 11) (hv : toInt32 v = v)
    (h : (before ++ decimal v).length < exitCubesSize) :
    overwriteCube before lastIndex v = some (before ++ decimal v) := by
  have hshort := length_decimal_int32 hv
  have htake : (decimal v).take (exitCubesSize - lastIndex.length - 1) = decimal v :=
    List.take_of_length_le (by unfold exitCubesSize; omega)
  rw [overwriteCube, htake, if_pos h]

theorem length_decimal_mono {n m : Int} (h0 : 0 ≤ n) (h : n ≤ m) : (decimal n).length ≤ (decimal m).length := by
  obtain ⟨n, rfl⟩ := Int.eq_ofNat_of_zero_le h0
  obtain ⟨m, rfl⟩ := Int.eq_ofNat_of_zero_le (Int.le_trans h0 h)
  have hpos : 0 < (Nat.toDigits 10 m).length := List.length_pos_iff.mpr Nat.toDigits_ne_nil
  have hm : m < 10 ^ (Nat.toDigits 10 m).length := (Nat.length_toDigits_le_iff (by decide) hpos).mp (Nat.le_refl _)
  exact (Nat.length_toDigits_le_iff (by decide) hpos).mpr (Nat.lt_of_le_of_lt (Int.ofNat_le.mp h) hm)

theorem rangesText_push_new (hv : v ≠ s.2 + 1) (segs : List (Int × Int)) :
    rangesText (pushSegment (s :: segs) v) = rangesText (s :: segs) ++ ',' :: decimal v := by
  have hself : segmentText (v, v) = decimal v := if_pos rfl
  rw [pushSegment, if_neg hv, ← hself]
  exact if_neg (List.cons_ne_nil _ _)

theorem rangesText_push_one (hone : s.1 = s.2) (hv : v = s.2 + 1) (segs : List (Int × Int)) :
    rangesText (pushSegment (s :: segs) v) = rangesText (s :: segs) ++ ':' :: decimal v := by
  have hshort : segmentText s = decimal s.1 := if_pos hone
  have hlong : segmentText (s.1, v) = segmentText s ++ ':' :: decimal v := by
    rw [hshort]
    exact if_neg (by dsimp only; omega)
  rw [pushSegment, if_pos hv, rangesText_cons, hlong, ← List.append_assoc, ← rangesText_cons]

theorem rangesText_more (hne : s.1 ≠ s.2) (segs : List (Int × Int)) :
    rangesText (s :: segs) = beforeLast segs ++ (decimal s.1 ++ [':']) ++ decimal s.2 := by
  have hlong : segmentText s = decimal s.1 ++ ':' :: decimal s.2 := if_neg hne
  rw [rangesText_cons, hlong, List.append_assoc, List.append_assoc]
  rfl

theorem rangesText_push_more (hs : s.1 ≤ s.2) (hv : v = s.2 + 1) (segs : List (Int × Int)) :
    rangesText (pushSegment (s :: segs) v) = beforeLast segs ++ (decimal s.1 ++ [':']) ++ decimal v := by
  rw [pushSegment, if_pos hv, rangesText_more (by dsimp only; omega)]

/-- The text of the runs follows one more cube, which extends the last one or makes another. -/
theorem addCube_rangesText (hle : ∀ s ∈ segs, s.1 ≤ s.2) (hint : ∀ s ∈ segs, toInt32 s.1 = s.1 ∧ toInt32 s.2 = s.2)
    (hv : toInt32 v = v) (hlen : (rangesText (pushSegment segs v)).length < exitCubesSize) :
    addCube (rangesText segs) v = some (rangesText (pushSegment segs v)) := by
  cases segs with
  | nil =>
    have hself : segmentText (v, v) = decimal v := if_pos rfl
    rw [addCube, rangesText, if_pos rfl, pushSegment, rangesText, if_pos rfl, hself]
  | cons s segs =>
    obtain ⟨h1, h2⟩ := hint s List.mem_cons_self
    have hs := hle s List.mem_cons_self
    have hcolon : ':' ∉ decimal s.1 := not_mem_decimal _ (by decide) (by decide)
    have hne : rangesText (s :: segs) ≠ [] := by
      rw [rangesText_cons]
      exact List.append_ne_nil_of_right_ne_nil _ (segmentText_ne_nil s)
    have hnew (hnext : v ≠ s.2 + 1) :
        appendCube (rangesText (s :: segs)) (',' :: decimal v) = rangesText (pushSegment (s :: segs) v) := by
      rw [rangesText_push_new hnext] at hlen ⊢
      exact appendCube_eq hlen
    rw [addCube, if_neg hne, cutLast_rangesText]
    dsimp only
    -- the last run is written as one number or as two
    by_cases hone : s.1 = s.2
    · have hsegment : segmentText s = decimal s.1 := if_pos hone
      rw [hsegment, cutAt_eq_none hcolon]
      dsimp only
      rw [strtol_decimal_int32 h1]
      split
      · rw [rangesText_push_one hone (by omega)] at hlen ⊢
        rw [appendCube_eq hlen]
      · rw [hnew (by omega)]
    · have hsegment : segmentText s = decimal s.1 ++ ':' :: decimal s.2 := if_neg hone
      rw [hsegment, cutAt_append_cons _ hcolon]
      dsimp only
      rw [strtol_decimal_int32 h2]
      split
      · rw [rangesText_push_more hs (by omega)] at hlen ⊢
        exact overwriteCube_eq (length_decimal_int32 h2) hv hlen
      · rw [hnew (by omega)]

/-- With numbers that are not negative the text only grows. -/
theorem length_rangesText_push (hle : ∀ s ∈ segs, s.1 ≤ s.2) (hnn : ∀ s ∈ segs, 0 ≤ s.2) (v : Int) :
    (rangesText segs).length ≤ (rangesText (pushSegment segs v)).length := by
  cases segs with
  | nil => exact Nat.zero_le _
  | cons s segs =>
    have hs := hle s List.mem_cons_self
    by_cases hv : v = s.2 + 1
    · by_cases hone : s.1 = s.2
      · rw [rangesText_push_one hone hv, List.length_append]
        exact Nat.le_add_right _ _
      · have hmono : (decimal s.2).length ≤ (decimal v).length :=
          length_decimal_mono (hnn s List.mem_cons_self) (by omega)
        have hone := congrArg List.length (rangesText_more hone segs)
        have hmore := congrArg List.length (rangesText_push_more hs hv segs)
        rw [List.length_append] at hone hmore
        omega
    · rw [rangesText_push_new hv, List.length_append]
      exact Nat.le_add_right _ _

/-- The loop over the cubes writes the text of their runs. -/
theorem foldlM_addCube (hint : Ints l) (hnn : ∀ v ∈ l, 0 ≤ v) (hlen : (rangesOf l).length < exitCubesSize) :
    l.foldlM addCube [] = some (rangesOf l) := by
  induction l using List.reverseRecOn with
  | nil => rfl
  | append_singleton l v ih =>
    have hl : ∀ w ∈ l, w ∈ l ++ [v] := fun w hw => List.mem_append_left _ hw
    have hsegs : ∀ s ∈ l.foldl pushSegment [], s.1 ∈ l ∧ s.2 ∈ l := fun s hs =>
      mem_of_mem_segments (List.mem_reverse.mpr hs)
    have hle : ∀ s ∈ l.foldl pushSegment [], s.1 ≤ s.2 := fun s hs => le_of_mem_foldl hs
    rw [rangesOf, List.foldl_concat] at hlen ⊢
    have hgrow : (rangesOf l).length ≤ _ := length_rangesText_push hle (fun s hs => hnn _ (hl _ (hsegs s hs).2)) v
    rw [List.foldlM_append, ih (fun w hw => hint w (hl w hw)) (fun w hw => hnn w (hl w hw))
      (Nat.lt_of_le_of_lt hgrow hlen)]
    have hstep := addCube_rangesText hle (fun s hs => ⟨hint _ (hl _ (hsegs s hs).1), hint _ (hl _ (hsegs s hs).2)⟩)
      (hint v (List.mem_append_right _ (List.mem_singleton_self v))) hlen
    show (addCube (rangesOf l) v).bind some = _
    rw [rangesOf, hstep]
    rfl

theorem mem_insertionSort {v : Int} : v ∈ ids.insertionSort (· ≤ ·) ↔ v ∈ ids := (List.perm_insertionSort _ _).mem_iff

/-- The loops end, with the text of the runs of the ordered cubes. -/
theorem exitCubes_eq (hne : ids ≠ []) (hint : Ints ids) (hpos : ∀ v ∈ ids, 0 < v)
    (hlen : (rangesOf (ids.insertionSort (· ≤ ·))).length < exitCubesSize) :
    ∃ n, ∀ fuel, n ≤ fuel → exitCubes fuel (trashOf ids) = some (rangesOf (ids.insertionSort (· ≤ ·))) := by
  obtain ⟨hkey, hstored⟩ := ofKey_trashOf ids
  refine ⟨Trash.inversions ids + ids.length + 1, fun fuel hf => ?_⟩
  have hinv : Trash.inversions ((trashOf ids).stored ()) < fuel := by
    rw [hstored]
    omega
  have hzero : ∀ v ∈ (trashOf ids).stored (), v ≠ 0 := by
    rw [hstored]
    exact fun v hv => Int.ne_of_gt (hpos v hv)
  obtain ⟨t, horder, hkey', hstored'⟩ := hkey.order (by rwa [hstored]) hzero hinv
  rw [hstored] at hstored'
  have hfuel : (t.stored ()).length < fuel := by
    rw [hstored', List.length_insertionSort]
    omega
  rw [exitCubes, horder, Option.bind_some, drain_eq hkey' hfuel, hstored']
  exact foldlM_addCube (fun v hv => hint v (mem_insertionSort.mp hv))
    (fun v hv => Int.le_of_lt (hpos v (mem_insertionSort.mp hv))) hlen

theorem Denotes.fits (hne : ids ≠ []) (hint : Ints ids) (hpos : ∀ v ∈ ids, 0 < v)
    (hlen : (rangesOf (ids.insertionSort (· ≤ ·))).length < exitCubesSize) (h : Denotes ids) :
    (rangesOf (ids.insertionSort (· ≤ ·))).length < maxStringLength := by
  obtain ⟨n, hexit⟩ := exitCubes_eq hne hint hpos hlen
  obtain ⟨text, ⟨m, htext⟩, S, hparse, -⟩ := h
  have heq := (htext (max m n) (Nat.le_max_left _ _)).symm.trans (hexit (max m n) (Nat.le_max_right _ _))
  cases Option.some.inj heq
  refine Nat.not_le.mp fun hlong => ?_
  rw [parse_long hlong] at hparse
  cases hparse

/-- If the text has room in its array, it denotes the cubes exactly if it has room in the buffers of the parser. -/
theorem denotes_iff (hne : ids ≠ []) (hint : Ints ids) (hpos : ∀ v ∈ ids, 0 < v)
    (hlen : (rangesOf (ids.insertionSort (· ≤ ·))).length < exitCubesSize) :
    Denotes ids ↔ (rangesOf (ids.insertionSort (· ≤ ·))).length < maxStringLength := by
  refine ⟨Denotes.fits hne hint hpos hlen, fun hshort => ?_⟩
  have hsorted : ids.insertionSort (· ≤ ·) ≠ [] := by
    intro h
    have hlength := List.length_insertionSort (· ≤ ·) ids
    rw [h] at hlength
    exact hne (List.length_eq_zero_iff.mp hlength.symm)
  have hints : Ints (ids.insertionSort (· ≤ ·)) := fun v hv => hint v (mem_insertionSort.mp hv)
  have hm : toInt32 0 = 0 := by decide
  obtain ⟨S, hparse, -, -, hflat⟩ := parse_rangesOf hm hsorted hints hshort
  exact ⟨_, exitCubes_eq hne hint hpos hlen, S, hparse, hflat⟩

theorem denotes_sample : Denotes [12, 3, 9, 10, 11, 3, 99, 100] :=
  (denotes_iff (by decide) (by decide) (by decide) (by decide +kernel)).mpr (by decide +kernel)

/-- Every other one of 600 cubes: no two are consecutive, and their numbers take 1499 characters. -/
theorem not_denotes_gaps : ¬ Denotes ((List.range 300).map fun (k : Nat) => 1000 + 2 * (k : Int)) := by
  let ids := (List.range 300).map fun (k : Nat) => 1000 + 2 * (k : Int)
  have hlength : (rangesOf (ids.insertionSort (· ≤ ·))).length + 1 = 1500 :=
    (length_rangesText (by decide +kernel)).trans (by decide +kernel)
  show ¬ Denotes ids
  intro h
  have hfits := h.fits (by decide) (by decide +kernel) (by decide +kernel) (by unfold exitCubesSize; omega)
  unfold maxStringLength at hfits
  omega

end OphidiaWorkflow.Subset
