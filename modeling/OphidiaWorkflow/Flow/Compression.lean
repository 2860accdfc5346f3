import OphidiaWorkflow.Flow.Counter
import OphidiaWorkflow.Text.Ranges

/-!
The compression of a variable by `oph_set_impl`: a list of integers becomes a condition of `oph_subset_parse`.

`strtoll` is read as `strtol`: both answer a number of 64 bits.
-/
namespace OphidiaWorkflow.Subset

open Lib

/-- The variables of the loop; `out` is `final_string`. -/
structure Compression where
  flag : Nat
  first : Bool
  start : Int
  stop : Int
  out : List Char
  deriving DecidableEq, Repr

/-- What is printed for the numbers since `start`. -/
def Compression.pending (r : Compression) : List Char :=
  (if r.first then [','] else []) ++ (decimal r.start ++ if 1 < r.flag then ':' :: decimal r.stop else [])

/-- A round of the loop. -/
def compressToken (offset : Int) (r : Compression) (pch : List Char) : Compression :=
  if r.flag ≠ 0 then
    if strtol pch = r.stop + offset then { r with stop := strtol pch, flag := 2 }
    else { flag := 1, first := true, start := strtol pch, stop := strtol pch, out := r.out ++ r.pending }
  else { r with flag := 1, start := strtol pch, stop := strtol pch }

/-- The value of the variable after the compression of integers in `oph_set_impl`. -/
def compress (offset : Int) (svalue : List Char) : List Char :=
  if 0 < offset then
    let r := (tokens ',' svalue).foldl (compressToken offset) ⟨0, false, 0, 0, []⟩
    if r.flag ≠ 0 then r.out ++ r.pending else svalue
  else svalue

/-- The integers, separated by commas. -/
def listText (l : List Int) : List Char := [','].intercalate (l.map decimal)

/-- The compressed list is not longer, and it is parsed and expanded to the list. -/
structure Decompresses (max : Int) (l : List Int) : Prop where
  short : (compress 1 (listText l)).length ≤ (listText l).length
  expands : ∃ S, parse (compress 1 (listText l)) max = .ok S ∧ counters S = some l

/-- What the loop has done for the runs so far: the last one is still to be printed. -/
def Printed : List (Int × Int) → Compression → Prop
  | [], r => r = ⟨0, false, 0, 0, []⟩
  | s :: segs, r => r = ⟨if s.1 = s.2 then 1 else 2, !segs.isEmpty, s.1, s.2, rangesText segs⟩

variable {s : Int × Int} {segs : List (Int × Int)} {l : List Int} {v max : Int} {r : Compression}

theorem Printed.text (h : Printed (s :: segs) r) : r.out ++ r.pending = rangesText (s :: segs) := by
  have hr : r = ⟨if s.1 = s.2 then 1 else 2, !segs.isEmpty, s.1, s.2, rangesText segs⟩ := h
  have hsegment :
      (decimal s.1 ++ if 1 < (if s.1 = s.2 then 1 else 2) then ':' :: decimal s.2 else []) = segmentText s := by
    unfold segmentText
    by_cases hs : s.1 = s.2
    · rw [if_pos hs, if_pos hs, if_neg (by decide), List.append_nil]
    · rw [if_neg hs, if_neg hs, if_pos (by decide)]
  rw [hr, Compression.pending]
  dsimp only
  rw [hsegment, rangesText]
  cases segs with
  | nil => rfl
  | cons t segs => rfl

/-- A number extends the last run or makes another one, in the text as in the list. -/
theorem Printed.push (hle : ∀ s ∈ segs, s.1 ≤ s.2) (hv : toInt32 v = v) (h : Printed segs r) :
    Printed (pushSegment segs v) (compressToken 1 r (decimal v)) := by
  have hread := strtol_decimal_int32 hv
  cases segs with
  | nil =>
    have hr : r = ⟨0, false, 0, 0, []⟩ := h
    rw [compressToken, hread, hr, if_neg (by decide), pushSegment, Printed, if_pos rfl]
    rfl
  | cons s segs =>
    have htext := h.text
    have hs := hle s List.mem_cons_self
    have hr : r = ⟨if s.1 = s.2 then 1 else 2, !segs.isEmpty, s.1, s.2, rangesText segs⟩ := h
    have hflag : r.flag ≠ 0 := by
      rw [hr]
      dsimp only
      split <;> decide
    have hstop : r.stop = s.2 := by rw [hr]
    rw [compressToken, hread, if_pos hflag, hstop, pushSegment, htext]
    split
    · next hnext =>
      have hne : s.1 ≠ v := by omega
      rw [Printed, if_neg hne, hr]
    · rw [Printed, if_pos rfl]
      rfl

theorem printed_foldl (h : Ints l) :
    Printed (l.foldl pushSegment []) ((l.map decimal).foldl (compressToken 1) ⟨0, false, 0, 0, []⟩) := by
  induction l using List.reverseRecOn with
  | nil => rfl
  | append_singleton l v ih =>
    rw [List.map_append, List.map_singleton, List.foldl_concat, List.foldl_concat]
    exact (ih fun v hv => h v (List.mem_append_left _ hv)).push (fun s hs => le_of_mem_foldl hs)
      (h v (List.mem_append_right _ (List.mem_singleton_self v)))

theorem comma_not_mem_decimal (n : Int) : ',' ∉ decimal n := not_mem_decimal n (by decide) (by decide)

theorem tokens_listText (h : l ≠ []) : tokens ',' (listText l) = l.map decimal := by
  rw [tokens, listText, List.splitOn_intercalate ',' (by simp [comma_not_mem_decimal]) (by simpa using h),
    List.filter_eq_self]
  intro t ht
  obtain ⟨v, -, rfl⟩ := List.mem_map.mp ht
  simpa using decimal_ne_nil v

/-- The compressed list is the text of its runs. -/
theorem compress_listText (hl : l ≠ []) (h : Ints l) : compress 1 (listText l) = rangesOf l := by
  have hprinted := printed_foldl h
  rw [compress, if_pos (by decide), tokens_listText hl]
  dsimp only
  rw [rangesOf]
  obtain ⟨s, segs, hsegs⟩ := List.exists_cons_of_ne_nil (foldl_pushSegment_ne_nil hl)
  rw [hsegs] at hprinted ⊢
  rw [if_pos, hprinted.text]
  rw [hprinted]
  dsimp only
  split <;> decide

theorem length_segmentText_le (h : s.1 ≤ s.2) (hv : v = s.2 + 1) :
    (segmentText (s.1, v)).length ≤ (segmentText s).length + 1 + (decimal v).length := by
  have hlong : segmentText (s.1, v) = decimal s.1 ++ ':' :: decimal v := if_neg (by dsimp only; omega)
  rw [hlong, List.length_append, List.length_cons]
  unfold segmentText
  split
  · omega
  · rw [List.length_append]
    omega

/-- One more number makes the text longer by itself and a comma at most. -/
theorem length_pushSegment_le (hle : ∀ s ∈ segs, s.1 ≤ s.2) (hne : segs ≠ []) (v : Int) :
    (rangesText (pushSegment segs v)).length ≤ (rangesText segs).length + 1 + (decimal v).length := by
  cases segs with
  | nil => exact absurd rfl hne
  | cons s segs =>
    have hself : segmentText (v, v) = decimal v := if_pos rfl
    rw [pushSegment]
    split
    · next hv =>
      have hlast := length_segmentText_le (hle s List.mem_cons_self) hv
      rw [rangesText, rangesText]
      split
      · exact hlast
      · rw [List.length_append, List.length_append, List.length_cons, List.length_cons]
        omega
    · rw [rangesText, if_neg (List.cons_ne_nil _ _), hself, List.length_append, List.length_cons]
      omega

theorem listText_concat (h : l ≠ []) (v : Int) : listText (l ++ [v]) = listText l ++ ',' :: decimal v := by
  rw [listText, List.map_append, List.map_singleton, intercalate_concat _ (by simpa using h)]
  rfl

theorem length_rangesOf_le (l : List Int) : (rangesOf l).length ≤ (listText l).length := by
  induction l using List.reverseRecOn with
  | nil => exact Nat.le_refl _
  | append_singleton l v ih =>
    cases l with
    | nil =>
      have hself : segmentText (v, v) = decimal v := if_pos rfl
      show (rangesText [(v, v)]).length ≤ ([','].intercalate [decimal v]).length
      rw [rangesText, if_pos rfl, hself, List.intercalate_singleton]
    | cons w l =>
      have hne : w :: l ≠ [] := List.cons_ne_nil _ _
      have hpush := length_pushSegment_le (fun s hs => le_of_mem_foldl hs) (foldl_pushSegment_ne_nil hne) v
      rw [listText_concat hne, List.length_append, List.length_cons, rangesOf, List.foldl_concat]
      unfold rangesOf at ih
      omega

theorem Decompresses.fits (hl : l ≠ []) (h : Ints l) (hd : Decompresses max l) :
    (rangesOf l).length < maxStringLength ∧ l.length < 2147483648 := by
  obtain ⟨S, hparse, hcounters⟩ := hd.expands
  rw [compress_listText hl h] at hparse
  refine ⟨Nat.not_le.mp fun hlong => ?_, length_counters hcounters⟩
  rw [parse_long hlong] at hparse
  cases hparse

/-- The compression is undone by the parser and the loop exactly if the runs fit into the buffers of the parser and the
numbers into `ivalues`. -/
theorem decompresses_iff (hm : toInt32 max = max) (hl : l ≠ []) (h : Ints l) :
    Decompresses max l ↔ (rangesOf l).length < maxStringLength ∧ l.length < 2147483648 := by
  refine ⟨Decompresses.fits hl h, fun ⟨hlen, hlt⟩ => ?_⟩
  have hcompress := compress_listText hl h
  obtain ⟨S, hparse, hsound, htotal, hflat⟩ := parse_rangesOf hm hl h hlen
  refine ⟨hcompress ▸ length_rangesOf_le l, S, hcompress ▸ hparse, ?_⟩
  have hcounters := counters_eq hsound htotal (hflat ▸ hlt)
  rw [hcounters, hflat]

theorem decompresses_sample : Decompresses 0 [1, 2, 3, -5, 7, 7, 9] :=
  (decompresses_iff (by decide) (by decide) (by decide)).mpr ⟨by decide +kernel, by decide⟩

theorem foldl_pushSegment_replicate (v : Int) (n : Nat) :
    (List.replicate n v).foldl pushSegment [] = List.replicate n (v, v) := by
  induction n with
  | zero => rfl
  | succ n ih =>
    rw [List.replicate_succ', List.foldl_concat, ih]
    cases n with
    | zero => rfl
    | succ n => exact if_neg (by dsimp only; omega)

/-- Equal numbers are not compressed: 600 of them are 1199 characters. -/
theorem not_decompresses_equal : ¬ Decompresses 0 (List.replicate 600 0) := by
  intro h
  have hints : Ints (List.replicate 600 0) := fun v hv => (List.eq_of_mem_replicate hv) ▸ by decide
  have hfits := (h.fits (by decide) hints).1
  have hne : List.replicate 600 ((0 : Int), (0 : Int)) ≠ [] := by decide
  have hlength := length_rangesText hne
  rw [List.map_replicate, List.sum_replicate_nat, show (segmentText (0, 0)).length = 1 by decide] at hlength
  rw [rangesOf, foldl_pushSegment_replicate] at hfits
  unfold maxStringLength at hfits
  omega

end OphidiaWorkflow.Subset
