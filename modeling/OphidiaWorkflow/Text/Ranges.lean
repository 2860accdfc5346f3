import OphidiaWorkflow.Text.Subset

/-!
A list of integers as a condition of `oph_subset_parse`: the maximal runs of consecutive ones, each written as its only
number or as its first and its last one.
-/
namespace OphidiaWorkflow.Subset

open Lib

/-- `5` or `5:8` -/
def segmentText (s : Int × Int) : List Char :=
  if s.1 = s.2 then decimal s.1 else decimal s.1 ++ ':' :: decimal s.2

/-- The text of the runs, the last one at the head of the list. -/
def rangesText : List (Int × Int) → List Char
  | [] => []
  | s :: segs => if segs = [] then segmentText s else rangesText segs ++ ',' :: segmentText s

/-- The runs of the list, one after the other. -/
def rangesOf (l : List Int) : List Char := rangesText (l.foldl pushSegment [])

/-- The numbers are of the type `int`. -/
def Ints (l : List Int) : Prop := ∀ v ∈ l, toInt32 v = v

instance (l : List Int) : Decidable (Ints l) := inferInstanceAs (Decidable (∀ v ∈ l, toInt32 v = v))

variable {s : Int × Int} {segs : List (Int × Int)} {l : List Int} {n v max : Int} {c : Char}

theorem not_mem_segmentText (h : c.isDigit = false) (hm : c ≠ '-') (hc : c ≠ ':') (s : Int × Int) :
    c ∉ segmentText s := by
  unfold segmentText
  split
  · exact not_mem_decimal _ h hm
  · rw [List.mem_append, List.mem_cons]
    rintro (hs | hs | hs)
    · exact not_mem_decimal _ h hm hs
    · exact hc hs
    · exact not_mem_decimal _ h hm hs

theorem segmentText_ne_nil (s : Int × Int) : segmentText s ≠ [] := by
  unfold segmentText
  split
  · exact decimal_ne_nil _
  · exact List.append_ne_nil_of_right_ne_nil _ (List.cons_ne_nil _ _)

/-- Each run takes its text and a comma, but for the last one. -/
theorem length_rangesText (h : segs ≠ []) :
    (rangesText segs).length + 1 = (segs.map fun s => (segmentText s).length + 1).sum := by
  induction segs with
  | nil => exact absurd rfl h
  | cons s segs ih =>
    rw [rangesText, List.map_cons, List.sum_cons]
    by_cases hs : segs = []
    · rw [if_pos hs, hs]
      rfl
    · rw [if_neg hs, ← ih hs, List.length_append, List.length_cons]
      omega

theorem comma_not_mem (s : Int × Int) : ',' ∉ segmentText s :=
  not_mem_segmentText (by decide) (by decide) (by decide) s

theorem items_rangesText (h : segs ≠ []) : items (rangesText segs) = segs.reverse.map segmentText := by
  induction segs with
  | nil => exact absurd rfl h
  | cons s segs ih =>
    have hone : (segmentText s).splitOn ',' = [segmentText s] := List.splitOn_eq_singleton (comma_not_mem s)
    rw [rangesText, List.reverse_cons, List.map_append]
    by_cases hs : segs = []
    · rw [if_pos hs, hs, items, hone]
      rfl
    · rw [if_neg hs, items, List.splitOn_append_cons_self, hone, ← ih hs]
      rfl

theorem noEmpty_rangesText (h : segs ≠ []) : NoEmpty (rangesText segs) := by
  intro item hi
  rw [items_rangesText h] at hi
  obtain ⟨s, -, rfl⟩ := List.mem_map.mp hi
  exact segmentText_ne_nil s

theorem tokens_segmentText (s : Int × Int) :
    tokens ':' (segmentText s) = if s.1 = s.2 then [decimal s.1] else [decimal s.1, decimal s.2] := by
  have hcolon (n : Int) : ':' ∉ decimal n := not_mem_decimal n (by decide) (by decide)
  unfold segmentText
  split
  · exact tokens_eq_singleton (decimal_ne_nil _) (hcolon _)
  · rw [tokens_append_cons (decimal_ne_nil _) (hcolon _), tokens_eq_singleton (decimal_ne_nil _) (hcolon _)]

theorem isEnd_decimal (n : Int) : isEnd (decimal n) = false := by
  rw [isEnd, decide_eq_false_iff_not]
  intro h
  have he : 'e' ∈ ((decimal n).take 3).map Char.toLower := h ▸ List.mem_cons_self
  obtain ⟨c, hc, hlow⟩ := List.mem_map.mp he
  rcases isDigit_or_of_mem_decimal (List.mem_of_mem_take hc) with hd | rfl
  · have hnat : c.toNat ≤ 57 := (Char.isDigit_iff_toNat.mp hd).2
    have hupper : ¬ (c.val ≥ 'A'.val ∧ c.val ≤ 'Z'.val) := by
      rintro ⟨hge, -⟩
      have hge : 65 ≤ c.toNat := hge
      omega
    have hsame : c.toLower = c := dif_neg hupper
    rw [hsame] at hlow
    subst hlow
    revert hd
    decide
  · revert hlow
    decide

theorem readBound_decimal (h : toInt32 n = n) (max : Int) : readBound max (decimal n) = some n := by
  rw [readBound, isEnd_decimal, strtol_decimal_int32 h]
  rfl

theorem bounds_segmentText (h : toInt32 s.1 = s.1) (h' : toInt32 s.2 = s.2) (max : Int) :
    bounds max (segmentText s) = some (s.1, 1, s.2) := by
  unfold bounds
  rw [tokens_segmentText]
  by_cases hs : s.1 = s.2
  · rw [if_pos hs]
    dsimp only
    rw [readBound_decimal h, Option.map_some, ← hs]
  · rw [if_neg hs]
    dsimp only
    rw [readBound_decimal h, readBound_decimal h']
    rfl

theorem reads_segmentText (hm : toInt32 max = max) (hs : s.1 ≤ s.2) (h : toInt32 s.1 = s.1) (h' : toInt32 s.2 = s.2) :
    Reads max (segmentText s) := by
  have hr : InRange (segmentText s) := by
    have hread {n : Int} (hn : toInt32 n = n) : toInt32 (strtol (decimal n)) = strtol (decimal n) := by
      rw [strtol_decimal_int32 hn, hn]
    intro t ht _
    rw [tokens_segmentText] at ht
    split at ht
    · rw [List.mem_singleton.mp ht]
      exact hread h
    · rcases List.mem_cons.mp ht with rfl | ht
      · exact hread h
      · rw [List.mem_singleton.mp ht]
        exact hread h'
  exact readItem_of_bounds hm hr (bounds_segmentText h h' max) (by decide) hs

theorem itemValues_segmentText (h : toInt32 s.1 = s.1) (h' : toInt32 s.2 = s.2) (max : Int) :
    itemValues max (segmentText s) = progression s.1 1 s.2 := by
  rw [itemValues, bounds_segmentText h h']
  rfl

theorem foldl_pushSegment_ne_nil (h : l ≠ []) : l.foldl pushSegment [] ≠ [] :=
  fun he => segments_ne_nil h (by rw [segments, he]; rfl)

/-- The runs of a list are read as the list, if their text fits into the buffers of the parser. -/
theorem parse_rangesOf (hm : toInt32 max = max) (hl : l ≠ []) (hint : Ints l)
    (hlen : (rangesOf l).length < maxStringLength) :
    ∃ S, parse (rangesOf l) max = .ok S ∧ (∀ iv ∈ S.intervals, iv.Sound) ∧
      S.total = (S.intervals.map Interval.count).sum ∧ S.intervals.flatMap Interval.values = l := by
  have hne := foldl_pushSegment_ne_nil hl
  have hsegs : ∀ s ∈ segments l, toInt32 s.1 = s.1 ∧ toInt32 s.2 = s.2 := fun s hs =>
    ⟨hint _ (mem_of_mem_segments hs).1, hint _ (mem_of_mem_segments hs).2⟩
  have hitems : items (rangesOf l) = (segments l).map segmentText := items_rangesText hne
  have hreads : ∀ item ∈ items (rangesOf l), Reads max item := by
    intro item hi
    rw [hitems] at hi
    obtain ⟨s, hs, rfl⟩ := List.mem_map.mp hi
    exact reads_segmentText hm (le_of_mem_segments hs) (hsegs s hs).1 (hsegs s hs).2
  obtain ⟨S, hparse, hsound, htotal, hflat⟩ := parse_of_reads (noEmpty_rangesText hne) hlen hreads
  refine ⟨S, hparse, hsound, htotal, hflat.trans ?_⟩
  show (items (rangesOf l)).flatMap (itemValues max) = l
  rw [hitems, List.flatMap_map]
  refine Eq.trans ?_ (expand_segments l)
  refine List.flatMap_congr fun s hs => ?_
  exact itemValues_segmentText (hsegs s hs).1 (hsegs s hs).2 max

end OphidiaWorkflow.Subset
