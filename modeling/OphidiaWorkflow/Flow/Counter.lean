import OphidiaWorkflow.Text.Subset

/-!
The argument `counter` of a loop: `oph_for_impl` and `oph_workflow_parallel_fco` parse it with `oph_subset_parse` and
write the numbers of the intervals into the array `ivalues`, with the same loop.
-/
namespace OphidiaWorkflow.Subset

open Lib

/-- The `do` loop for one interval, with the entries left in the array and the next `value`, a `long`. -/
def fillInterval (iv : Interval) : Nat → Int → List Int
  | 0, _ => []
  | n + 1, value =>
    toInt32 value ::
      if 0 < n ∧ toLong (value + iv.stride) ≤ iv.stop then fillInterval iv n (toLong (value + iv.stride)) else []

/-- The loop over the intervals, with the entries left in the array. -/
def fill : Nat → List Interval → List Int
  | _, [] => []
  | n, iv :: ivs =>
    if n = 0 then []
    else fillInterval iv n iv.start ++ fill (n - (fillInterval iv n iv.start).length) ivs

/-- The entries of `ivalues` that are written. `ivalues_num` is an `int`; the allocation fails if it is negative. -/
def counters (S : OphSubset) : Option (List Int) :=
  if toInt32 S.total < 0 then none else some (fill (toInt32 S.total).toNat S.intervals)

/-- The item has a step that is not positive. -/
def BadStep (max : Int) (item : List Char) : Prop := ∃ a s b, bounds max item = some (a, s, b) ∧ s ≤ 0

instance (max : Int) (item : List Char) : Decidable (BadStep max item) :=
  decidable_of_iff (((bounds max item).any fun q => q.2.1 ≤ 0) = true) (by simp [BadStep, Option.any_eq_true])

/-- The condition is accepted or rejected. An accepted one has as many numbers as its intervals in all, and `ivalues` is
filled with them; a step that is not positive is rejected. -/
structure Expands (cond : List Char) (max : Int) : Prop where
  defined : parse cond max ≠ .error .undefined
  accepted : ∀ S, parse cond max = .ok S → S.total = (S.intervals.map Interval.count).sum ∧
    ∃ vs, counters S = some vs ∧ vs.length = S.total ∧ vs = (items cond).flatMap (itemValues max)
  rejected : (∃ item ∈ items cond, BadStep max item) → parse cond max = .error .dataErr

/-- The condition fits into the buffers, and an item is rejected, or every step is positive and there are fewer than 2^31
numbers. -/
def Expandable (cond : List Char) (max : Int) : Prop :=
  cond.length < maxStringLength ∧ ((∃ item ∈ items cond, readItem max item = none) ∨
    (∀ item ∈ items cond, ¬ BadStep max item) ∧ ((items cond).flatMap (itemValues max)).length < 2147483648)

variable {cond : List Char} {max value : Int} {iv : Interval} {ivs : List Interval} {n : Nat} {vs : List Int}
  {S : OphSubset}

theorem length_fillInterval_le (iv : Interval) (n : Nat) (value : Int) : (fillInterval iv n value).length ≤ n := by
  induction n generalizing value with
  | zero => exact Nat.le_refl _
  | succ n ih =>
    rw [fillInterval, List.length_cons]
    split
    · exact Nat.succ_le_succ (ih _)
    · exact Nat.succ_le_succ (Nat.zero_le _)

theorem length_fill_le (n : Nat) (ivs : List Interval) : (fill n ivs).length ≤ n := by
  induction ivs generalizing n with
  | nil => exact Nat.zero_le _
  | cons iv ivs ih =>
    rw [fill]
    split
    · exact Nat.zero_le _
    · have hiv := length_fillInterval_le iv n iv.start
      have hivs := ih (n - (fillInterval iv n iv.start).length)
      rw [List.length_append]
      omega

/-- In an interval of numbers of the type `int` nothing overflows. -/
theorem fillInterval_eq (h : iv.Sound) (hv : iv.start ≤ value) (hv' : value ≤ iv.stop) (n : Nat) :
    fillInterval iv n value = (progression value iv.stride iv.stop).take n := by
  have hpos := h.stride_pos
  have hlt := h.stride_lt
  have hstart := h.start_ge
  have hstop := h.stop_lt
  induction n generalizing value with
  | zero => rfl
  | succ n ih =>
    have hint : toInt32 value = value := toInt32_eq_self_iff.mpr ⟨by omega, by omega⟩
    have hlong : toLong (value + iv.stride) = value + iv.stride := Int.bmod_eq_of_le (by omega) (by omega)
    rw [fillInterval, hint, hlong, progression_cons (by omega) hv', List.take_succ_cons]
    congr 1
    split
    · next hnext => exact ih (by omega) hnext.2
    · next hnext =>
      cases n with
      | zero => rfl
      | succ n => rw [progression_eq_nil (by omega) (by omega), List.take_nil]

theorem fill_eq (h : ∀ iv ∈ ivs, iv.Sound) (n : Nat) : fill n ivs = (ivs.flatMap Interval.values).take n := by
  induction ivs generalizing n with
  | nil => exact List.take_nil.symm
  | cons iv ivs ih =>
    obtain ⟨hiv, h⟩ := List.forall_mem_cons.mp h
    have hfirst : fillInterval iv n iv.start = iv.values.take n := fillInterval_eq hiv (Int.le_refl _) hiv.le n
    rw [fill, List.flatMap_cons, List.take_append, hfirst, ih h, List.length_take]
    split
    · next h0 => rw [h0, List.take_zero, Nat.zero_sub, List.take_zero, List.append_nil]
    · congr 2
      omega

theorem length_counters (h : counters S = some vs) : vs.length < 2147483648 := by
  unfold counters at h
  split at h
  · cases h
  · cases h
    have hle := length_fill_le (toInt32 S.total).toNat S.intervals
    have hlt : toInt32 S.total < 2147483648 := (toInt32_eq_self_iff.mp (toInt32_toInt32 S.total)).2
    omega

/-- The array takes the numbers of the intervals if there are fewer than 2^31. -/
theorem counters_eq (h : ∀ iv ∈ S.intervals, iv.Sound) (ht : S.total = (S.intervals.map Interval.count).sum)
    (hlt : (S.intervals.flatMap Interval.values).length < 2147483648) :
    counters S = some (S.intervals.flatMap Interval.values) := by
  have htotal : S.total = (S.intervals.flatMap Interval.values).length := ht.trans (sum_count h).1
  have hint : toInt32 S.total = S.total := toInt32_eq_self_iff.mpr ⟨by omega, by omega⟩
  rw [counters, hint, if_neg (by omega), Int.toNat_natCast, fill_eq h, htotal, List.take_length]

theorem reads_of_readItem {item : List Char} (hm : toInt32 max = max) (hr : InRange item)
    (h : readItem max item = some iv) (hs : ¬ BadStep max item) : Reads max item := by
  obtain ⟨s, hb, -, hle⟩ := exists_bounds h
  have hpos : 0 < s := Int.not_le.mp fun hneg => hs ⟨_, s, _, hb, hneg⟩
  exact readItem_of_bounds hm hr hb hpos hle

/-- The numbers of an accepted condition without bad steps. -/
theorem parse_of_items (hm : toInt32 max = max) (hn : NoEmpty cond) (hr : ∀ item ∈ items cond, InRange item)
    (hlen : cond.length < maxStringLength) (hacc : ∀ item ∈ items cond, readItem max item ≠ none)
    (hs : ∀ item ∈ items cond, ¬ BadStep max item) :
    ∃ S, parse cond max = .ok S ∧ (∀ iv ∈ S.intervals, iv.Sound) ∧ S.total = (S.intervals.map Interval.count).sum ∧
      S.intervals.flatMap Interval.values = (items cond).flatMap (itemValues max) := by
  refine parse_of_reads hn hlen fun item hi => ?_
  obtain ⟨iv, hiv⟩ := Option.ne_none_iff_exists'.mp (hacc item hi)
  exact reads_of_readItem hm (hr item hi) hiv (hs item hi)

theorem expands_of_expandable (hm : toInt32 max = max) (hn : NoEmpty cond) (hr : ∀ item ∈ items cond, InRange item)
    (h : Expandable cond max) : Expands cond max := by
  obtain ⟨hlen, h⟩ := h
  by_cases hrej : ∃ item ∈ items cond, readItem max item = none
  · obtain ⟨item, hi, hnone⟩ := hrej
    have hparse := parse_rejected hn hlen hi hnone
    refine ⟨fun he => ?_, fun S hS => ?_, fun _ => hparse⟩
    · rw [hparse] at he
      cases he
    · rw [hparse] at hS
      cases hS
  · obtain ⟨hs, hlt⟩ := h.resolve_left hrej
    obtain ⟨S, hparse, hsound, htotal, hflat⟩ :=
      parse_of_items hm hn hr hlen (fun item hi hnone => hrej ⟨item, hi, hnone⟩) hs
    refine ⟨fun he => ?_, fun S' hS' => ?_, fun ⟨item, hi, hbad⟩ => absurd hbad (hs item hi)⟩
    · rw [hparse] at he
      cases he
    · rw [hparse] at hS'
      cases hS'
      refine ⟨htotal, _, counters_eq hsound htotal (hflat ▸ hlt), ?_, hflat⟩
      rw [htotal, (sum_count hsound).1]

theorem expandable_of_expands (hm : toInt32 max = max) (hn : NoEmpty cond) (hr : ∀ item ∈ items cond, InRange item)
    (h : Expands cond max) : Expandable cond max := by
  have hlen : cond.length < maxStringLength := Nat.not_le.mp fun hlong => h.defined (parse_long hlong max)
  refine ⟨hlen, ?_⟩
  by_cases hrej : ∃ item ∈ items cond, readItem max item = none
  · exact .inl hrej
  · have hacc : ∀ item ∈ items cond, readItem max item ≠ none := fun item hi hnone => hrej ⟨item, hi, hnone⟩
    have hs : ∀ item ∈ items cond, ¬ BadStep max item := by
      intro item hi hbad
      -- without a rejected item the condition is accepted
      have hparse := h.rejected ⟨item, hi, hbad⟩
      rw [parse_of_accepted hn hlen hacc] at hparse
      cases hparse
    obtain ⟨S, hparse, hsound, htotal, hflat⟩ := parse_of_items hm hn hr hlen hacc hs
    obtain ⟨vs, hvs, hlength, rfl⟩ := (h.accepted S hparse).2
    exact .inr ⟨hs, length_counters hvs⟩

/-- The condition is expanded as it should be exactly if it is expandable. -/
theorem expands_iff_expandable (hm : toInt32 max = max) (hn : NoEmpty cond) (hr : ∀ item ∈ items cond, InRange item) :
    Expands cond max ↔ Expandable cond max :=
  ⟨expandable_of_expands hm hn hr, expands_of_expandable hm hn hr⟩

theorem expands_ten : Expands "1:3,10:5:20".toList 0 :=
  (expands_iff_expandable (by decide) (by decide +kernel) (by decide +kernel)).mpr
    ⟨by decide, .inr ⟨by decide +kernel, by decide +kernel⟩⟩

/-- The interval with a negative step is accepted, and takes the place of the next one. -/
theorem not_expands_negative_step : ¬ Expands "1:-1:5,7".toList 0 ∧
    (parse "1:-1:5,7".toList 0).toOption.bind counters = some [1, 0] := by
  refine ⟨fun h => ?_, by decide +kernel⟩
  have hbad : BadStep 0 "1:-1:5".toList := ⟨1, -1, 5, by decide +kernel, by decide⟩
  have hparse := h.rejected ⟨"1:-1:5".toList, by decide +kernel, hbad⟩
  revert hparse
  decide +kernel

end OphidiaWorkflow.Subset
