import Mathlib.Algebra.Ring.Nat
import OphidiaWorkflow.Lib.Cut
import OphidiaWorkflow.Lib.Decimal
import OphidiaWorkflow.Lib.Progression

/-!
`oph_subset_parse` of `oph_subset_library.c`: a condition such as `1:4,7,10:5:end` is read into intervals.

A `long` is an integer of 64 bits, an `unsigned long` a number below 2^64. The allocations succeed.
-/
namespace OphidiaWorkflow.Subset

open Lib

/-- `OPH_SUBSET_LIB_MAX_STRING_LENGTH`, the size of the buffers of the parser. -/
def maxStringLength : Nat := 1024

/-- `oph_subset_type` -/
inductive SubsetType
  | single | interval | stride
  deriving DecidableEq, Repr

/-- The conversion of a `long` to `unsigned long`, and back. -/
def toUlong (n : Int) : Nat := (n % 2 ^ 64).toNat
def toLong (n : Int) : Int := n.bmod (2 ^ 64)

/-- The entries of the arrays `type`, `start`, `end` and `stride` at one index. -/
structure Slot where
  type : SubsetType
  start : Int
  stop : Int
  stride : Nat
  deriving DecidableEq, Repr

/-- The entries with the one of `count`. -/
structure Interval extends Slot where
  count : Nat
  deriving DecidableEq, Repr

/-- `strncasecmp` with `OPH_SUBSET_LIB_PARAM_END` -/
def isEnd (t : List Char) : Bool := (t.take 3).map Char.toLower = "end".toList

/-- A number of the condition; `end` is an error if there is no `max`. -/
def readBound (max : Int) (t : List Char) : Option Int :=
  if isEnd t then if max ≠ 0 then some max else none else some (strtol t)

/-- The `switch` on the number of the parameters so far. -/
def readParam (max : Int) : Nat × Slot → List Char → Option (Nat × Slot)
  | (0, _), t => (readBound max t).map fun e => (1, ⟨.single, e, e, 1⟩)
  | (1, s), t => (readBound max t).map fun e => (2, { s with stop := e, type := .interval })
  | (2, s), t =>
    (readBound max t).map fun e =>
      (3, { s with stop := e, stride := toUlong s.stop, type := if 1 < toUlong s.stop then .stride else s.type })
  | _, _ => none

/-- The entries of an item without parameters. -/
def defaultSlot (max : Int) : Slot := ⟨.interval, 1, if max ≠ 0 then max else 1, 1⟩

/-- The check of the entries, and the one of `count`. -/
def Slot.finish (s : Slot) : Option Interval :=
  if s.stride = 0 ∨ s.stop < s.start then none
  else some { s with count := (1 + toUlong (s.stop - s.start) / s.stride) % 2 ^ 64 }

/-- One round of the loop over the items; `none` if the item is rejected. -/
def readItem (max : Int) (item : List Char) : Option Interval :=
  ((tokens ':' item).foldlM (readParam max) (0, defaultSlot max)).bind fun r => r.2.finish

/-- What the loop over the items has done: the intervals it has completed, and at how many indices it has written, a
rejected item included. -/
structure Scan where
  intervals : List Interval
  written : Nat
  accepted : Bool
  deriving DecidableEq, Repr

/-- The loop over the items. -/
def scan (max : Int) : List (List Char) → Scan
  | [] => ⟨[], 0, true⟩
  | item :: items =>
    match readItem max item with
    | none => ⟨[], 1, false⟩
    | some iv => ⟨iv :: (scan max items).intervals, (scan max items).written + 1, (scan max items).accepted⟩

/-- The pieces between the separators, as `strchr` finds them. -/
def items (cond : List Char) : List (List Char) := cond.splitOn ','

/-- `subset->number`: the pieces that `strtok_r` finds. The arrays have this size. -/
def number (cond : List Char) : Nat := (tokens ',' cond).length

/-- At how many indices of the arrays `oph_subset_parse` writes. -/
def written (cond : List Char) (max : Int) : Nat := if number cond = 0 then 0 else (scan max (items cond)).written

/-- `OPH_SUBSET_LIB_DATA_ERR`; `undefined`: a buffer or an array is left. -/
inductive SubsetError
  | dataErr | undefined
  deriving DecidableEq, Repr

/-- `oph_subset` -/
structure OphSubset where
  number : Nat
  intervals : List Interval
  total : Nat
  deriving DecidableEq, Repr

/-- `oph_subset_parse`, with the length of the condition for `len`. -/
def parse (cond : List Char) (max : Int) : Except SubsetError OphSubset :=
  if maxStringLength ≤ cond.length then .error .undefined
  else if number cond = 0 then .error .dataErr
  else if number cond < written cond max then .error .undefined
  else if (scan max (items cond)).accepted then
    .ok ⟨number cond, (scan max (items cond)).intervals,
      ((scan max (items cond)).intervals.map Interval.count).sum % 2 ^ 64⟩
  else .error .dataErr

section Arrays

variable {cond : List Char} {max : Int} {its : List (List Char)}

theorem number_add_count (cond : List Char) :
    number cond + (items cond).countP List.isEmpty = (items cond).length := by
  have hrest : (items cond).countP (fun t => decide ¬t.isEmpty = true) = (items cond).countP fun t => !t.isEmpty :=
    List.countP_congr fun t _ => by simp
  rw [number, tokens, ← List.countP_eq_length_filter, Nat.add_comm, List.length_eq_countP_add_countP List.isEmpty,
    hrest]
  rfl

/-- The items up to the first one that is rejected are those at whose indices something is written. -/
theorem written_scan (max : Int) (its : List (List Char)) :
    (scan max its).written + (its.dropWhile fun item => (readItem max item).isSome).tail.length = its.length := by
  induction its with
  | nil => rfl
  | cons item its ih =>
    rw [scan]
    cases h : readItem max item with
    | none =>
      rw [List.dropWhile_cons_of_neg (by rw [h]; decide), List.tail_cons, List.length_cons]
      exact Nat.add_comm _ _
    | some iv =>
      rw [List.dropWhile_cons_of_pos (by rw [h]; rfl), List.length_cons, ← ih]
      exact Nat.add_right_comm _ _ _

/-- The arrays are not left exactly if nothing is written, or after the first item that is rejected there are as many
items as there are empty ones in all. -/
theorem written_le_number_iff (cond : List Char) (max : Int) :
    written cond max ≤ number cond ↔ number cond = 0 ∨
      (items cond).countP List.isEmpty ≤
        ((items cond).dropWhile fun item => (readItem max item).isSome).tail.length := by
  have hnumber := number_add_count cond
  have hwritten := written_scan max (items cond)
  unfold written
  split
  · next h0 => exact iff_of_true (Nat.zero_le _) (.inl h0)
  · next h0 =>
    rw [or_iff_right h0]
    omega

/-- The empty item between the two others has an index, but there is no room for it. -/
theorem written_empty_item : ¬ written "1,,2".toList 0 ≤ number "1,,2".toList := by decide +kernel

end Arrays

/-- The first number, the step and the last number that an item asks for. -/
def bounds (max : Int) (item : List Char) : Option (Int × Int × Int) :=
  match tokens ':' item with
  | [] => some (1, 1, (defaultSlot max).stop)
  | [a] => (readBound max a).map fun a => (a, 1, a)
  | [a, b] => (readBound max a).bind fun a => (readBound max b).map fun b => (a, 1, b)
  | [a, s, b] =>
    (readBound max a).bind fun a => (readBound max s).bind fun s => (readBound max b).map fun b => (a, s, b)
  | _ => none

/-- The numbers that an item stands for. -/
def itemValues (max : Int) (item : List Char) : List Int :=
  (bounds max item).elim [] fun q => progression q.1 q.2.1 q.2.2

/-- The numbers of an interval. -/
def Interval.values (iv : Interval) : List Int := progression iv.start iv.stride iv.stop

/-- An interval of numbers of the type `int`. -/
structure Interval.Sound (iv : Interval) : Prop where
  stride_pos : 0 < iv.stride
  stride_lt : iv.stride < 2147483648
  le : iv.start ≤ iv.stop
  start_ge : -2147483648 ≤ iv.start
  stop_lt : iv.stop < 2147483648
  count : iv.count = iv.values.length

/-- All the numbers of the item are of the type `int`. -/
def InRange (item : List Char) : Prop := ∀ t ∈ tokens ':' item, isEnd t = false → toInt32 (strtol t) = strtol t

instance (item : List Char) : Decidable (InRange item) :=
  inferInstanceAs (Decidable (∀ t ∈ tokens ':' item, isEnd t = false → toInt32 (strtol t) = strtol t))

section Items

variable {cond item : List Char} {max a s b : Int} {iv : Interval} {its : List (List Char)}

theorem toUlong_one : toUlong 1 = 1 := by decide

/-- The entries of an item are made of its numbers. -/
theorem readItem_eq (max : Int) (item : List Char) : ∃ type, readItem max item =
    (bounds max item).bind fun q => Slot.finish ⟨type, q.1, q.2.2, toUlong q.2.1⟩ := by
  unfold readItem bounds
  -- by the number of parameters, the numbers read one after the other
  rcases tokens ':' item with _ | ⟨a, _ | ⟨s, _ | ⟨b, _ | ⟨c, ts⟩⟩⟩⟩
  · refine ⟨.interval, ?_⟩
    show Slot.finish (defaultSlot max) = Slot.finish ⟨.interval, 1, (defaultSlot max).stop, toUlong 1⟩
    rw [toUlong_one]
    rfl
  · refine ⟨.single, ?_⟩
    simp only [List.foldlM_cons, readParam]
    cases readBound max a with
    | none => rfl
    | some a =>
      show Slot.finish ⟨.single, a, a, 1⟩ = Slot.finish ⟨.single, a, a, toUlong 1⟩
      rw [toUlong_one]
  · refine ⟨.interval, ?_⟩
    simp only [List.foldlM_cons, readParam]
    cases readBound max a with
    | none => rfl
    | some a =>
      simp only [Option.map_some, Option.bind_some, Option.bind_eq_bind]
      cases readBound max s with
      | none => rfl
      | some b =>
        show Slot.finish ⟨.interval, a, b, 1⟩ = Slot.finish ⟨.interval, a, b, toUlong 1⟩
        rw [toUlong_one]
  · simp only [List.foldlM_cons, readParam]
    cases readBound max a with
    | none => exact ⟨.single, rfl⟩
    | some a =>
      simp only [Option.map_some, Option.bind_some, Option.bind_eq_bind]
      cases readBound max s with
      | none => exact ⟨.single, rfl⟩
      | some s =>
        simp only [Option.map_some, Option.bind_some]
        cases readBound max b with
        | none => exact ⟨.single, rfl⟩
        | some b => exact ⟨if 1 < toUlong s then .stride else .interval, rfl⟩
  · refine ⟨.single, ?_⟩
    simp only [List.foldlM_cons, readParam]
    cases readBound max a with
    | none => rfl
    | some a =>
      simp only [Option.map_some, Option.bind_some, Option.bind_eq_bind]
      cases readBound max s with
      | none => rfl
      | some s =>
        simp only [Option.map_some, Option.bind_some]
        cases readBound max b with
        | none => rfl
        | some b => rfl

theorem readBound_range {t : List Char} (hm : toInt32 max = max) (ht : isEnd t = false → toInt32 (strtol t) = strtol t)
    (h : readBound max t = some a) : -2147483648 ≤ a ∧ a < 2147483648 := by
  rw [← toInt32_eq_self_iff]
  unfold readBound at h
  split at h
  · split at h
    · exact Option.some.inj h ▸ hm
    · cases h
  · next he => exact Option.some.inj h ▸ ht (Bool.eq_false_iff.mpr he)

theorem bounds_range (hm : toInt32 max = max) (hr : InRange item) (h : bounds max item = some (a, s, b)) :
    (-2147483648 ≤ a ∧ a < 2147483648) ∧ (-2147483648 ≤ s ∧ s < 2147483648) ∧ -2147483648 ≤ b ∧ b < 2147483648 := by
  unfold InRange at hr
  unfold bounds at h
  generalize tokens ':' item = ts at hr h
  rcases ts with _ | ⟨t, _ | ⟨u, _ | ⟨v, _ | ⟨w, ts⟩⟩⟩⟩
  · cases h
    have hstop : -2147483648 ≤ (defaultSlot max).stop ∧ (defaultSlot max).stop < 2147483648 := by
      have := toInt32_eq_self_iff.mp hm
      simp only [defaultSlot]
      split <;> omega
    exact ⟨by decide, by decide, hstop⟩
  · obtain ⟨a, ha, h⟩ := Option.map_eq_some_iff.mp h
    cases h
    have hrange := readBound_range hm (hr t (by simp)) ha
    exact ⟨hrange, by decide, hrange⟩
  · obtain ⟨a, ha, h⟩ := Option.bind_eq_some_iff.mp h
    obtain ⟨b, hb, h⟩ := Option.map_eq_some_iff.mp h
    cases h
    exact ⟨readBound_range hm (hr t (by simp)) ha, by decide, readBound_range hm (hr u (by simp)) hb⟩
  · obtain ⟨a, ha, h⟩ := Option.bind_eq_some_iff.mp h
    obtain ⟨s, hs, h⟩ := Option.bind_eq_some_iff.mp h
    obtain ⟨b, hb, h⟩ := Option.map_eq_some_iff.mp h
    cases h
    exact ⟨readBound_range hm (hr t (by simp)) ha, readBound_range hm (hr u (by simp)) hs,
      readBound_range hm (hr v (by simp)) hb⟩
  · cases h

theorem toUlong_of_nonneg (h : 0 ≤ a) (h' : a < 2 ^ 64) : toUlong a = a.toNat := by
  rw [toUlong, Int.emod_eq_of_lt h h']

/-- An item with numbers in their order and a positive step is read as its interval. -/
theorem readItem_of_bounds (hm : toInt32 max = max) (hr : InRange item) (h : bounds max item = some (a, s, b))
    (hs : 0 < s) (hab : a ≤ b) : ∃ iv, readItem max item = some iv ∧ iv.Sound ∧ iv.values = itemValues max item := by
  obtain ⟨⟨ha, ha'⟩, ⟨-, hs'⟩, hb, hb'⟩ := bounds_range hm hr h
  obtain ⟨type, hread⟩ := readItem_eq max item
  have hstep : toUlong s = s.toNat := toUlong_of_nonneg (Int.le_of_lt hs) (by omega)
  have hcast : ((toUlong s : Nat) : Int) = s := by rw [hstep]; omega
  have hdiff : toUlong (b - a) = (b - a).toNat := toUlong_of_nonneg (by omega) (by omega)
  have hcount : (1 + toUlong (b - a) / toUlong s) % 2 ^ 64 = (progression a s b).length := by
    have hdiv : ((toUlong (b - a) / toUlong s : Nat) : Int) = (b - a) / s := by
      rw [Int.natCast_ediv, hcast, hdiff, Int.toNat_of_nonneg (by omega)]
    have hle : toUlong (b - a) / toUlong s ≤ toUlong (b - a) := Nat.div_le_self _ _
    rw [length_progression, ← hdiv]
    generalize toUlong (b - a) / toUlong s = q at hle
    rw [Nat.mod_eq_of_lt (by omega)]
    omega
  rw [h, Option.bind_some, Slot.finish, if_neg (by dsimp only; omega)] at hread
  refine ⟨_, hread, ⟨?_, ?_, hab, ha, hb', ?_⟩, ?_⟩
  · show 0 < toUlong s
    omega
  · show toUlong s < 2147483648
    omega
  · show _ = (progression a (toUlong s : Nat) b).length
    rw [hcast]
    exact hcount
  · show progression a (toUlong s : Nat) b = _
    rw [hcast, itemValues, h]
    rfl

/-- What the code asks of an item that it accepts. -/
theorem exists_bounds (h : readItem max item = some iv) : ∃ s, bounds max item = some (iv.start, s, iv.stop) ∧
    toUlong s ≠ 0 ∧ iv.start ≤ iv.stop := by
  obtain ⟨type, hread⟩ := readItem_eq max item
  rw [h] at hread
  obtain ⟨⟨a, s, b⟩, hb, hf⟩ := Option.bind_eq_some_iff.mp hread.symm
  unfold Slot.finish at hf
  split at hf
  · cases hf
  · next hok =>
    cases hf
    rw [not_or] at hok
    exact ⟨s, hb, hok.1, Int.not_lt.mp hok.2⟩

end Items

section Conditions

variable {cond : List Char} {max : Int} {iv : Interval} {ivs : List Interval} {its : List (List Char)}

/-- No item of the condition is empty. -/
def NoEmpty (cond : List Char) : Prop := ∀ item ∈ items cond, item ≠ []

instance (cond : List Char) : Decidable (NoEmpty cond) := inferInstanceAs (Decidable (∀ item ∈ items cond, item ≠ []))

/-- The item is read as an interval of its numbers. -/
def Reads (max : Int) (item : List Char) : Prop :=
  ∃ iv, readItem max item = some iv ∧ iv.Sound ∧ iv.values = itemValues max item

theorem number_of_noEmpty (h : NoEmpty cond) : number cond = (items cond).length := by
  have hcount := number_add_count cond
  rw [List.countP_eq_zero.mpr fun item hm he => h item hm (List.isEmpty_iff.mp he)] at hcount
  exact hcount

theorem number_pos (h : NoEmpty cond) : 0 < number cond := by
  rw [number_of_noEmpty h]
  exact List.length_pos_iff.mpr (List.splitOn_ne_nil _ _)

theorem written_le_of_noEmpty (h : NoEmpty cond) (max : Int) : written cond max ≤ number cond := by
  have hwritten := written_scan max (items cond)
  rw [number_of_noEmpty h]
  unfold written
  split
  · exact Nat.zero_le _
  · omega

theorem scan_rejected {item : List Char} (hm : item ∈ its) (h : readItem max item = none) :
    (scan max its).accepted = false := by
  induction its with
  | nil => cases hm
  | cons item' its ih =>
    rw [scan]
    cases hr : readItem max item' with
    | none => rfl
    | some iv =>
      rcases List.mem_cons.mp hm with rfl | hm
      · rw [h] at hr
        cases hr
      · exact ih hm

theorem parse_rejected (hn : NoEmpty cond) (hlen : cond.length < maxStringLength) {item : List Char}
    (hm : item ∈ items cond) (h : readItem max item = none) : parse cond max = .error .dataErr := by
  rw [parse, if_neg (Nat.not_le.mpr hlen), if_neg (Nat.ne_of_gt (number_pos hn)),
    if_neg (Nat.not_lt.mpr (written_le_of_noEmpty hn max)), scan_rejected hm h]
  rfl

theorem scan_accepted (h : ∀ item ∈ its, readItem max item ≠ none) : (scan max its).accepted = true := by
  induction its with
  | nil => rfl
  | cons item its ih =>
    obtain ⟨hitem, h⟩ := List.forall_mem_cons.mp h
    obtain ⟨iv, hiv⟩ := Option.ne_none_iff_exists'.mp hitem
    rw [scan, hiv]
    exact ih h

theorem parse_of_accepted (hn : NoEmpty cond) (hlen : cond.length < maxStringLength)
    (h : ∀ item ∈ items cond, readItem max item ≠ none) :
    parse cond max = .ok ⟨number cond, (scan max (items cond)).intervals,
      ((scan max (items cond)).intervals.map Interval.count).sum % 2 ^ 64⟩ := by
  rw [parse, if_neg (Nat.not_le.mpr hlen), if_neg (Nat.ne_of_gt (number_pos hn)),
    if_neg (Nat.not_lt.mpr (written_le_of_noEmpty hn max)), scan_accepted h, if_pos rfl]

theorem Reads.ne_none {item : List Char} (h : Reads max item) : readItem max item ≠ none := by
  obtain ⟨iv, hiv, -⟩ := h
  rw [hiv]
  exact Option.some_ne_none iv

theorem scan_of_reads (h : ∀ item ∈ its, Reads max item) :
    (scan max its).intervals.length = its.length ∧ (∀ iv ∈ (scan max its).intervals, iv.Sound) ∧
    (scan max its).intervals.flatMap Interval.values = its.flatMap (itemValues max) := by
  induction its with
  | nil => exact ⟨rfl, fun iv hm => absurd hm List.not_mem_nil, rfl⟩
  | cons item its ih =>
    obtain ⟨⟨iv, hr, hsound, hvalues⟩, h⟩ := List.forall_mem_cons.mp h
    obtain ⟨hlen, hall, hflat⟩ := ih h
    rw [scan, hr]
    refine ⟨congrArg (· + 1) hlen, List.forall_mem_cons.mpr ⟨hsound, hall⟩, ?_⟩
    rw [List.flatMap_cons, List.flatMap_cons, hvalues, hflat]

theorem Interval.Sound.length_values_le (h : iv.Sound) : iv.values.length ≤ 2 ^ 32 := by
  have hstart := h.start_ge
  have hstop := h.stop_lt
  have hle := h.le
  have hdiv : (iv.stop - iv.start) / (iv.stride : Int) ≤ iv.stop - iv.start := Int.ediv_le_self _ (by omega)
  rw [Interval.values, length_progression]
  omega

/-- The counts are those of the numbers, and do not overflow in their sum. -/
theorem sum_count (h : ∀ iv ∈ ivs, iv.Sound) : (ivs.map Interval.count).sum = (ivs.flatMap Interval.values).length ∧
    (ivs.flatMap Interval.values).length ≤ 2 ^ 32 * ivs.length := by
  induction ivs with
  | nil => exact ⟨rfl, Nat.le_refl _⟩
  | cons iv ivs ih =>
    obtain ⟨hiv, h⟩ := List.forall_mem_cons.mp h
    obtain ⟨hsum, hle⟩ := ih h
    have hbound := hiv.length_values_le
    rw [List.map_cons, List.sum_cons, List.flatMap_cons, List.length_append, List.length_cons, hsum, hiv.count,
      Nat.mul_succ]
    exact ⟨rfl, by omega⟩

/-- A condition whose items are all read as intervals is accepted, and stands for their numbers one after the other. -/
theorem parse_of_reads (hn : NoEmpty cond) (hlen : cond.length < maxStringLength)
    (h : ∀ item ∈ items cond, Reads max item) :
    ∃ S, parse cond max = .ok S ∧ (∀ iv ∈ S.intervals, iv.Sound) ∧ S.total = (S.intervals.map Interval.count).sum ∧
      S.intervals.flatMap Interval.values = (items cond).flatMap (itemValues max) := by
  obtain ⟨hivs, hall, hflat⟩ := scan_of_reads h
  obtain ⟨hsum, hle⟩ := sum_count hall
  have hitems : (items cond).length ≤ cond.length + 1 := by
    rw [items, length_splitOn]
    exact Nat.succ_le_succ List.count_le_length
  have hmul : 2 ^ 32 * (scan max (items cond)).intervals.length ≤ 2 ^ 32 * 1024 :=
    Nat.mul_le_mul_left _ (by rw [hivs]; exact Nat.le_trans hitems hlen)
  refine ⟨_, parse_of_accepted hn hlen fun item hi => (h item hi).ne_none, hall, Nat.mod_eq_of_lt ?_, hflat⟩
  rw [hsum]
  omega

theorem parse_long (h : maxStringLength ≤ cond.length) (max : Int) : parse cond max = .error .undefined := by
  rw [parse, if_pos h]

end Conditions

end OphidiaWorkflow.Subset
