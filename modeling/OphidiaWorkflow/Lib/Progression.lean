import Mathlib.Data.List.Range
import Mathlib.Algebra.Ring.Int.Defs
import Mathlib.Data.Int.Basic

/-! Arithmetic progressions, and a list of integers as its maximal runs of consecutive ones. -/
namespace OphidiaWorkflow.Lib

variable {start step stop v : Int} {l : List Int} {segs : List (Int × Int)} {s : Int × Int}

/-- `start`, `start + step`, `start + 2 * step` and so on, up to `stop`. -/
def progression (start step stop : Int) : List Int :=
  (List.range ((stop - start) / step + 1).toNat).map fun (k : Nat) => start + k * step

theorem length_progression (start step stop : Int) :
    (progression start step stop).length = ((stop - start) / step + 1).toNat := by
  rw [progression, List.length_map, List.length_range]

theorem progression_eq_nil (hs : 0 < step) (h : stop < start) : progression start step stop = [] := by
  have hdiv : (stop - start) / step < 0 := Int.ediv_neg_of_neg_of_pos (by omega) hs
  rw [progression, Int.toNat_of_nonpos (by omega)]
  rfl

theorem progression_cons (hs : 0 < step) (h : start ≤ stop) :
    progression start step stop = start :: progression (start + step) step stop := by
  have hdiv : (stop - (start + step)) / step = (stop - start) / step - 1 := by
    rw [show stop - (start + step) = stop - start + -1 * step by omega, Int.add_mul_ediv_right _ _ (Int.ne_of_gt hs)]
    rfl
  have hpos : 0 ≤ (stop - start) / step := Int.ediv_nonneg (by omega) (Int.le_of_lt hs)
  unfold progression
  rw [hdiv, show ((stop - start) / step + 1).toNat = ((stop - start) / step - 1 + 1).toNat + 1 by omega,
    List.range_succ_eq_map, List.map_cons, List.map_map]
  refine congrArg₂ List.cons (by simp) (List.map_congr_left fun k _ => ?_)
  rw [Function.comp_apply, Nat.cast_succ, add_mul, one_mul]
  omega

theorem progression_self (start : Int) : progression start 1 start = [start] := by
  rw [progression_cons (by decide) (Int.le_refl _), progression_eq_nil (by decide) (by omega)]

theorem mem_progression (hs : 0 < step) :
    v ∈ progression start step stop ↔ start ≤ v ∧ v ≤ stop ∧ step ∣ v - start := by
  unfold progression
  simp only [List.mem_map, List.mem_range]
  constructor
  · rintro ⟨k, hk, rfl⟩
    have hk : (k : Int) ≤ (stop - start) / step := by omega
    have hmul := (Int.le_ediv_iff_mul_le hs).mp hk
    have hnn : 0 ≤ (k : Int) * step := Int.mul_nonneg (Int.natCast_nonneg k) (Int.le_of_lt hs)
    exact ⟨by omega, by omega, ⟨k, by rw [Int.mul_comm]; omega⟩⟩
  · rintro ⟨h1, h2, k, hk⟩
    have hnn : 0 ≤ k := by
      by_contra hneg
      have := Int.mul_neg_of_pos_of_neg hs (Int.not_le.mp hneg)
      omega
    obtain ⟨n, rfl⟩ := Int.eq_ofNat_of_zero_le hnn
    have hle : (n : Int) ≤ (stop - start) / step := (Int.le_ediv_iff_mul_le hs).mpr (by rw [Int.mul_comm]; omega)
    exact ⟨n, by omega, by rw [Int.mul_comm]; omega⟩

theorem progression_concat (h : start ≤ stop) :
    progression start 1 (stop + 1) = progression start 1 stop ++ [stop + 1] := by
  unfold progression
  rw [Int.ediv_one, Int.ediv_one, show (stop + 1 - start + 1).toNat = (stop - start + 1).toNat + 1 by omega,
    List.range_succ, List.map_append, List.map_singleton]
  refine congrArg (_ ++ [·]) ?_
  omega

/-- One more number: it extends the last run, which stands first, or starts another. -/
def pushSegment : List (Int × Int) → Int → List (Int × Int)
  | [], v => [(v, v)]
  | s :: segs, v => if v = s.2 + 1 then (s.1, v) :: segs else (v, v) :: s :: segs

/-- The maximal runs of consecutive integers, by their ends. -/
def segments (l : List Int) : List (Int × Int) := (l.foldl pushSegment []).reverse

/-- The numbers of the runs. -/
def expandSegments (segs : List (Int × Int)) : List Int := segs.flatMap fun s => progression s.1 1 s.2

theorem le_of_mem_pushSegment (h : ∀ s ∈ segs, s.1 ≤ s.2) (hs : s ∈ pushSegment segs v) : s.1 ≤ s.2 := by
  cases segs with
  | nil =>
    cases List.mem_singleton.mp hs
    exact Int.le_refl _
  | cons t segs =>
    rw [pushSegment] at hs
    split at hs
    · rcases List.mem_cons.mp hs with rfl | hs
      · have ht := h t List.mem_cons_self
        show t.1 ≤ v
        omega
      · exact h s (List.mem_cons_of_mem _ hs)
    · rcases List.mem_cons.mp hs with rfl | hs
      · exact Int.le_refl _
      · exact h s hs

theorem expand_pushSegment (h : ∀ s ∈ segs, s.1 ≤ s.2) (v : Int) :
    expandSegments (pushSegment segs v).reverse = expandSegments segs.reverse ++ [v] := by
  unfold expandSegments
  cases segs with
  | nil => rw [pushSegment, List.reverse_singleton, List.flatMap_singleton, progression_self]; rfl
  | cons t segs =>
    rw [pushSegment]
    split
    · next hv =>
      simp only [List.reverse_cons, List.flatMap_append, List.flatMap_singleton, List.append_assoc]
      rw [hv, progression_concat (h t List.mem_cons_self)]
    · simp only [List.reverse_cons, List.flatMap_append, List.flatMap_singleton, progression_self]

theorem le_of_mem_foldl (hs : s ∈ l.foldl pushSegment []) : s.1 ≤ s.2 := by
  induction l using List.reverseRecOn generalizing s with
  | nil => cases hs
  | append_singleton l v ih =>
    rw [List.foldl_concat] at hs
    exact le_of_mem_pushSegment (fun s hs => ih hs) hs

theorem le_of_mem_segments (hs : s ∈ segments l) : s.1 ≤ s.2 := le_of_mem_foldl (List.mem_reverse.mp hs)

/-- The runs are those of the list. -/
theorem expand_segments (l : List Int) : expandSegments (segments l) = l := by
  induction l using List.reverseRecOn with
  | nil => rfl
  | append_singleton l v ih =>
    rw [segments, List.foldl_concat, expand_pushSegment (fun s hs => le_of_mem_foldl hs)]
    exact congrArg (· ++ [v]) ih

theorem mem_of_mem_segments (hs : s ∈ segments l) : s.1 ∈ l ∧ s.2 ∈ l := by
  have hle := le_of_mem_segments hs
  have hmem (v : Int) (hv : v ∈ progression s.1 1 s.2) : v ∈ l := by
    rw [← expand_segments l]
    exact List.mem_flatMap.mpr ⟨s, hs, hv⟩
  exact ⟨hmem _ ((mem_progression (by decide)).mpr ⟨Int.le_refl _, hle, Int.one_dvd _⟩),
    hmem _ ((mem_progression (by decide)).mpr ⟨hle, Int.le_refl _, Int.one_dvd _⟩)⟩

theorem segments_ne_nil (h : l ≠ []) : segments l ≠ [] := by
  intro he
  have hl := expand_segments l
  rw [he] at hl
  exact h hl.symm

end OphidiaWorkflow.Lib
