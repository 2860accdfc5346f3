import Mathlib.Data.List.Basic
import Mathlib.Data.List.DropRight

/-! Cutting a text at the first or the last occurrence of a character, the way `strchr` and `strrchr` do. -/
namespace OphidiaWorkflow.Lib

variable {α : Type*} [DecidableEq α] {c : α} {s b a b' a' : List α}

/-- What stands before and after the first `c`. -/
def cutAt (c : α) : List α → Option (List α × List α)
  | [] => none
  | x :: xs => if x = c then some ([], xs) else (cutAt c xs).map fun p => (x :: p.1, p.2)

/-- The pieces that `strtok` finds: the separators are skipped, however many stand in a row. -/
def tokens (c : α) (s : List α) : List (List α) := (s.splitOn c).filter fun t => !t.isEmpty

/-- One call of `strtok`: the next piece, and what is left of the text. -/
def strtok (c : α) (s : List α) : Option (List α × List α) :=
  match s.dropWhile (· = c) with
  | [] => none
  | x :: t => some ((x :: t).takeWhile (· ≠ c), ((x :: t).dropWhile (· ≠ c)).tail)

/-- What has no `c` is passed. -/
theorem cutAt_append (h : c ∉ b) (s : List α) : cutAt c (b ++ s) = (cutAt c s).map fun p => (b ++ p.1, p.2) := by
  induction b with
  | nil => exact Option.map_id'.symm
  | cons x b ih =>
    rw [List.cons_append, cutAt, if_neg (List.ne_of_not_mem_cons h).symm, ih (List.not_mem_of_not_mem_cons h),
      Option.map_map]
    rfl

theorem cutAt_append_cons (a : List α) (h : c ∉ b) : cutAt c (b ++ c :: a) = some (b, a) := by
  rw [cutAt_append h, cutAt, if_pos rfl, Option.map_some, List.append_nil]

theorem cutAt_eq_none (h : c ∉ s) : cutAt c s = none := by
  rw [← List.append_nil s, cutAt_append h, cutAt, Option.map_none]

theorem eq_of_cutAt (h : cutAt c s = some (b, a)) : s = b ++ c :: a ∧ c ∉ b := by
  induction s generalizing b with
  | nil => cases h
  | cons x s ih =>
    rw [cutAt] at h
    split at h
    · next hx =>
      cases h
      exact ⟨hx ▸ rfl, List.not_mem_nil⟩
    · next hx =>
      obtain ⟨⟨b', a'⟩, hs, hp⟩ := Option.map_eq_some_iff.mp h
      cases hp
      obtain ⟨rfl, hb'⟩ := ih hs
      exact ⟨rfl, List.not_mem_cons_of_ne_of_not_mem (Ne.symm hx) hb'⟩

theorem length_lt_of_cutAt (h : cutAt c s = some (b, a)) : a.length < s.length := by
  rw [(eq_of_cutAt h).1, List.length_append, List.length_cons]
  omega

theorem not_mem_of_cutAt_none (h : cutAt c s = none) : c ∉ s := by
  induction s with
  | nil => exact List.not_mem_nil
  | cons x s ih =>
    rw [cutAt] at h
    split at h
    · cases h
    · next hx => exact List.not_mem_cons_of_ne_of_not_mem (Ne.symm hx) (ih (Option.map_eq_none_iff.mp h))

theorem splitOn_of_cutAt (h : cutAt c s = some (b, a)) : s.splitOn c = b :: a.splitOn c := by
  obtain ⟨rfl, hb⟩ := eq_of_cutAt h
  exact List.splitOn_append_cons_self_of_not_mem hb a

theorem splitOn_of_cutAt_none (h : cutAt c s = none) : s.splitOn c = [s] :=
  List.splitOn_eq_singleton (not_mem_of_cutAt_none h)

theorem length_splitOn (c : α) (s : List α) : (s.splitOn c).length = s.count c + 1 := by
  induction s with
  | nil => rfl
  | cons x s ih =>
    rw [List.splitOn_cons_eq_if_modifyHead, List.count_cons]
    split
    · rw [List.length_cons, ih]
    · rw [List.length_modifyHead, ih, Nat.add_zero]

/-- What stands up to the last `c`, which is the end of it, and after. -/
def cutLast (c : α) (s : List α) : List α × List α := (s.rdropWhile (· ≠ c), s.rtakeWhile (· ≠ c))

theorem cutLast_append_cons (b : List α) (h : c ∉ a) : cutLast c (b ++ c :: a) = (b ++ [c], a) := by
  have hcut : (b ++ c :: a).rdropWhile (· ≠ c) = b ++ [c] ∧ (b ++ c :: a).rtakeWhile (· ≠ c) = a := by
    induction a using List.reverseRecOn with
    | nil => exact ⟨List.rdropWhile_concat_neg _ _ _ (by simp), List.rtakeWhile_concat_neg _ _ _ (by simp)⟩
    | append_singleton a x ih =>
      have hx : x ≠ c := fun he => h (he ▸ List.mem_append_right _ (List.mem_singleton_self x))
      obtain ⟨hdrop, htake⟩ := ih fun ha => h (List.mem_append_left _ ha)
      rw [← List.cons_append, ← List.append_assoc]
      exact ⟨(List.rdropWhile_concat_pos _ _ _ (by simpa using hx)).trans hdrop,
        (List.rtakeWhile_concat_pos _ _ _ (by simpa using hx)).trans (congrArg (· ++ [x]) htake)⟩
  rw [cutLast, hcut.1, hcut.2]

theorem cutLast_of_not_mem (h : c ∉ s) : cutLast c s = ([], s) := by
  have hne : ∀ x ∈ s, decide (x ≠ c) = true := fun x hx => by simpa using fun he : x = c => h (he ▸ hx)
  rw [cutLast, List.rdropWhile_eq_nil_iff.mpr hne, List.rtakeWhile_eq_self_iff.mpr hne]

theorem exists_cutLast (h : c ∈ s) : ∃ b a, s = b ++ c :: a ∧ c ∉ a ∧ cutLast c s = (b ++ [c], a) := by
  obtain ⟨a, b, hs, ha⟩ := List.eq_append_cons_of_mem (List.mem_reverse.mpr h)
  have hs' : s = b.reverse ++ c :: a.reverse := by
    rw [← List.reverse_reverse s, hs]
    simp
  have ha' : c ∉ a.reverse := fun hm => ha (List.mem_reverse.mp hm)
  exact ⟨b.reverse, a.reverse, hs', ha', hs' ▸ cutLast_append_cons b.reverse ha'⟩

theorem mem_of_mem_splitOn {x : α} {t : List α} (ht : t ∈ s.splitOn c) (hx : x ∈ t) : x ∈ s := by
  induction s generalizing t with
  | nil =>
    rw [List.splitOn_nil, List.mem_singleton] at ht
    exact ht ▸ hx
  | cons y s ih =>
    rw [List.splitOn, List.splitOnP_cons_eq_if_modifyHead] at ht
    split at ht
    · rcases List.mem_cons.mp ht with rfl | ht
      · cases hx
      · exact List.mem_cons_of_mem _ (ih ht hx)
    · cases hs : s.splitOnP (· == c) with
      | nil =>
        rw [hs] at ht
        cases ht
      | cons u us =>
        rw [hs, List.modifyHead_cons] at ht
        rcases List.mem_cons.mp ht with rfl | ht
        · rcases List.mem_cons.mp hx with rfl | hx
          · exact List.mem_cons_self
          · exact List.mem_cons_of_mem _ (ih (by rw [List.splitOn, hs]; exact List.mem_cons_self) hx)
        · exact List.mem_cons_of_mem _ (ih (by rw [List.splitOn, hs]; exact List.mem_cons_of_mem _ ht) hx)

theorem mem_of_mem_tokens {x : α} {t : List α} (ht : t ∈ tokens c s) (hx : x ∈ t) : x ∈ s :=
  mem_of_mem_splitOn (List.mem_of_mem_filter ht) hx

theorem tokens_cons_self (c : α) (s : List α) : tokens c (c :: s) = tokens c s := by
  rw [tokens, List.splitOn, List.splitOnP_cons_eq_if_modifyHead, if_pos (beq_self_eq_true c)]
  rfl

theorem tokens_append_cons (hb : b ≠ []) (hc : c ∉ b) (s : List α) : tokens c (b ++ c :: s) = b :: tokens c s := by
  rw [tokens, List.splitOn_append_cons_self_of_not_mem hc, List.filter_cons_of_pos (by simpa using hb)]
  rfl

theorem not_mem_of_mem_splitOn {t : List α} (ht : t ∈ s.splitOn c) : c ∉ t := by
  induction s generalizing t with
  | nil =>
    rw [List.splitOn_nil, List.mem_singleton] at ht
    rw [ht]
    exact List.not_mem_nil
  | cons y s ih =>
    rw [List.splitOn, List.splitOnP_cons_eq_if_modifyHead] at ht
    split at ht
    · rcases List.mem_cons.mp ht with rfl | ht
      · exact List.not_mem_nil
      · exact ih ht
    · next hy =>
      obtain ⟨u, us, hs⟩ := List.exists_cons_of_ne_nil (List.splitOnP_ne_nil (· == c) s)
      rw [hs, List.modifyHead_cons] at ht
      rw [List.splitOn, hs] at ih
      rcases List.mem_cons.mp ht with rfl | ht
      · intro hc
        rcases List.mem_cons.mp hc with rfl | hc
        · exact hy (beq_self_eq_true _)
        · exact ih List.mem_cons_self hc
      · exact ih (List.mem_cons_of_mem _ ht)

theorem not_mem_of_mem_tokens {t : List α} (ht : t ∈ tokens c s) : c ∉ t :=
  not_mem_of_mem_splitOn (List.mem_of_mem_filter ht)

theorem ne_nil_of_mem_tokens {t : List α} (ht : t ∈ tokens c s) : t ≠ [] := by
  rintro rfl
  cases (List.mem_filter.mp ht).2

theorem tokens_eq_singleton (hs : s ≠ []) (hc : c ∉ s) : tokens c s = [s] := by
  rw [tokens, List.splitOn_eq_singleton hc]
  exact List.filter_cons_of_pos (by simpa using hs)

theorem tokens_dropWhile (c : α) (s : List α) : tokens c (s.dropWhile (· = c)) = tokens c s := by
  induction s with
  | nil => rfl
  | cons x s ih =>
    by_cases hx : x = c
    · rw [hx, tokens_cons_self, List.dropWhile_cons_of_pos (by simp), ih]
    · rw [List.dropWhile_cons_of_neg (by simpa using hx)]

/-- The calls find the pieces one after the other. -/
theorem tokens_of_strtok_none (h : strtok c s = none) : tokens c s = [] := by
  rw [strtok] at h
  rw [← tokens_dropWhile]
  split at h
  · next hs => rw [hs]; rfl
  · cases h

theorem tokens_of_strtok {t left : List α} (h : strtok c s = some (t, left)) :
    tokens c s = t :: tokens c left ∧ left.length < s.length := by
  rw [strtok] at h
  rw [← tokens_dropWhile]
  have hle : (s.dropWhile (· = c)).length ≤ s.length := (List.dropWhile_suffix _).length_le
  have hhead := List.head?_dropWhile_not (· = c) s
  split at h
  · cases h
  · next x u hs =>
    rw [hs] at hle hhead ⊢
    have hx : x ≠ c := by simpa using hhead
    have htext := (x :: u).takeWhile_append_dropWhile (p := (· ≠ c))
    have hpiece : c ∉ (x :: u).takeWhile (· ≠ c) := fun hm => by simpa using List.mem_takeWhile_imp hm
    have hne : (x :: u).takeWhile (· ≠ c) ≠ [] := by
      rw [List.takeWhile_cons_of_pos (by simpa using hx)]
      exact List.cons_ne_nil _ _
    cases h
    cases hrest : (x :: u).dropWhile (· ≠ c) with
    | nil =>
      rw [hrest, List.append_nil] at htext
      rw [htext] at hpiece ⊢
      exact ⟨tokens_eq_singleton (List.cons_ne_nil _ _) hpiece, Nat.lt_of_lt_of_le (Nat.succ_pos _) hle⟩
    | cons y left =>
      have hy : y = c := by
        have hstop := List.head?_dropWhile_not (fun z => decide (z ≠ c)) (x :: u)
        rw [hrest] at hstop
        simpa using hstop
      rw [hrest, hy] at htext
      have hlen := congrArg List.length htext
      have hpos := List.length_pos_iff.mpr hne
      rw [List.length_append, List.length_cons] at hlen
      refine ⟨?_, by rw [List.tail_cons]; omega⟩
      nth_rewrite 1 [← htext]
      exact tokens_append_cons hne hpiece left

theorem strtok_eq_none_iff : strtok c s = none ↔ ∀ x ∈ s, x = c := by
  have hall : s.dropWhile (· = c) = [] ↔ ∀ x ∈ s, x = c := by
    rw [List.dropWhile_eq_nil_iff]
    exact forall₂_congr fun x _ => decide_eq_true_iff
  rw [← hall, strtok]
  split
  · next hs => exact iff_of_true rfl hs
  · next hs => exact iff_of_false (fun h => nomatch h) (fun h => nomatch hs.symm.trans h)

theorem tokens_eq_nil_iff : tokens c s = [] ↔ ∀ x ∈ s, x = c := by
  rw [← strtok_eq_none_iff]
  refine ⟨fun h => ?_, tokens_of_strtok_none⟩
  cases hs : strtok c s with
  | none => rfl
  | some p => exact nomatch (tokens_of_strtok hs).1.symm.trans h

/-- Pieces that are written with a separator after each are found again. -/
theorem tokens_flatMap {ts : List (List α)} (h : ∀ t ∈ ts, t ≠ [] ∧ c ∉ t) :
    tokens c (ts.flatMap fun t => t ++ [c]) = ts := by
  induction ts with
  | nil => rfl
  | cons t ts ih =>
    obtain ⟨⟨hne, hc⟩, h⟩ := List.forall_mem_cons.mp h
    rw [List.flatMap_cons, List.append_assoc, List.singleton_append, tokens_append_cons hne hc, ih h]

theorem intercalate_concat {β : Type*} (sep : List β) {ls : List (List β)} (h : ls ≠ []) (l : List β) :
    sep.intercalate (ls ++ [l]) = sep.intercalate ls ++ (sep ++ l) := by
  induction ls with
  | nil => exact absurd rfl h
  | cons m ls ih =>
    cases ls with
    | nil =>
      rw [List.singleton_append, List.intercalate_cons_cons, List.intercalate_singleton, List.intercalate_singleton,
        List.append_assoc]
    | cons m' ls =>
      have hrest := ih (List.cons_ne_nil _ _)
      rw [List.cons_append, List.cons_append, List.intercalate_cons_cons, ← List.cons_append, hrest,
        List.intercalate_cons_cons]
      simp only [List.append_assoc]

/-- The length of the pieces, each with a separator. -/
def joinedLength {β : Type*} : List (List β) → Nat
  | [] => 0
  | t :: ts => t.length + 1 + joinedLength ts

theorem joinedLength_append {β : Type*} (ts us : List (List β)) :
    joinedLength (ts ++ us) = joinedLength ts + joinedLength us := by
  induction ts with
  | nil => exact (Nat.zero_add _).symm
  | cons t ts ih =>
    rw [List.cons_append, joinedLength, joinedLength, ih]
    omega

theorem length_lt_joinedLength {β : Type*} {t : List β} {ts : List (List β)} (h : t ∈ ts) :
    t.length < joinedLength ts := by
  obtain ⟨us, vs, rfl⟩ := List.append_of_mem h
  rw [joinedLength_append, joinedLength]
  omega

theorem length_flatMap_separator {β : Type*} (c : β) (ts : List (List β)) :
    (ts.flatMap fun t => t ++ [c]).length = joinedLength ts := by
  induction ts with
  | nil => rfl
  | cons t ts ih =>
    rw [List.flatMap_cons, List.length_append, ih, joinedLength, List.length_append, List.length_singleton]

theorem joinedLength_splitOn (c : α) (s : List α) : joinedLength (s.splitOn c) = s.length + 1 := by
  induction s with
  | nil => rfl
  | cons x s ih =>
    obtain ⟨u, us, hs⟩ := List.exists_cons_of_ne_nil (List.splitOn_ne_nil c s)
    rw [hs, joinedLength] at ih
    rw [List.splitOn_cons_eq_if_modifyHead, hs, List.length_cons]
    split
    · rw [joinedLength, joinedLength, List.length_nil]
      omega
    · rw [List.modifyHead_cons, joinedLength, List.length_cons]
      omega

/-- An empty piece is a separator that is skipped. -/
theorem joinedLength_tokens (c : α) (s : List α) :
    joinedLength (tokens c s) + (s.splitOn c).count [] = s.length + 1 := by
  rw [← joinedLength_splitOn c s, tokens]
  induction s.splitOn c with
  | nil => rfl
  | cons t ts ih =>
    cases t with
    | nil =>
      rw [List.filter_cons_of_neg (by simp), List.count_cons_self, joinedLength, List.length_nil]
      omega
    | cons x t =>
      rw [List.filter_cons_of_pos (by simp), List.count_cons_of_ne (by simp), joinedLength, joinedLength]
      omega

theorem tail_splitOn_cons_self (c : α) (s : List α) : ((c :: s).splitOn c).tail = s.splitOn c := by
  rw [List.splitOn_cons_eq_if_modifyHead, if_pos (beq_self_eq_true c), List.tail_cons]

/-- What is written before a text changes its first piece only. -/
theorem tail_splitOn_suffix (c : α) (q v : List α) : (v.splitOn c).tail <:+ ((q ++ v).splitOn c).tail := by
  induction q with
  | nil => exact List.suffix_rfl
  | cons x q ih =>
    obtain ⟨u, us, hs⟩ := List.exists_cons_of_ne_nil (List.splitOn_ne_nil c (q ++ v))
    rw [hs, List.tail_cons] at ih
    rw [List.cons_append, List.splitOn_cons_eq_if_modifyHead, hs]
    split
    · exact ih.trans (List.suffix_cons u us)
    · exact ih

/-- What is written before a text makes its pieces longer, and one of the pieces may be new. -/
theorem joinedLength_tokens_append_le (c : α) (q v : List α) :
    joinedLength (tokens c (q ++ v)) ≤ q.length + 1 + joinedLength (tokens c v) := by
  have hall := joinedLength_tokens c (q ++ v)
  have hrest := joinedLength_tokens c v
  have htail : (v.splitOn c).tail.count [] ≤ ((q ++ v).splitOn c).count [] :=
    ((tail_splitOn_suffix c q v).sublist.trans (List.tail_sublist _)).count_le []
  have hhead : (v.splitOn c).count [] ≤ (v.splitOn c).tail.count [] + 1 := by
    cases v.splitOn c with
    | nil => exact Nat.zero_le _
    | cons t ts =>
      rw [List.count_cons, List.tail_cons]
      split <;> omega
  rw [List.length_append] at hall
  omega

/-- A text that loses its end to a buffer loses the separator that stands there. -/
theorem take_eq_self_of_count {n : Nat} (h : (b ++ [c]).count c ≤ ((b ++ [c]).take n).count c) :
    (b ++ [c]).take n = b ++ [c] := by
  by_cases hn : b.length < n
  · exact List.take_of_length_le (by rw [List.length_append, List.length_singleton]; omega)
  · rw [List.take_append_of_le_length (Nat.not_lt.mp hn), List.count_append, List.count_singleton_self] at h
    have := (List.take_sublist n b).count_le c
    omega

theorem count_flatMap_le {β : Type*} {f g : β → List α} {l : List β} (h : ∀ x ∈ l, (f x).count c ≤ (g x).count c) :
    (l.flatMap f).count c ≤ (l.flatMap g).count c := by
  induction l with
  | nil => exact Nat.le_refl _
  | cons x l ih =>
    rw [List.flatMap_cons, List.flatMap_cons, List.count_append, List.count_append]
    exact Nat.add_le_add (h x List.mem_cons_self) (ih fun y hy => h y (List.mem_cons_of_mem _ hy))

/-- Pieces that never have more separators than expected, and not fewer in all, have as many each. -/
theorem count_le_of_flatMap {β : Type*} {f g : β → List α} {l : List β} (h : ∀ x ∈ l, (f x).count c ≤ (g x).count c)
    (hl : (l.flatMap g).count c ≤ (l.flatMap f).count c) : ∀ x ∈ l, (g x).count c ≤ (f x).count c := by
  induction l with
  | nil => exact fun x hx => absurd hx List.not_mem_nil
  | cons x l ih =>
    rw [List.flatMap_cons, List.flatMap_cons, List.count_append, List.count_append] at hl
    have hx := h x List.mem_cons_self
    have hr := count_flatMap_le fun y hy => h y (List.mem_cons_of_mem _ hy)
    refine List.forall_mem_cons.mpr ⟨by omega, ih (fun y hy => h y (List.mem_cons_of_mem _ hy)) (by omega)⟩

end OphidiaWorkflow.Lib
