import Mathlib.Algebra.Ring.Nat
import Mathlib.Data.List.Nodup

/-!
A part of a graph is replicated: the rest of the graph is linked to the copies as it is to the part itself. The edges
are given by lists, in which a node may occur more than once.
-/
namespace OphidiaWorkflow.Lib

variable {α κ : Type*}

/-- The nodes of a graph, a part of them, and the copies of that part: each branch has a copy of each node of the
part. -/
structure Replication (α κ : Type*) where
  node : α → Prop
  part : α → Bool
  branches : List κ
  copy : κ → α → α
  nodup : branches.Nodup
  fresh : ∀ q ∈ branches, ∀ a, node a → part a = true → ¬ node (copy q a)
  inj : ∀ q ∈ branches, ∀ q' ∈ branches, ∀ a a', node a → part a = true → node a' → part a' = true →
    copy q a = copy q' a' → q = q' ∧ a = a'

/-- Each edge is in the list of its source and in the list of its target, as often in the one as in the other. -/
def Mirrored [DecidableEq α] (out inn : α → List α) : Prop := ∀ a b, (out a).count b = (inn b).count a

namespace Replication

variable (R : Replication α κ)

/-- The edges of a copy in branch `q`, from those of the node it is a copy of. -/
def shift (q : κ) (l : List α) : List α := l.map fun a => if R.part a then R.copy q a else a

/-- The edges added to a node outside the part. -/
def copies (l : List α) : List α := l.flatMap fun a => if R.part a then R.branches.map fun q => R.copy q a else []

/-- Node `a`, or its copy. -/
def place : Option κ → α → α
  | none, a => a
  | some q, a => R.copy q a

/-- Only the nodes of the part have copies. -/
structure Valid (o : Option κ) (a : α) : Prop where
  node : R.node a
  copied : ∀ q ∈ o, q ∈ R.branches ∧ R.part a = true

/-- The edge between two nodes is there between these copies of them. -/
def joined [DecidableEq κ] : Option κ → Option κ → α → α → Bool
  | none, none, _, _ => true
  | none, some _, a, _ => !R.part a
  | some _, none, _, b => !R.part b
  | some q, some q', _, _ => q = q'

/-- The lists `out` become the lists `out'`. -/
structure Replicates (out out' : α → List α) : Prop where
  inside : ∀ a, R.node a → R.part a = true → out' a = out a
  outside : ∀ a, R.node a → R.part a = false → out' a = out a ++ R.copies (out a)
  copied : ∀ q ∈ R.branches, ∀ a, R.node a → R.part a = true → out' (R.copy q a) = R.shift q (out a)
  rest : ∀ b, (∀ o a, R.Valid o a → b ≠ R.place o a) → out' b = []

theorem joined_comm [DecidableEq κ] (o o' : Option κ) (a b : α) : R.joined o o' a b = R.joined o' o b a := by
  cases o <;> cases o' <;> simp only [joined, eq_comm]

variable {R}

theorem mem_shift {q : κ} {l : List α} {b : α} (hb : b ∈ R.shift q l) :
    b ∈ l ∨ ∃ a ∈ l, R.part a = true ∧ b = R.copy q a := by
  obtain ⟨a, ha, rfl⟩ := List.mem_map.mp hb
  split_ifs with hp
  · exact .inr ⟨a, ha, hp, rfl⟩
  · exact .inl ha

theorem mem_copies {l : List α} {b : α} (hb : b ∈ R.copies l) :
    ∃ q ∈ R.branches, ∃ a ∈ l, R.part a = true ∧ b = R.copy q a := by
  obtain ⟨a, ha, hb⟩ := List.mem_flatMap.mp hb
  split_ifs at hb with hp
  · obtain ⟨q, hq, rfl⟩ := List.mem_map.mp hb
    exact ⟨q, hq, a, ha, hp, rfl⟩
  · exact absurd hb List.not_mem_nil

/-- The graph is made of the nodes and their copies again. -/
theorem Replicates.exists_place {out out' : α → List α} (h : R.Replicates out out') (hn : ∀ a, ∀ b ∈ out a, R.node b)
    {a b : α}
    (hb : b ∈ out' a) : (∃ o a₀, R.Valid o a₀ ∧ a = R.place o a₀) ∧ ∃ o b₀, R.Valid o b₀ ∧ b = R.place o b₀ := by
  have hnode {c : α} (hc : R.node c) : R.Valid none c := ⟨hc, fun q hq => by cases hq⟩
  have hcopy {q : κ} {c : α} (hq : q ∈ R.branches) (hc : R.node c) (hp : R.part c = true) : R.Valid (some q) c := by
    refine ⟨hc, fun q' hq' => ?_⟩
    cases hq'
    exact ⟨hq, hp⟩
  by_cases ha : ∃ o a₀, R.Valid o a₀ ∧ a = R.place o a₀
  · refine ⟨ha, ?_⟩
    obtain ⟨o, a₀, hv, rfl⟩ := ha
    cases o with
    | none =>
      by_cases hp : R.part a₀ = true
      · rw [place, h.inside a₀ hv.node hp] at hb
        exact ⟨none, b, hnode (hn a₀ b hb), rfl⟩
      · rw [place, h.outside a₀ hv.node (Bool.not_eq_true _ ▸ hp), List.mem_append] at hb
        rcases hb with hb | hb
        · exact ⟨none, b, hnode (hn a₀ b hb), rfl⟩
        · obtain ⟨q, hq, c, hc, hpc, rfl⟩ := mem_copies hb
          exact ⟨some q, c, hcopy hq (hn a₀ c hc) hpc, rfl⟩
    | some q =>
      obtain ⟨hq, hp⟩ := hv.copied q rfl
      rw [place, h.copied q hq a₀ hv.node hp] at hb
      rcases mem_shift hb with hb | ⟨c, hc, hpc, rfl⟩
      · exact ⟨none, b, hnode (hn a₀ b hb), rfl⟩
      · exact ⟨some q, c, hcopy hq (hn a₀ c hc) hpc, rfl⟩
  · rw [h.rest a fun o a₀ hv he => ha ⟨o, a₀, hv, he⟩] at hb
    exact absurd hb List.not_mem_nil

theorem length_copies (l : List α) : (R.copies l).length = R.branches.length * l.countP R.part := by
  induction l with
  | nil => rfl
  | cons a l ih =>
    rw [copies, List.flatMap_cons, List.length_append, ← copies, ih, List.countP_cons]
    split_ifs
    · rw [List.length_map, Nat.mul_add, Nat.mul_one, Nat.add_comm]
    · rw [List.length_nil, Nat.zero_add, Nat.add_zero]

variable [DecidableEq α]

/-- The edges to the part, one node of it after the other. -/
theorem sum_count_cons (part : List α) (a : α) (l : List α) :
    (part.map fun b => (a :: l).count b).sum = (part.map fun b => l.count b).sum + part.count a := by
  induction part with
  | nil => rfl
  | cons b part ih =>
    have hb : (a :: l).count b = l.count b + if b == a then 1 else 0 := by
      rw [List.count_cons]
      exact congrArg (fun k => l.count b + k) (if_congr (by rw [beq_iff_eq, beq_iff_eq, eq_comm]) rfl rfl)
    rw [List.map_cons, List.map_cons, List.sum_cons, List.sum_cons, ih, hb, List.count_cons]
    omega

theorem countP_eq_sum_count {l part : List α} {p : α → Bool} (hn : part.Nodup) (hp : ∀ a ∈ l, p a = true ↔ a ∈ part) :
    l.countP p = (part.map fun a => l.count a).sum := by
  induction l with
  | nil =>
    clear hn hp
    induction part with
    | nil => rfl
    | cons b part ih => rw [List.map_cons, List.sum_cons, ← ih, List.count_nil, List.countP_nil]
  | cons a l ih =>
    rw [List.countP_cons, sum_count_cons, ih fun b hb => hp b (List.mem_cons_of_mem a hb)]
    by_cases ha : a ∈ part
    · rw [List.count_eq_one_of_mem hn ha, if_pos ((hp a List.mem_cons_self).mpr ha)]
    · rw [List.count_eq_zero.mpr ha, if_neg fun h => ha ((hp a List.mem_cons_self).mp h)]

section Counts

variable {l : List α} (hl : ∀ a ∈ l, R.node a) {q : κ} (hq : q ∈ R.branches)

include hl hq in
theorem count_shift_node {b : α} (hb : R.node b) :
    (R.shift q l).count b = if R.part b = true then 0 else l.count b := by
  induction l with
  | nil => simp [shift]
  | cons a l ih =>
    have ha := hl a List.mem_cons_self
    have ih := ih fun c hc => hl c (List.mem_cons_of_mem a hc)
    rw [shift, List.map_cons, List.count_cons, List.count_cons, ← shift, ih]
    by_cases hpa : R.part a = true
    · have hne : R.copy q a ≠ b := fun he => R.fresh q hq a ha hpa (he ▸ hb)
      by_cases hab : a = b
      · subst hab
        simp [hpa, hne]
      · simp [hpa, hne, hab]
    · by_cases hab : a = b
      · subst hab
        simp [hpa]
      · simp [hpa, hab]

include hl hq in
theorem count_shift_copy [DecidableEq κ] {q' : κ} (hq' : q' ∈ R.branches) {b : α} (hb : R.node b)
    (hpb : R.part b = true) : (R.shift q l).count (R.copy q' b) = if q = q' then l.count b else 0 := by
  induction l with
  | nil => simp [shift]
  | cons a l ih =>
    have ha := hl a List.mem_cons_self
    have ih := ih fun c hc => hl c (List.mem_cons_of_mem a hc)
    rw [shift, List.map_cons, List.count_cons, ← shift, ih]
    by_cases hpa : R.part a = true
    · have hiff : R.copy q a = R.copy q' b ↔ q = q' ∧ a = b := by
        constructor
        · exact R.inj q hq q' hq' a b ha hpa hb hpb
        · rintro ⟨rfl, rfl⟩
          rfl
      rw [if_pos hpa]
      by_cases hqq : q = q'
      · subst hqq
        simp [hiff, List.count_cons]
      · simp [hiff, hqq]
    · have hne : a ≠ R.copy q' b := fun he => R.fresh q' hq' b hb hpb (he ▸ ha)
      have hab : a ≠ b := by
        rintro rfl
        exact hpa hpb
      simp [hpa, hne, hab]

include hl in
theorem count_copies_node {b : α} (hb : R.node b) : (R.copies l).count b = 0 := by
  rw [List.count_eq_zero]
  intro hmem
  obtain ⟨a, ha, hb'⟩ := List.mem_flatMap.mp hmem
  split_ifs at hb' with hpa
  · obtain ⟨q, hq, rfl⟩ := List.mem_map.mp hb'
    exact R.fresh q hq a (hl a ha) hpa hb
  · exact List.not_mem_nil hb'

include hl hq in
theorem count_copies_copy {b : α} (hb : R.node b) (hpb : R.part b = true) :
    (R.copies l).count (R.copy q b) = l.count b := by
  induction l with
  | nil => simp [copies]
  | cons a l ih =>
    have ha := hl a List.mem_cons_self
    have ih := ih fun c hc => hl c (List.mem_cons_of_mem a hc)
    rw [copies, List.flatMap_cons, List.count_append, ← copies, ih, List.count_cons, Nat.add_comm]
    congr 1
    by_cases hpa : R.part a = true
    · rw [if_pos hpa]
      by_cases hab : a = b
      · -- the branches are distinct, and so are the copies of one node
        subst hab
        have hinj : ∀ q' ∈ R.branches, R.copy q' a = R.copy q a → q' = q :=
          fun q' hq' he => (R.inj q' hq' q hq a a ha hpa ha hpa he).1
        have hnodup : (R.branches.map fun q => R.copy q a).Nodup :=
          List.Nodup.map_on (fun q hq q' hq' he => (R.inj q hq q' hq' a a ha hpa ha hpa he).1) R.nodup
        rw [List.count_eq_one_of_mem hnodup (List.mem_map.mpr ⟨q, hq, rfl⟩)]
        simp
      · rw [List.count_eq_zero.mpr]
        · simp [hab]
        · intro hmem
          obtain ⟨q', hq', he⟩ := List.mem_map.mp hmem
          exact hab (R.inj q' hq' q hq a b ha hpa hb hpb he).2
    · have hab : a ≠ b := by
        rintro rfl
        exact hpa hpb
      simp [hpa, hab]

end Counts

section Graph

variable {out out' inn inn' : α → List α}

/-- The edges between the nodes and their copies, in terms of those between the nodes. -/
theorem Replicates.count_place [DecidableEq κ] (h : R.Replicates out out') (hn : ∀ a, ∀ b ∈ out a, R.node b)
    {o o' : Option κ} {a b : α} (ha : R.Valid o a) (hb : R.Valid o' b) :
    (out' (R.place o a)).count (R.place o' b) = if R.joined o o' a b then (out a).count b else 0 := by
  cases o with
  | none =>
    simp only [place]
    by_cases hp : R.part a = true
    · rw [h.inside a ha.node hp]
      cases o' with
      | none => rfl
      | some q =>
        obtain ⟨hq, hpb⟩ := hb.copied q rfl
        have hzero : (out a).count (R.copy q b) = 0 :=
          List.count_eq_zero.mpr fun hmem => R.fresh q hq b hb.node hpb (hn a _ hmem)
        simp [joined, hp, hzero]
    · rw [Bool.not_eq_true] at hp
      rw [h.outside a ha.node hp, List.count_append]
      cases o' with
      | none =>
        rw [count_copies_node (hn a) hb.node]
        rfl
      | some q =>
        obtain ⟨hq, hpb⟩ := hb.copied q rfl
        have hzero : (out a).count (R.copy q b) = 0 :=
          List.count_eq_zero.mpr fun hmem => R.fresh q hq b hb.node hpb (hn a _ hmem)
        rw [hzero, Nat.zero_add, count_copies_copy (hn a) hq hb.node hpb]
        simp [joined, hp]
  | some q =>
    obtain ⟨hq, hpa⟩ := ha.copied q rfl
    simp only [place]
    rw [h.copied q hq a ha.node hpa]
    cases o' with
    | none =>
      rw [count_shift_node (hn a) hq hb.node]
      by_cases hpb : R.part b = true
      · simp [joined, hpb]
      · simp [joined, hpb]
    | some q' =>
      obtain ⟨hq', hpb⟩ := hb.copied q' rfl
      rw [count_shift_copy (hn a) hq hq' hb.node hpb]
      simp [joined]

/-- The edges are still in both lists. -/
theorem Replicates.mirrored (h : R.Replicates out out') (h' : R.Replicates inn inn')
    (hn : ∀ a, ∀ b ∈ out a, R.node b) (hn' : ∀ a, ∀ b ∈ inn a, R.node b) (hm : Mirrored out inn) :
    Mirrored out' inn' := by
  classical
  have hplace (a b : α) (ha : ∃ o a₀, R.Valid o a₀ ∧ a = R.place o a₀) (hb : ∃ o b₀, R.Valid o b₀ ∧ b = R.place o b₀) :
      (out' a).count b = (inn' b).count a := by
    obtain ⟨o, a₀, ha, rfl⟩ := ha
    obtain ⟨o', b₀, hb, rfl⟩ := hb
    rw [h.count_place hn ha hb, h'.count_place hn' hb ha, R.joined_comm, hm a₀ b₀]
  intro a b
  by_cases hab : b ∈ out' a
  · obtain ⟨ha, hb⟩ := h.exists_place hn hab
    exact hplace a b ha hb
  · by_cases hba : a ∈ inn' b
    · obtain ⟨hb, ha⟩ := h'.exists_place hn' hba
      exact hplace a b ha hb
    · rw [List.count_eq_zero.mpr hab, List.count_eq_zero.mpr hba]

/-- No pair of nodes is joined by more edges than before. -/
theorem Replicates.count_le (h : R.Replicates out out') (hn : ∀ a, ∀ b ∈ out a, R.node b) {m : Nat}
    (hm : ∀ a b, (out a).count b ≤ m) (a b : α) : (out' a).count b ≤ m := by
  classical
  by_cases hab : b ∈ out' a
  · obtain ⟨⟨o, a₀, ha, rfl⟩, o', b₀, hb, rfl⟩ := h.exists_place hn hab
    rw [h.count_place hn ha hb]
    split_ifs
    · exact hm a₀ b₀
    · exact Nat.zero_le m
  · rw [List.count_eq_zero.mpr hab]
    exact Nat.zero_le m

end Graph

end Replication

end OphidiaWorkflow.Lib
