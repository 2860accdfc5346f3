import Mathlib.Data.List.Basic
import Mathlib.Logic.Relation

/-! Depth first traversals of a graph whose edges and marks are part of the state. -/
namespace OphidiaWorkflow.Lib

variable {σ α : Type*} {visit : σ → α → Option σ} {next : σ → α → List α}

/-- Each node of the list is visited, unless `visit` refuses it, and then the nodes that follow it, at most `fuel`
levels deep. -/
def traverse (visit : σ → α → Option σ) (next : σ → α → List α) : Nat → List α → σ → σ
  | 0 => fun _ s => s
  | fuel + 1 => fun l s => l.foldl (fun s a =>
      match visit s a with
      | none => s
      | some t => traverse visit next fuel (next t a) t) s

theorem traverse_cons (fuel : Nat) (a : α) (l : List α) (s : σ) :
    traverse visit next (fuel + 1) (a :: l) s = traverse visit next (fuel + 1) l
      (match visit s a with
      | none => s
      | some t => traverse visit next fuel (next t a) t) := rfl

theorem traverse_induct (P : σ → Prop) (hv : ∀ s a t, P s → visit s a = some t → P t) (fuel : Nat) (l : List α) {s : σ}
    (h : P s) : P (traverse visit next fuel l s) := by
  induction fuel generalizing l s with
  | zero => exact h
  | succ fuel ih =>
    unfold traverse
    induction l generalizing s with
    | nil => exact h
    | cons a l ihl =>
      rw [List.foldl_cons]
      apply ihl
      cases hs : visit s a with
      | none => exact h
      | some t => exact ih _ (hv s a t h hs)

/-! ## Traversals that close what they visit -/

/--
A node is visited unless it is closed, and the visit closes it. The nodes that follow it are then those of `nx`. Each
visit decreases `μ`, as long as the state meets `inv` and the node is valid.
-/
structure Closing (visit : σ → α → Option σ) (next : σ → α → List α) (closed : σ → α → Prop) (nx : α → List α)
    (inv : σ → Prop) (valid : α → Prop) (μ : σ → Nat) : Prop where
  refuse : ∀ s a, closed s a → visit s a = none
  accept : ∀ s a, inv s → valid a → ¬ closed s a →
    ∃ t, visit s a = some t ∧ closed t a ∧ μ t < μ s ∧ next t a = nx a
  keeps : ∀ s a t, inv s → visit s a = some t → inv t
  mono : ∀ s a t, visit s a = some t → ∀ b, closed s b → closed t b
  only : ∀ s a t, visit s a = some t → ∀ b, closed t b → closed s b ∨ b = a
  valid_next : ∀ a, valid a → ∀ b ∈ nx a, valid b

namespace Closing

variable {closed : σ → α → Prop} {nx : α → List α} {inv : σ → Prop} {valid : α → Prop} {μ : σ → Nat}

/-- What a traversal from the nodes of `l` has done when it goes from `s` to `t`. -/
structure Done (closed : σ → α → Prop) (nx : α → List α) (inv : σ → Prop) (μ : σ → Nat) (l : List α) (s t : σ) : Prop where
  inv : inv t
  measure : μ t ≤ μ s
  kept : ∀ b, closed s b → closed t b
  start : ∀ b ∈ l, closed t b
  follow : ∀ a, ¬ closed s a → closed t a → ∀ b ∈ nx a, closed t b

theorem done (h : Closing visit next closed nx inv valid μ) (fuel : Nat) (l : List α) (s : σ) (hs : inv s)
    (hl : ∀ a ∈ l, valid a) (hμ : μ s < fuel) : Done closed nx inv μ l s (traverse visit next fuel l s) := by
  induction fuel generalizing l s with
  | zero => exact absurd hμ (Nat.not_lt_zero _)
  | succ fuel ih =>
    unfold traverse
    induction l generalizing s with
    | nil => exact ⟨hs, Nat.le_refl _, fun _ hb => hb, fun _ hb => absurd hb List.not_mem_nil, fun a hn hc => absurd hc hn⟩
    | cons a l ihl =>
      have hl' : ∀ b ∈ l, valid b := fun b hb => hl b (List.mem_cons_of_mem _ hb)
      rw [List.foldl_cons]
      by_cases hc : closed s a
      · rw [h.refuse s a hc]
        have hd := ihl s hs hl' hμ
        refine ⟨hd.inv, hd.measure, hd.kept, fun b hb => ?_, hd.follow⟩
        rcases List.mem_cons.mp hb with rfl | hb
        · exact hd.kept b hc
        · exact hd.start b hb
      · obtain ⟨t, ht, hct, hμt, hnext⟩ := h.accept s a hs (hl a List.mem_cons_self) hc
        simp only [ht, hnext]
        -- first everything below `a`, then the rest of the list
        have hbelow := ih (nx a) t (h.keeps s a t hs ht) (h.valid_next a (hl a List.mem_cons_self)) (by omega)
        have hrest := ihl _ hbelow.inv hl' (by have := hbelow.measure; omega)
        have hkept (b : α) (hb : closed t b) : closed _ b := hrest.kept b (hbelow.kept b hb)
        refine ⟨hrest.inv, by have := hbelow.measure; have := hrest.measure; omega,
          fun b hb => hkept b (h.mono s a t ht b hb), fun b hb => ?_, fun c hn hcl b hb => ?_⟩
        · rcases List.mem_cons.mp hb with rfl | hb
          · exact hkept b hct
          · exact hrest.start b hb
        · by_cases hca : c = a
          · subst hca
            exact hrest.kept b (hbelow.start b hb)
          · by_cases hmid : closed (traverse visit next fuel (nx a) t) c
            · have hct' : ¬ closed t c := fun hc' => (h.only s a t ht c hc').elim hn hca
              exact hrest.kept b (hbelow.follow c hct' hmid b hb)
            · exact hrest.follow c hmid hcl b hb

/-- The nodes that are reached from `l` through nodes that are not closed at the start. -/
inductive Reached (closed : σ → α → Prop) (nx : α → List α) (l : List α) (s : σ) : α → Prop
  | start {b : α} (hb : b ∈ l) (hn : ¬ closed s b) : Reached closed nx l s b
  | follow {a b : α} (ha : Reached closed nx l s a) (hb : b ∈ nx a) (hn : ¬ closed s b) : Reached closed nx l s b

theorem Reached.not_closed {l : List α} {s : σ} {b : α} (h : Reached closed nx l s b) : ¬ closed s b := by
  cases h with
  | start _ hn => exact hn
  | follow _ _ hn => exact hn

theorem Reached.imp {τ : Type*} {closed' : τ → α → Prop} {l : List α} {s : σ} {s' : τ}
    (hc : ∀ b, ¬ closed s b → ¬ closed' s' b) {b : α} (h : Reached closed nx l s b) : Reached closed' nx l s' b := by
  induction h with
  | start hb hn => exact .start hb (hc _ hn)
  | follow _ hb hn ih => exact .follow ih hb (hc _ hn)

theorem Done.closed_of_reached {l : List α} {s t : σ} (h : Done closed nx inv μ l s t) {b : α}
    (hb : Reached closed nx l s b) : closed t b := by
  induction hb with
  | start hb _ => exact h.start _ hb
  | follow ha hb _ ih => exact h.follow _ ha.not_closed ih _ hb

end Closing

/-! ## Traversals that visit a node once for each path -/

/-- The nodes in the order in which they are visited, when neither their marks nor their edges change. -/
def walk (ok : α → Bool) (nx : α → List α) : Nat → List α → List α
  | 0, _ => []
  | fuel + 1, l => (l.filter ok).flatMap fun a => a :: walk ok nx fuel (nx a)

theorem traverse_eq_foldl_walk {ok : α → Bool} {nx : α → List α} {f : σ → α → σ} (P : σ → Prop)
    (hv : ∀ s a, P s → visit s a = if ok a then some (f s a) else none) (hn : ∀ s a, P s → next s a = nx a)
    (hP : ∀ s a, P s → P (f s a)) (fuel : Nat) (l : List α) {s : σ} (h : P s) :
    traverse visit next fuel l s = (walk ok nx fuel l).foldl f s ∧ P (traverse visit next fuel l s) := by
  induction fuel generalizing l s with
  | zero => exact ⟨rfl, h⟩
  | succ fuel ih =>
    unfold traverse walk
    induction l generalizing s with
    | nil => exact ⟨rfl, h⟩
    | cons a l ihl =>
      rw [List.foldl_cons, hv s a h]
      cases hok : ok a with
      | false => simpa [List.filter_cons, hok] using ihl h
      | true =>
        simp only [↓reduceIte, List.filter_cons, hok, List.flatMap_cons, List.cons_append, List.foldl_cons,
          List.foldl_append]
        obtain ⟨heq, hP'⟩ := ih (next (f s a) a) (hP s a h)
        rw [hn _ _ (hP s a h)] at heq hP' ⊢
        rw [← heq]
        exact ihl hP'

theorem mem_walk_succ {ok : α → Bool} {nx : α → List α} {fuel : Nat} {l : List α} {b : α} :
    b ∈ walk ok nx (fuel + 1) l ↔ ∃ a ∈ l, ok a = true ∧ (b = a ∨ b ∈ walk ok nx fuel (nx a)) := by
  simp only [walk, List.mem_flatMap, List.mem_filter, List.mem_cons, and_assoc]

theorem mem_walk_mono {ok ok' : α → Bool} {nx nx' : α → List α} (hok : ∀ a, ok a = true → ok' a = true)
    (hnx : ∀ a, ok a = true → nx' a = nx a) {fuel : Nat} {l : List α} {b : α} (h : b ∈ walk ok nx fuel l) :
    b ∈ walk ok' nx' fuel l := by
  induction fuel generalizing l with
  | zero => exact absurd h List.not_mem_nil
  | succ fuel ih =>
    obtain ⟨a, ha, hoka, hb⟩ := mem_walk_succ.mp h
    refine mem_walk_succ.mpr ⟨a, ha, hok a hoka, hb.imp_right fun hb => ?_⟩
    rw [hnx a hoka]
    exact ih hb

/-- A walk that follows all nodes, each to nodes of lower rank, comes to all that can be reached. -/
theorem mem_walk_iff {nx : α → List α} {rank : α → Nat} (hrank : ∀ a, ∀ b ∈ nx a, rank b < rank a) {fuel : Nat}
    {l : List α} (hl : ∀ a ∈ l, rank a < fuel) {b : α} :
    b ∈ walk (fun _ => true) nx fuel l ↔ ∃ a ∈ l, Relation.ReflTransGen (fun a b => b ∈ nx a) a b := by
  induction fuel generalizing l with
  | zero =>
    refine iff_of_false List.not_mem_nil ?_
    rintro ⟨a, ha, -⟩
    exact absurd (hl a ha) (Nat.not_lt_zero _)
  | succ fuel ih =>
    have hbelow (a : α) (ha : a ∈ l) := @ih (nx a) fun c hc => Nat.lt_of_lt_of_le (hrank a c hc) (Nat.le_of_lt_succ (hl a ha))
    rw [mem_walk_succ]
    constructor
    · rintro ⟨a, ha, -, rfl | hb⟩
      · exact ⟨b, ha, .refl⟩
      · obtain ⟨c, hc, hcb⟩ := (hbelow a ha).mp hb
        exact ⟨a, ha, .head hc hcb⟩
    · rintro ⟨a, ha, hab⟩
      rcases hab.cases_head with rfl | ⟨c, hc, hcb⟩
      · exact ⟨a, ha, rfl, .inl rfl⟩
      · exact ⟨a, ha, rfl, .inr ((hbelow a ha).mpr ⟨c, hc, hcb⟩)⟩

/-- What a traversal closes is on the walk through the nodes that are closed at its end. -/
theorem Closing.mem_walk {closed : σ → α → Prop} {ok : α → Bool} {nx : α → List α} {inv : σ → Prop} {valid : α → Prop}
    {μ : σ → Nat} (h : Closing visit next closed nx inv valid μ) (fuel : Nat) (l : List α) (s : σ) (hs : inv s)
    (hl : ∀ a ∈ l, valid a) (hok : ∀ c, ¬ closed s c → closed (traverse visit next fuel l s) c → ok c = true) {b : α}
    (hb : ¬ closed s b) (hc : closed (traverse visit next fuel l s) b) : b ∈ walk ok nx fuel l := by
  have hkept (fuel : Nat) (l : List α) {s : σ} {c : α} (hc : closed s c) : closed (traverse visit next fuel l s) c :=
    traverse_induct (fun t => closed t c) (fun s a t hs hv => h.mono s a t hv c hs) fuel l hc
  induction fuel generalizing l s b with
  | zero => exact absurd hc hb
  | succ fuel ih =>
    induction l generalizing s b with
    | nil => exact absurd hc hb
    | cons a l ihl =>
      have hl' : ∀ c ∈ l, valid c := fun c hc => hl c (List.mem_cons_of_mem _ hc)
      have hlater {b : α} (hb : b ∈ walk ok nx (fuel + 1) l) : b ∈ walk ok nx (fuel + 1) (a :: l) := by
        obtain ⟨c, hc, hrest⟩ := mem_walk_succ.mp hb
        exact mem_walk_succ.mpr ⟨c, List.mem_cons_of_mem _ hc, hrest⟩
      by_cases hca : closed s a
      · rw [traverse_cons, h.refuse s a hca] at hok hc
        exact hlater (ihl s hs hl' hok hb hc)
      · obtain ⟨t, ht, hct, -, hnext⟩ := h.accept s a hs (hl a List.mem_cons_self) hca
        have hit := h.keeps s a t hs ht
        rw [traverse_cons, ht] at hok hc
        simp only [hnext] at hok hc
        have hoka : ok a = true := hok a hca (hkept _ _ (hkept _ _ hct))
        have hback {c : α} (hc : ¬ closed t c) : ¬ closed s c := fun hcs => hc (h.mono s a t ht c hcs)
        -- `b` is closed below `a`, or later
        by_cases hmid : closed (traverse visit next fuel (nx a) t) b
        · refine mem_walk_succ.mpr ⟨a, List.mem_cons_self, hoka, ?_⟩
          by_cases hbt : closed t b
          · exact .inl ((h.only s a t ht b hbt).resolve_left hb)
          · exact .inr (ih (nx a) t hit (h.valid_next a (hl a List.mem_cons_self))
              (fun c hn hc => hok c (hback hn) (hkept _ _ hc)) hbt hmid)
        · have hinv : inv (traverse visit next fuel (nx a) t) :=
            traverse_induct inv (fun s a t hs hv => h.keeps s a t hs hv) fuel (nx a) hit
          exact hlater (ihl _ hinv hl' (fun c hn hc => hok c (hback fun hct => hn (hkept _ _ hct)) hc) hmid hc)

theorem Closing.Reached.follow_all {closed : σ → α → Prop} {nx : α → List α} {l : List α} {s : σ} {a b : α}
    (ha : Closing.Reached closed nx l s a) (hb : Closing.Reached closed nx (nx a) s b) : Closing.Reached closed nx l s b := by
  induction hb with
  | start hb hn => exact .follow ha hb hn
  | follow _ hb hn ih => exact .follow ih hb hn

theorem Closing.reached_of_mem_walk {closed : σ → α → Prop} {ok : α → Bool} {nx : α → List α} {s : σ}
    (hok : ∀ c, ok c = true → ¬ closed s c) {fuel : Nat} {l : List α} {b : α} (hb : b ∈ walk ok nx fuel l) :
    Closing.Reached closed nx l s b := by
  induction fuel generalizing l with
  | zero => exact absurd hb List.not_mem_nil
  | succ fuel ih =>
    obtain ⟨a, ha, hoka, rfl | hb⟩ := mem_walk_succ.mp hb
    · exact .start ha (hok b hoka)
    · exact (Closing.Reached.start ha (hok a hoka)).follow_all (ih hb)

/-- A traversal closes nothing but what it reaches. -/
theorem Closing.reached_of_closed {closed : σ → α → Prop} {nx : α → List α} {inv : σ → Prop} {valid : α → Prop}
    {μ : σ → Nat} (h : Closing visit next closed nx inv valid μ) (fuel : Nat) (l : List α) (s : σ) (hs : inv s)
    (hl : ∀ a ∈ l, valid a) {b : α} (hb : ¬ closed s b) (hc : closed (traverse visit next fuel l s) b) :
    Closing.Reached closed nx l s b := by
  classical
  have hwalk : b ∈ walk (fun c => decide (¬ closed s c)) nx fuel l :=
    h.mem_walk fuel l s hs hl (fun c hn _ => decide_eq_true hn) hb hc
  exact reached_of_mem_walk (fun c hc => of_decide_eq_true hc) hwalk

end OphidiaWorkflow.Lib
