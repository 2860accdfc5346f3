import Mathlib.Data.List.Basic
import Mathlib.Data.List.Nodup
import Mathlib.Data.List.Range
import OphidiaWorkflow.Lib.Heap

/-! Singly linked lists in a heap. -/
namespace OphidiaWorkflow.Lib

/-- A block of a list: its entry, and the pointer to the next block. -/
structure Cell (ε : Type*) where
  entry : ε
  next : Option Nat := none

variable {ε : Type*} {h h' : Heap (Cell ε)} {cs ds : List (Nat × ε)} {c : Nat × ε} {p q : Option Nat} {b : Nat} {e : ε}

/-- The first block of the list, or the pointer that comes after it. -/
def first (cs : List (Nat × ε)) (p : Option Nat) : Option Nat := cs.head?.elim p fun c => some c.1

/-- The blocks are linked in this order, and the last one to `p`. -/
def Linked (h : Heap (Cell ε)) : List (Nat × ε) → Option Nat → Prop
  | [], _ => True
  | c :: cs, p => h.load c.1 = some ⟨c.2, first cs p⟩ ∧ Linked h cs p

@[simp] theorem first_nil (p : Option Nat) : first ([] : List (Nat × ε)) p = p := rfl

@[simp] theorem first_cons (c : Nat × ε) (cs : List (Nat × ε)) (p : Option Nat) : first (c :: cs) p = some c.1 := rfl

theorem first_append (cs ds : List (Nat × ε)) (p : Option Nat) : first (cs ++ ds) p = first cs (first ds p) := by
  cases cs <;> rfl

theorem linked_append : Linked h (cs ++ ds) p ↔ Linked h cs (first ds p) ∧ Linked h ds p := by
  induction cs with
  | nil => exact (and_iff_right trivial).symm
  | cons c cs ih =>
    show h.load c.1 = some ⟨c.2, first (cs ++ ds) p⟩ ∧ Linked h (cs ++ ds) p ↔ (_ ∧ Linked h cs _) ∧ _
    rw [ih, first_append, and_assoc]

theorem Linked.frame (hl : Linked h cs p) (hf : ∀ c ∈ cs, h'.load c.1 = h.load c.1) : Linked h' cs p := by
  induction cs with
  | nil => trivial
  | cons c cs ih =>
    refine ⟨?_, ih hl.2 fun c' hc' => hf c' (List.mem_cons_of_mem _ hc')⟩
    rw [hf c List.mem_cons_self]
    exact hl.1

theorem Linked.load_of_mem (hl : Linked h cs p) (hc : c ∈ cs) : ∃ q, h.load c.1 = some ⟨c.2, q⟩ := by
  induction cs with
  | nil => cases hc
  | cons c' cs ih =>
    rcases List.mem_cons.mp hc with rfl | hc
    · exact ⟨_, hl.1⟩
    · exact ih hl.2 hc

theorem Linked.lt_next (hl : Linked h cs p) (hc : c ∈ cs) : c.1 < h.next := by
  obtain ⟨q, hq⟩ := hl.load_of_mem hc
  exact Heap.lt_next_of_load hq

theorem ne_of_not_mem_fst (hb : b ∉ cs.map Prod.fst) (hc : c ∈ cs) : c.1 ≠ b := by
  rintro rfl
  exact hb (List.mem_map_of_mem hc)

theorem first_ne (hcs : cs ≠ []) (hb : b ∉ cs.map Prod.fst) (p : Option Nat) : first cs p ≠ some b := by
  cases cs with
  | nil => exact absurd rfl hcs
  | cons c cs =>
    intro he
    exact ne_of_not_mem_fst hb List.mem_cons_self (Option.some.inj he)

theorem Linked.free (hl : Linked h cs p) (hb : b ∉ cs.map Prod.fst) : Linked (h.free b) cs p :=
  hl.frame fun _ hc => Heap.load_free_ne (ne_of_not_mem_fst hb hc)

theorem Linked.modify (hl : Linked h cs p) (hb : b ∉ cs.map Prod.fst) (f : Cell ε → Cell ε) :
    Linked (h.modify b f) cs p :=
  hl.frame fun _ hc => Heap.load_modify_ne (ne_of_not_mem_fst hb hc) f

theorem Linked.alloc (hl : Linked h cs p) (c : Cell ε) : Linked (h.alloc c) cs p :=
  hl.frame fun _ hc => Heap.load_alloc_ne (Nat.ne_of_lt (hl.lt_next hc)) c

theorem Linked.relink (hl : Linked h (cs ++ [(b, e)]) p) (hb : b ∉ cs.map Prod.fst) (q : Option Nat) :
    Linked (h.modify b fun c => { c with next := q }) (cs ++ [(b, e)]) q := by
  rw [linked_append] at hl ⊢
  refine ⟨hl.1.modify hb _, ?_, trivial⟩
  rw [Heap.load_modify_self, hl.2.1]
  rfl

theorem first_map {f : Nat × ε → Nat × ε} (hf : ∀ c, (f c).1 = c.1) (cs : List (Nat × ε)) (p : Option Nat) :
    first (cs.map f) p = first cs p := by
  cases cs with
  | nil => rfl
  | cons c cs => exact congrArg some (hf c)

/-- An entry that is written leaves the links alone. -/
theorem Linked.modifyEntry (hl : Linked h cs p) (b : Nat) (f : ε → ε) :
    Linked (h.modify b fun c => { c with entry := f c.entry })
      (cs.map fun c => if c.1 = b then (c.1, f c.2) else c) p := by
  induction cs with
  | nil => trivial
  | cons c cs ih =>
    have hfirst := first_map (fun c => by split <;> rfl : ∀ c : Nat × ε, (if c.1 = b then (c.1, f c.2) else c).1 = c.1)
      cs p
    refine ⟨?_, ih hl.2⟩
    dsimp only
    rw [hfirst]
    by_cases hb : c.1 = b
    · rw [if_pos hb, hb, Heap.load_modify_self, ← hb, hl.1]
      rfl
    · rw [if_neg hb, Heap.load_modify_ne hb]
      exact hl.1

theorem Linked.length_le (hl : Linked h cs p) (hn : (cs.map Prod.fst).Nodup) : cs.length ≤ h.next := by
  have hsub : cs.map Prod.fst ⊆ List.range h.next := by
    intro b hb
    obtain ⟨c, hc, rfl⟩ := List.mem_map.mp hb
    exact List.mem_range.mpr (hl.lt_next hc)
  have hlen := hn.length_le_of_subset hsub
  rwa [List.length_map, List.length_range] at hlen

/-- The blocks that are met from a pointer on. -/
def cellsFrom (h : Heap (Cell ε)) : Nat → Option Nat → List (Nat × ε)
  | n + 1, some b => (h.load b).elim [] fun c => (b, c.entry) :: cellsFrom h n c.next
  | _, _ => []

theorem Linked.cellsFrom_eq (hl : Linked h cs none) {n : Nat} (hn : cs.length ≤ n) :
    cellsFrom h n (first cs none) = cs := by
  induction cs generalizing n with
  | nil => cases n <;> rfl
  | cons c cs ih =>
    cases n with
    | zero => cases hn
    | succ n =>
      show (h.load c.1).elim [] _ = _
      rw [hl.1]
      exact congrArg (c :: ·) (ih hl.2 (Nat.le_of_succ_le_succ hn))

/-- The pointer to the next block is written; none if the block has been freed. -/
def setNext (h : Heap (Cell ε)) (b : Nat) (q : Option Nat) : Option (Heap (Cell ε)) :=
  if (h.load b).isSome then some (h.modify b fun c => { c with next := q }) else none

theorem setNext_eq (hb : h.load b = some ⟨e, p⟩) (q : Option Nat) :
    setNext h b q = some (h.modify b fun c => { c with next := q }) ∧
      (h.modify b fun c => { c with next := q }).load b = some ⟨e, q⟩ := by
  refine ⟨if_pos (by rw [hb]; rfl), ?_⟩
  rw [Heap.load_modify_self, hb]
  rfl

/-- The same for a block that there may not be. -/
def setNextOf (h : Heap (Cell ε)) (prev q : Option Nat) : Option (Heap (Cell ε)) :=
  prev.elim (some h) fun b => setNext h b q

/-- The last block is linked to `q`, and nothing else is written. -/
theorem Linked.setNextOf (hl : Linked h cs p) (hn : (cs.map Prod.fst).Nodup) (q : Option Nat) :
    ∃ h', Lib.setNextOf h (cs.getLast?.map Prod.fst) q = some h' ∧ Linked h' cs q ∧ h'.next = h.next ∧
      ∀ b ∉ cs.map Prod.fst, h'.load b = h.load b := by
  rcases List.eq_nil_or_concat cs with rfl | ⟨cs, ⟨b, e⟩, rfl⟩
  · exact ⟨h, rfl, trivial, rfl, fun _ _ => rfl⟩
  · rw [List.concat_eq_append] at hl hn ⊢
    have hb : b ∉ cs.map Prod.fst := by
      rw [List.map_append, List.nodup_append] at hn
      exact fun hm => hn.2.2 b hm b (List.mem_singleton_self b) rfl
    have hload : (h.load b).isSome = true := by
      rw [(linked_append.mp hl).2.1]
      rfl
    refine ⟨h.modify b fun c => { c with next := q }, ?_, hl.relink hb q, rfl, fun b' hb' => ?_⟩
    · rw [List.getLast?_concat]
      exact if_pos hload
    · refine Heap.load_modify_ne (fun he => hb' ?_) _
      rw [he, List.map_append]
      exact List.mem_append_right _ List.mem_cons_self

/-- A list in a heap, with its blocks in the order of the links. -/
structure Chain (ε : Type*) where
  heap : Heap (Cell ε)
  cells : List (Nat × ε)
  linked : Linked heap cells none
  distinct : (cells.map Prod.fst).Nodup

/-- The pointer to the first block. -/
def Chain.head (c : Chain ε) : Option Nat := first c.cells none

end OphidiaWorkflow.Lib
