import Mathlib.Logic.Function.Basic

/-!
A heap of blocks that are allocated, read and freed.

Blocks are numbered as they are allocated and no number is used again, so a pointer to a freed block stays what it is in
C: a pointer that must not be read.
-/
namespace OphidiaWorkflow.Lib

/-- The number of the next block, and the contents of those that are allocated. -/
structure Heap (α : Type*) where
  next : Nat := 0
  load : Nat → Option α := fun _ => none
  fresh : ∀ b, next ≤ b → load b = none := by intro _ _; rfl

namespace Heap

variable {α : Type*} {h : Heap α} {a : α} {b b' : Nat}

def empty : Heap α := {}

def alloc (h : Heap α) (a : α) : Heap α where
  next := h.next + 1
  load := Function.update h.load h.next (some a)
  fresh := by
    intro b hb
    rw [Function.update_of_ne (by omega)]
    exact h.fresh b (by omega)

def free (h : Heap α) (b : Nat) : Heap α where
  next := h.next
  load := Function.update h.load b none
  fresh := by
    intro b' hb'
    by_cases he : b' = b
    · rw [he, Function.update_self]
    · rw [Function.update_of_ne he]
      exact h.fresh b' hb'

/-- A block that is written; one that has been freed stays as it is. -/
def modify (h : Heap α) (b : Nat) (f : α → α) : Heap α where
  next := h.next
  load := Function.update h.load b ((h.load b).map f)
  fresh := by
    intro b' hb'
    by_cases he : b' = b
    · rw [he, Function.update_self, ← he, h.fresh b' hb']
      rfl
    · rw [Function.update_of_ne he]
      exact h.fresh b' hb'

theorem load_alloc_self (h : Heap α) (a : α) : (h.alloc a).load h.next = some a := Function.update_self _ _ _

theorem load_alloc_ne (hb : b ≠ h.next) (a : α) : (h.alloc a).load b = h.load b := Function.update_of_ne hb _ _

theorem load_free_self (h : Heap α) (b : Nat) : (h.free b).load b = none := Function.update_self _ _ _

theorem load_free_ne (hb : b' ≠ b) : (h.free b).load b' = h.load b' := Function.update_of_ne hb _ _

theorem load_modify_self (h : Heap α) (b : Nat) (f : α → α) : (h.modify b f).load b = (h.load b).map f :=
  Function.update_self _ _ _

theorem load_modify_ne (hb : b' ≠ b) (f : α → α) : (h.modify b f).load b' = h.load b' := Function.update_of_ne hb _ _

theorem lt_next_of_load (hb : h.load b = some a) : b < h.next := by
  by_contra hge
  rw [h.fresh b (Nat.le_of_not_lt hge)] at hb
  cases hb

/-- The block has been allocated and freed. -/
def Dangling (h : Heap α) (b : Nat) : Prop := b < h.next ∧ h.load b = none

theorem Dangling.alloc (hb : h.Dangling b) (a : α) : (h.alloc a).Dangling b := by
  refine ⟨Nat.lt_succ_of_lt hb.1, ?_⟩
  show Function.update h.load h.next (some a) b = none
  rw [Function.update_of_ne (Nat.ne_of_lt hb.1)]
  exact hb.2

theorem Dangling.free (hb : h.Dangling b) (b' : Nat) : (h.free b').Dangling b := by
  refine ⟨hb.1, ?_⟩
  show Function.update h.load b' none b = none
  by_cases he : b = b'
  · rw [he, Function.update_self]
  · rw [Function.update_of_ne he]
    exact hb.2

theorem dangling_free_alloc (h : Heap α) (a : α) : ((h.alloc a).free h.next).Dangling h.next := by
  refine ⟨Nat.lt_succ_self _, ?_⟩
  show Function.update (h.alloc a).load h.next none h.next = none
  rw [Function.update_self]

end Heap
end OphidiaWorkflow.Lib
