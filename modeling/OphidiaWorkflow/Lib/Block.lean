import Mathlib.Data.List.Basic

/-!
A block of memory that is written from its start on, the way `snprintf` does at a growing offset.

The list holds the bytes up to the last one that was written; `none` is a byte before it that was left out. Its length
is the size that the block must have.
-/
namespace OphidiaWorkflow.Lib

variable {α : Type*} {zero : α} {size n : Nat} {s t : List α} {ts : List (List α)}

/-- The bytes are written from `n` on. -/
def writeAt (block : List (Option α)) (n : Nat) (bytes : List α) : List (Option α) :=
  (block.rightpad n none).take n ++ bytes.map some ++ block.drop (n + bytes.length)

/-- The bytes of a text with the zero at its end. -/
def terminated (zero : α) (s : List α) : List (Option α) := (s ++ [zero]).map some

/-- A block, and the sum of what the calls returned. -/
structure Printing (α : Type*) where
  n : Nat
  block : List (Option α)

def Printing.start : Printing α := ⟨0, []⟩

/-- `n += snprintf(block + n, size, "%s", s)`: the text is cut to the size, the result is its whole length. -/
def Printing.print (zero : α) (size : Nat) (p : Printing α) (s : List α) : Printing α :=
  ⟨p.n + s.length, writeAt p.block p.n (s.take (size - 1) ++ [zero])⟩

/-- The offset is the end of what has been printed, and nothing is written after the zero. -/
structure Printed (zero : α) (p : Printing α) (s : List α) : Prop where
  offset : p.n = s.length
  text : p.block.take s.length = s.map some
  length_le : p.block.length ≤ s.length + 1

theorem length_terminated (zero : α) (s : List α) : (terminated zero s).length = s.length + 1 := by
  rw [terminated, List.length_map, List.length_append, List.length_singleton]

theorem printed_start (zero : α) : Printed zero Printing.start [] := ⟨rfl, rfl, Nat.zero_le _⟩

theorem printed_terminated (zero : α) (s : List α) : Printed zero ⟨s.length, terminated zero s⟩ s := by
  refine ⟨rfl, ?_, Nat.le_of_eq (length_terminated zero s)⟩
  have hlen : (s.map (some : α → Option α)).length = s.length := List.length_map _
  rw [terminated, List.map_append]
  exact List.take_left' hlen

/-- A text that is not cut is appended to what has been printed. -/
theorem Printed.print_eq {p : Printing α} (h : Printed zero p s) (ht : t.length < size) :
    p.print zero size t = ⟨(s ++ t).length, terminated zero (s ++ t)⟩ := by
  have hcut : t.take (size - 1) = t := List.take_of_length_le (by omega)
  have hlen : p.block.take s.length = s.map some := h.text
  have hle : s.length ≤ p.block.length := by
    have := congrArg List.length hlen
    rw [List.length_take, List.length_map] at this
    omega
  have hpad : (p.block.rightpad s.length none).take s.length = s.map some := by
    rw [List.rightpad, List.take_append_of_le_length hle, hlen]
  have hrest : p.block.drop (s.length + (t ++ [zero]).length) = [] := by
    refine List.drop_eq_nil_of_le (Nat.le_trans h.length_le ?_)
    rw [List.length_append, List.length_singleton]
    omega
  rw [Printing.print, writeAt, hcut, h.offset, hpad, hrest, List.append_nil, ← List.map_append, ← List.append_assoc,
    List.length_append, terminated]

theorem foldl_print_terminated (hts : ∀ t ∈ ts, t.length < size) :
    ts.foldl (Printing.print zero size) ⟨s.length, terminated zero s⟩ =
      ⟨(s ++ ts.flatten).length, terminated zero (s ++ ts.flatten)⟩ := by
  induction ts generalizing s with
  | nil => rw [List.foldl_nil, List.flatten_nil, List.append_nil]
  | cons t ts ih =>
    obtain ⟨ht, hts⟩ := List.forall_mem_cons.mp hts
    rw [List.foldl_cons, (printed_terminated zero s).print_eq ht, ih hts, List.flatten_cons, List.append_assoc]

/-- Printed one after the other, the texts are the block. -/
theorem Printed.foldl_print {p : Printing α} (h : Printed zero p s) (hne : ts ≠ []) (hts : ∀ t ∈ ts, t.length < size) :
    ts.foldl (Printing.print zero size) p = ⟨(s ++ ts.flatten).length, terminated zero (s ++ ts.flatten)⟩ := by
  obtain ⟨t, ts, rfl⟩ := List.exists_cons_of_ne_nil hne
  obtain ⟨ht, hts⟩ := List.forall_mem_cons.mp hts
  rw [List.foldl_cons, h.print_eq ht, foldl_print_terminated hts, List.flatten_cons, List.append_assoc]

end OphidiaWorkflow.Lib
