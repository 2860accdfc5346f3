import Mathlib.Data.Int.Order.Basic
import OphidiaWorkflow.Lib.Exchange
import OphidiaWorkflow.Lib.Linked

/-!
`oph_arguments` in `oph_parser.c`: `oph_append_args_list` and `oph_order_args_list`.

The list is sorted in place: neighbours are exchanged by writing three pointers. A result `none` stands for a block that
is read or written after it has been freed, or for loops that take more rounds than allowed.
-/
namespace OphidiaWorkflow.ArgsList

open Lib

/-- `oph_arguments` without the link to the next entry; `item` is a pointer. -/
structure Arguments where
  id : Int
  item : Nat
  deriving DecidableEq, Repr

/-- `oph_append_args_list`: the new entry comes first. -/
def appendArgsList (h : Heap (Cell Arguments)) (list : Option Nat) (item : Nat) (id : Int) :
    Heap (Cell Arguments) × Option Nat :=
  (h.alloc ⟨⟨id, item⟩, list⟩, some h.next)

/-- The variables of the inner loop of `oph_order_args_list`. -/
structure Sweep where
  heap : Heap (Cell Arguments)
  list : Option Nat
  prev : Option Nat
  item : Nat
  count : Nat

/-- The exchange of `item` with the entry `next` after it, which becomes `prev`. -/
def Sweep.exchange (s : Sweep) (next : Nat) : Option Sweep :=
  (setNextOf s.heap s.prev (some next)).bind fun heap =>
    (heap.load next).bind fun c =>
      (setNext heap s.item c.next).bind fun heap =>
        (setNext heap next (some s.item)).map fun heap =>
          ⟨heap, if s.prev.isSome then s.list else some next, some next, s.item, s.count + 1⟩

/-- The inner loop. -/
def sweep : Nat → Sweep → Option Sweep
  | 0, _ => none
  | fuel + 1, s =>
    (s.heap.load s.item).bind fun c =>
      match c.next with
      | none => some s
      | some next =>
        (s.heap.load next).bind fun d =>
          if c.entry.id > d.entry.id then (s.exchange next).bind (sweep fuel)
          else sweep fuel { s with prev := some s.item, item := next }

/-- The outer loop, at most `rounds` times, each time with at most `fuel` rounds of the inner one. -/
def orderLoop (fuel : Nat) : Nat → Heap (Cell Arguments) → Option Nat → Option (Heap (Cell Arguments) × Option Nat)
  | 0, _, _ => none
  | rounds + 1, heap, list =>
    list.bind fun item => (sweep fuel ⟨heap, list, none, item, 0⟩).bind fun s =>
      if s.count = 0 then some (s.heap, s.list) else orderLoop fuel rounds s.heap s.list

/-- `oph_order_args_list` -/
def orderArgsList (fuel : Nat) (heap : Heap (Cell Arguments)) (list : Option Nat) :
    Option (Heap (Cell Arguments) × Option Nat) :=
  list.elim (some (heap, none)) fun item => (heap.load item).bind fun c =>
    if c.next.isNone then some (heap, list) else orderLoop fuel fuel heap list

/-- The key of the order. -/
def idOf (c : Nat × Arguments) : Int := c.2.id

section Exchange

variable {heap : Heap (Cell Arguments)} {before after : List (Nat × Arguments)} {a b : Nat} {ea eb : Arguments}

/-- The exchange links the two entries the other way round. -/
theorem exchange_spec (hl : Linked heap (before ++ (a, ea) :: (b, eb) :: after) none)
    (hn : ((before ++ (a, ea) :: (b, eb) :: after).map Prod.fst).Nodup) (count : Nat) :
    ∃ heap', (Sweep.mk heap (first (before ++ (a, ea) :: (b, eb) :: after) none) (before.getLast?.map Prod.fst) a
        count).exchange b =
      some ⟨heap', first (before ++ (b, eb) :: (a, ea) :: after) none, some b, a, count + 1⟩ ∧
      Linked heap' (before ++ (b, eb) :: (a, ea) :: after) none := by
  rw [List.map_append, List.nodup_append, List.map_cons, List.map_cons, List.nodup_cons, List.nodup_cons,
    List.mem_cons, not_or] at hn
  obtain ⟨hbefore, ⟨⟨hab, ha⟩, hb, -⟩, hdisj⟩ := hn
  have ha' : a ∉ before.map Prod.fst := fun hm => hdisj a hm a List.mem_cons_self rfl
  have hb' : b ∉ before.map Prod.fst := fun hm => hdisj b hm b (List.mem_cons_of_mem _ List.mem_cons_self) rfl
  have hafter : ∀ c ∈ after, c.1 ∉ before.map Prod.fst := fun c hc hm =>
    hdisj c.1 hm c.1 (List.mem_cons_of_mem _ (List.mem_cons_of_mem _ (List.mem_map_of_mem hc))) rfl
  obtain ⟨hlb, hla, hlb', hlr⟩ := linked_append.mp hl
  obtain ⟨h₁, hset, hl₁, -, hframe⟩ := hlb.setNextOf hbefore (some b)
  have hload_a : h₁.load a = some ⟨ea, some b⟩ := (hframe a ha').trans hla
  have hload_b : h₁.load b = some ⟨eb, first after none⟩ := (hframe b hb').trans hlb'
  have hrest : Linked h₁ after none := hlr.frame fun c hc => hframe c.1 (hafter c hc)
  obtain ⟨hset_a, hnew_a⟩ := setNext_eq hload_a (first after none)
  have hkeep_b :=
    (Heap.load_modify_ne (h := h₁) (Ne.symm hab) fun c => { c with next := first after none }).trans hload_b
  obtain ⟨hset_b, hnew_b⟩ := setNext_eq hkeep_b (some a)
  refine ⟨_, ?_, linked_append.mpr ⟨(hl₁.modify ha' _).modify hb' _, hnew_b, ?_, (hrest.modify ha _).modify hb _⟩⟩
  · have hlist : (if (before.getLast?.map Prod.fst).isSome then
        first (before ++ (a, ea) :: (b, eb) :: after) none else some b) =
        first (before ++ (b, eb) :: (a, ea) :: after) none := by
      cases before with
      | nil => rfl
      | cons c before => simp [first]
    rw [Sweep.exchange]
    dsimp only
    rw [hset, Option.bind_some, hload_b, Option.bind_some]
    dsimp only
    rw [hset_a, Option.bind_some, hset_b, hlist]
    rfl
  · exact (Heap.load_modify_ne hab _).trans hnew_a

/-- The inner loop is a pass over the entries from `item` on. -/
theorem sweep_eq {fuel : Nat} (hl : Linked heap (before ++ (a, ea) :: after) none)
    (hn : ((before ++ (a, ea) :: after).map Prod.fst).Nodup) (hfuel : after.length < fuel) (count : Nat) :
    ∃ s, sweep fuel ⟨heap, first (before ++ (a, ea) :: after) none, before.getLast?.map Prod.fst, a, count⟩ = some s ∧
      Linked s.heap (before ++ (pass idOf (a, ea) after).1) none ∧
      s.list = first (before ++ (pass idOf (a, ea) after).1) none ∧
      s.count = count + (pass idOf (a, ea) after).2 := by
  induction after generalizing heap before a ea fuel count with
  | nil =>
    cases fuel with
    | zero => cases hfuel
    | succ fuel =>
      refine ⟨⟨heap, _, before.getLast?.map Prod.fst, a, count⟩, ?_, hl, rfl, rfl⟩
      rw [sweep]
      dsimp only
      rw [(linked_append.mp hl).2.1]
      rfl
  | cons c after ih =>
    obtain ⟨b, eb⟩ := c
    cases fuel with
    | zero => cases hfuel
    | succ fuel =>
      have hfuel := Nat.lt_of_succ_lt_succ hfuel
      obtain ⟨-, hla, hlb, -⟩ := linked_append.mp hl
      rw [sweep]
      dsimp only
      rw [hla, Option.bind_some]
      dsimp only [first_cons]
      rw [hlb, Option.bind_some]
      by_cases hlt : idOf (b, eb) < idOf (a, ea)
      · -- `b` has passed before `a`, which goes on as the current entry
        obtain ⟨heap', hex, hl'⟩ := exchange_spec hl hn count
        have hperm : (before ++ (b, eb) :: (a, ea) :: after).Perm (before ++ (a, ea) :: (b, eb) :: after) :=
          (List.Perm.swap _ _ _).append_left before
        have hn' := (hperm.map Prod.fst).nodup_iff.mpr hn
        rw [if_pos (show ea.id > eb.id from hlt), hex, Option.bind_some, pass_cons_of_lt hlt]
        rw [List.append_cons] at hl' hn'
        obtain ⟨s, hs, hlinked, hlist, hcount⟩ := ih hl' hn' hfuel (count + 1)
        rw [List.getLast?_concat, ← List.append_cons] at hs
        rw [← List.append_cons] at hlinked hlist
        exact ⟨s, hs, hlinked, hlist, by rw [hcount]; omega⟩
      · -- `a` stays, and `b` becomes the current entry
        rw [if_neg (show ¬ ea.id > eb.id from hlt), pass_cons_of_not_lt hlt]
        rw [List.append_cons] at hl hn
        obtain ⟨s, hs, hlinked, hlist, hcount⟩ := ih hl hn hfuel count
        rw [List.getLast?_concat, ← List.append_cons] at hs
        rw [← List.append_cons] at hlinked hlist
        exact ⟨s, hs, hlinked, hlist, hcount⟩

/-- A chain whose blocks are those of another one, in an order of their own. -/
theorem exists_chain_of_sweep (c : Chain Arguments) {a : Nat × Arguments} {l : List (Nat × Arguments)}
    (hc : c.cells = a :: l) {fuel : Nat} (hfuel : l.length < fuel) :
    ∃ c' : Chain Arguments, c'.cells = (pass idOf a l).1 ∧ ∃ s, sweep fuel ⟨c.heap, c.head, none, a.1, 0⟩ = some s ∧
      s.heap = c'.heap ∧ s.list = c'.head ∧ s.count = (pass idOf a l).2 := by
  have hl : Linked c.heap ([] ++ a :: l) none := hc ▸ c.linked
  have hn : (([] ++ a :: l).map Prod.fst).Nodup := hc ▸ c.distinct
  obtain ⟨s, hs, hlinked, hlist, hcount⟩ := sweep_eq hl hn hfuel 0
  have hn' := ((pass_perm idOf a l).map Prod.fst).nodup_iff.mpr hn
  rw [Nat.zero_add] at hcount
  refine ⟨⟨s.heap, (pass idOf a l).1, hlinked, hn'⟩, rfl, s, ?_, rfl, hlist, hcount⟩
  rw [Chain.head, hc]
  exact hs

theorem orderLoop_spec {fuel rounds : Nat} (c : Chain Arguments) (hne : c.cells ≠ []) (hfuel : c.cells.length ≤ fuel)
    (hrounds : disorder idOf c.cells < rounds) :
    ∃ c' : Chain Arguments, orderLoop fuel rounds c.heap c.head = some (c'.heap, c'.head) ∧
      Sorts idOf c.cells c'.cells := by
  induction rounds generalizing c with
  | zero => cases hrounds
  | succ rounds ih =>
    cases hc : c.cells with
    | nil => exact absurd hc hne
    | cons a l =>
      rw [hc] at hfuel hrounds
      obtain ⟨c₁, hcells, s, hs, hheap, hlist, hcount⟩ := exists_chain_of_sweep c hc hfuel
      have hdisorder := disorder_pass idOf a l
      have hhead : c.head = some a.1 := by rw [Chain.head, hc, first_cons]
      rw [orderLoop]
      nth_rewrite 1 [hhead]
      rw [Option.bind_some, hs, Option.bind_some, hcount, hheap, hlist]
      by_cases hzero : (pass idOf a l).2 = 0
      · exact ⟨c₁, if_pos hzero, hcells ▸ .of_pass_eq_zero hzero⟩
      · -- every exchange of the pass has put one pair in order, so that fewer rounds are needed
        rw [if_neg hzero]
        have hlen : c₁.cells.length = (a :: l).length := by rw [hcells, (pass_perm idOf a l).length_eq]
        have hne₁ : c₁.cells ≠ [] := by
          rintro hnil
          rw [hnil] at hlen
          cases hlen
        obtain ⟨c', hrun, hsorts⟩ := ih c₁ hne₁ (hlen ▸ hfuel) (by rw [hcells]; omega)
        rw [hcells] at hsorts
        exact ⟨c', hrun, hsorts.of_pass⟩

end Exchange

/-- A new entry in front of a chain. -/
theorem appendArgsList_chain (c : Chain Arguments) (item : Nat) (id : Int) :
    ∃ c' : Chain Arguments, appendArgsList c.heap c.head item id = (c'.heap, c'.head) ∧
      c'.cells = (c.heap.next, ⟨id, item⟩) :: c.cells := by
  have hnew : c.heap.next ∉ c.cells.map Prod.fst := by
    intro hm
    obtain ⟨cell, hcell, he⟩ := List.mem_map.mp hm
    exact Nat.ne_of_lt (c.linked.lt_next hcell) he
  refine ⟨⟨c.heap.alloc ⟨⟨id, item⟩, c.head⟩, (c.heap.next, ⟨id, item⟩) :: c.cells, ⟨?_, c.linked.alloc _⟩, ?_⟩,
    rfl, rfl⟩
  · exact c.heap.load_alloc_self _
  · exact List.nodup_cons.mpr ⟨hnew, c.distinct⟩

/-- Every list of arguments is the one of some appended entries. -/
theorem exists_chain (args : List Arguments) : ∃ c : Chain Arguments, c.cells.map Prod.snd = args := by
  induction args with
  | nil => exact ⟨⟨{}, [], trivial, List.nodup_nil⟩, rfl⟩
  | cons e args ih =>
    obtain ⟨c, hc⟩ := ih
    obtain ⟨c', -, hcells⟩ := appendArgsList_chain c e.item e.id
    exact ⟨c', by rw [hcells, List.map_cons, hc]⟩

/--
The sort ends, whatever number of rounds above a bound is allowed. It leaves the same blocks linked to each other and to
the end, in the order of the ids, and blocks with the same id as they were.
-/
theorem orderArgsList_sorts (c : Chain Arguments) :
    ∃ bound, ∀ fuel, bound ≤ fuel → ∃ c' : Chain Arguments, orderArgsList fuel c.heap c.head = some (c'.heap, c'.head) ∧
      Sorts idOf c.cells c'.cells := by
  refine ⟨c.cells.length + disorder idOf c.cells + 1, fun fuel hfuel => ?_⟩
  cases hc : c.cells with
  | nil =>
    refine ⟨c, ?_, ?_⟩
    · rw [Chain.head, hc]
      rfl
    · rw [hc]
      exact .refl .nil
  | cons a l =>
    have hl := c.linked
    rw [hc] at hl hfuel
    have hhead : c.head = some a.1 := by rw [Chain.head, hc, first_cons]
    rw [orderArgsList, hhead, Option.elim_some, hl.1, Option.bind_some]
    cases l with
    | nil =>
      refine ⟨c, ?_, ?_⟩
      · rw [hhead]
        rfl
      · rw [hc]
        exact .refl (List.pairwise_singleton _ _)
    | cons b l =>
      have hne : c.cells ≠ [] := by
        rw [hc]
        exact List.cons_ne_nil _ _
      have hlen : c.cells.length ≤ fuel := by
        rw [hc]
        omega
      have hrounds : disorder idOf c.cells < fuel := by
        rw [hc]
        omega
      obtain ⟨c', hrun, hsorts⟩ := orderLoop_spec c hne hlen hrounds
      rw [hc] at hsorts
      rw [← hhead]
      exact ⟨c', hrun, hsorts⟩

end OphidiaWorkflow.ArgsList
