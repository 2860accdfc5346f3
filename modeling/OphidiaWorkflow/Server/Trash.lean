import Mathlib.Data.List.Basic
import Mathlib.Data.List.Infix
import Mathlib.Data.List.Sort

/-!
`oph_trash`: released numbers, kept by session.

A linked list of nodes, one for each key, with the items of the key from the oldest to the newest. Keys are never NULL
here.
-/
namespace OphidiaWorkflow.Server

variable {κ : Type*} [DecidableEq κ] {key key' : κ} {item : Int}

structure TrashNode (κ : Type*) where
  key : κ
  items : List Int
  deriving DecidableEq, Repr

abbrev Trash (κ : Type*) := List (TrashNode κ)

namespace Trash

variable {t t' : Trash κ} {n : TrashNode κ}

def push (key : κ) (item : Int) : Trash κ → Trash κ
  | [] => []
  | n :: t => if n.key = key then { n with items := n.items ++ [item] } :: t else n :: push key item t

/-- `oph_trash_append`. The node for a new key takes the place of the first one: it is linked to its successor. -/
def append (key : κ) (item : Int) (t : Trash κ) : Trash κ :=
  if t.any fun n => n.key = key then push key item t else ⟨key, [item]⟩ :: t.tail

/-- `oph_trash_extract`. A node goes with its last item. -/
def extract (key : κ) : Trash κ → Option (Int × Trash κ)
  | [] => none
  | n :: t =>
    if n.key = key then
      match n.items with
      | [] => none
      | [item] => some (item, t)
      | item :: items => some (item, ⟨n.key, items⟩ :: t)
    else (extract key t).map fun r => (r.1, n :: r.2)

/-- What is kept under a key. -/
def stored (key : κ) (t : Trash κ) : List Int := (t.find? fun n => n.key = key).elim [] TrashNode.items

@[simp] theorem stored_nil (key : κ) : stored key [] = [] := rfl

theorem stored_cons (key : κ) (n : TrashNode κ) (t : Trash κ) :
    stored key (n :: t) = if n.key = key then n.items else stored key t := by
  unfold stored
  by_cases h : n.key = key
  · rw [List.find?_cons_of_pos (by simpa using h), if_pos h]
    rfl
  · rw [List.find?_cons_of_neg (by simpa using h), if_neg h]

/-- An item comes out exactly if there is one, and it is the oldest. -/
theorem fst_extract (key : κ) (t : Trash κ) : (extract key t).map Prod.fst = (stored key t).head? := by
  induction t with
  | nil => rfl
  | cons n t ih =>
    rw [stored_cons, extract]
    by_cases h : n.key = key
    · rw [if_pos h, if_pos h]
      match n.items with
      | [] => rfl
      | [_] => rfl
      | _ :: _ :: _ => rfl
    · rw [if_neg h, if_neg h, Option.map_map, ← ih]
      rfl

/-- The trash after an extraction, which may fail. -/
def drop (key : κ) (t : Trash κ) : Trash κ := (extract key t).elim t Prod.snd

/-- Only one key has been used. -/
def OfKey (key : κ) (t : Trash κ) : Prop := t = [] ∨ ∃ items, t = [⟨key, items⟩]

theorem OfKey.append (h : OfKey key t) (item : Int) :
    OfKey key (t.append key item) ∧ (t.append key item).stored key = t.stored key ++ [item] := by
  unfold Trash.append
  obtain rfl | ⟨items, rfl⟩ := h
  · refine ⟨.inr ⟨[item], rfl⟩, ?_⟩
    show stored key [⟨key, [item]⟩] = _
    rw [stored_cons, if_pos rfl]
    rfl
  · rw [if_pos (by simp), push, if_pos rfl, stored_cons, if_pos rfl, stored_cons, if_pos rfl]
    exact ⟨.inr ⟨_, rfl⟩, rfl⟩

theorem OfKey.extract (h : OfKey key t) (he : t.extract key = some (item, t')) :
    OfKey key t' ∧ t.stored key = item :: t'.stored key := by
  obtain rfl | ⟨items, rfl⟩ := h
  · cases he
  · rw [Trash.extract, if_pos rfl] at he
    rw [stored_cons, if_pos rfl]
    match items, he with
    | [_], rfl => exact ⟨.inl rfl, rfl⟩
    | _ :: item' :: items, rfl =>
      refine ⟨.inr ⟨item' :: items, rfl⟩, ?_⟩
      rw [stored_cons, if_pos rfl]

section Order

variable {items l : List Int} {a swap : Int} {fuel : Nat}

/-- The inner loop of `oph_trash_order` from an item on, with `swap`: the last item that was moved back. -/
def orderPass (swap a : Int) : List Int → List Int × Int
  | [] => ([a], swap)
  | b :: l =>
    if b < a then (b :: (orderPass a a l).1, (orderPass a a l).2)
    else (a :: (orderPass swap b l).1, (orderPass swap b l).2)

/-- The outer loop; `none`: more rounds are needed. -/
def orderItems : Nat → List Int → Option (List Int)
  | 0, _ => none
  | _ + 1, [] => some []
  | fuel + 1, a :: l =>
    if (orderPass 0 a l).2 = 0 then some (orderPass 0 a l).1 else orderItems fuel (orderPass 0 a l).1

/-- `oph_trash_order`, with whether there is a node. -/
def order (fuel : Nat) (key : κ) : Trash κ → Option (Bool × Trash κ)
  | [] => some (false, [])
  | n :: t =>
    if n.key = key then (orderItems fuel n.items).map fun items => (true, { n with items := items } :: t)
    else (order fuel key t).map fun r => (r.1, n :: r.2)

/-- The pairs that stand in the wrong order. -/
def inversions : List Int → Nat
  | [] => 0
  | a :: l => l.countP (· < a) + inversions l

theorem orderPass_perm (swap a : Int) (l : List Int) : (orderPass swap a l).1.Perm (a :: l) := by
  induction l generalizing swap a with
  | nil => exact .refl _
  | cons b l ih =>
    rw [orderPass]
    split
    · exact ((ih a a).cons b).trans (.swap a b l)
    · exact (ih swap b).cons a

theorem inversions_orderPass_le (swap a : Int) (l : List Int) :
    inversions (orderPass swap a l).1 ≤ inversions (a :: l) := by
  induction l generalizing swap a with
  | nil => exact Nat.le_refl _
  | cons b l ih =>
    rw [orderPass]
    split
    · next hb =>
      have hrest := ih a a
      have hcount : (orderPass a a l).1.countP (· < b) = l.countP (· < b) := by
        rw [(orderPass_perm a a l).countP_eq, List.countP_cons_of_neg (by simpa using Int.le_of_lt hb)]
      dsimp only [inversions] at hrest ⊢
      rw [hcount, List.countP_cons_of_pos (by simpa using hb)]
      omega
    · have hrest := ih swap b
      dsimp only [inversions] at hrest ⊢
      rw [(orderPass_perm swap b l).countP_eq]
      omega

/-- A pass either finds the items in order or leaves fewer pairs in the wrong one. -/
theorem orderPass_cases (swap a : Int) (l : List Int) :
    (a :: l).Pairwise (· ≤ ·) ∧ orderPass swap a l = (a :: l, swap) ∨
      (orderPass swap a l).2 ∈ a :: l ∧ inversions (orderPass swap a l).1 < inversions (a :: l) := by
  induction l generalizing swap a with
  | nil => exact .inl ⟨List.pairwise_singleton _ _, rfl⟩
  | cons b l ih =>
    rw [orderPass]
    split
    · next hb =>
      right
      have hle := inversions_orderPass_le a a l
      have hcount : (orderPass a a l).1.countP (· < b) = l.countP (· < b) := by
        rw [(orderPass_perm a a l).countP_eq, List.countP_cons_of_neg (by simpa using Int.le_of_lt hb)]
      have hmem : (orderPass a a l).2 ∈ a :: l := by
        rcases ih a a with ⟨-, heq⟩ | ⟨hmem, -⟩
        · rw [heq]
          exact List.mem_cons_self
        · exact hmem
      refine ⟨?_, ?_⟩
      · rcases List.mem_cons.mp hmem with h | h
        · exact List.mem_cons.mpr (.inl h)
        · exact List.mem_cons_of_mem _ (List.mem_cons_of_mem _ h)
      · dsimp only [inversions] at hle ⊢
        rw [hcount, List.countP_cons_of_pos (by simpa using hb)]
        omega
    · next hb =>
      rcases ih swap b with ⟨hsorted, heq⟩ | ⟨hmem, hlt⟩
      · left
        rw [heq]
        refine ⟨List.pairwise_cons.mpr ⟨fun c hc => ?_, hsorted⟩, rfl⟩
        rcases List.mem_cons.mp hc with rfl | hc
        · exact Int.not_lt.mp hb
        · exact Int.le_trans (Int.not_lt.mp hb) ((List.pairwise_cons.mp hsorted).1 c hc)
      · right
        refine ⟨List.mem_cons_of_mem _ hmem, ?_⟩
        dsimp only [inversions] at hlt ⊢
        rw [(orderPass_perm swap b l).countP_eq]
        omega

/-- The loop ends with the items in order, if none of them is the `0` that stands for no exchange. -/
theorem orderItems_eq (hpos : ∀ v ∈ items, v ≠ 0) (hf : inversions items < fuel) :
    orderItems fuel items = some (items.insertionSort (· ≤ ·)) := by
  induction fuel generalizing items with
  | zero => exact absurd hf (Nat.not_lt_zero _)
  | succ fuel ih =>
    cases items with
    | nil => rfl
    | cons a l =>
      rw [orderItems]
      rcases orderPass_cases 0 a l with ⟨hsorted, heq⟩ | ⟨hmem, hlt⟩
      · rw [heq, if_pos rfl, hsorted.insertionSort_eq]
      · have hperm := orderPass_perm 0 a l
        have hsame := ((List.perm_insertionSort (· ≤ ·) _).trans hperm).trans (List.perm_insertionSort (· ≤ ·) _).symm
        rw [if_neg (hpos _ hmem), ih (fun v hv => hpos v (hperm.mem_iff.mp hv)) (by omega)]
        exact congrArg some (hsame.eq_of_pairwise (fun _ _ _ _ => Int.le_antisymm) (List.pairwise_insertionSort _ _)
          (List.pairwise_insertionSort _ _))

theorem OfKey.order (h : OfKey key t) (hne : t.stored key ≠ []) (hpos : ∀ v ∈ t.stored key, v ≠ 0)
    (hf : inversions (t.stored key) < fuel) :
    ∃ t', t.order fuel key = some (true, t') ∧ OfKey key t' ∧ t'.stored key = (t.stored key).insertionSort (· ≤ ·) := by
  obtain rfl | ⟨items, rfl⟩ := h
  · exact absurd rfl hne
  · rw [stored_cons, if_pos rfl] at hpos hf
    refine ⟨[⟨key, items.insertionSort (· ≤ ·)⟩], ?_, .inr ⟨_, rfl⟩, ?_⟩
    · rw [Trash.order, if_pos rfl, orderItems_eq hpos hf]
      rfl
    · rw [stored_cons, stored_cons, if_pos rfl, if_pos rfl]

end Order

end Trash

/-- A call on the trash. -/
inductive TrashCall (κ : Type*)
  | append (key : κ) (item : Int)
  | extract (key : κ)
  deriving DecidableEq, Repr

namespace TrashCall

variable {cs cs' : List (TrashCall κ)} {c : TrashCall κ}

def apply (t : Trash κ) : TrashCall κ → Trash κ
  | append key item => t.append key item
  | extract key => t.drop key

/-- The trash that the calls make of the one `oph_trash_create` returns. -/
def run (cs : List (TrashCall κ)) : Trash κ := cs.foldl apply []

/-- The queue of one key: the calls with other keys do not change it. -/
def enqueue (key : κ) (q : List Int) : TrashCall κ → List Int
  | append key' item => if key' = key then q ++ [item] else q
  | extract key' => if key' = key then q.tail else q

def queue (key : κ) (cs : List (TrashCall κ)) : List Int := cs.foldl (enqueue key) []

/-- After the calls the trash holds the queue of each key, and hands out its oldest item. -/
def IsQueue (cs : List (TrashCall κ)) : Prop :=
  ∀ key, (run cs).stored key = queue key cs ∧ ((run cs).extract key).map Prod.fst = (queue key cs).head?

/-- An item does not come under a new key while there are items under others. -/
def Joins (cs : List (TrashCall κ)) : TrashCall κ → Prop
  | append key _ => queue key cs ≠ [] ∨ ∀ key', queue key' cs = []
  | extract _ => True

theorem run_concat (cs : List (TrashCall κ)) (c : TrashCall κ) : run (cs ++ [c]) = apply (run cs) c :=
  List.foldl_concat _ _ _ _

theorem queue_concat (key : κ) (cs : List (TrashCall κ)) (c : TrashCall κ) :
    queue key (cs ++ [c]) = enqueue key (queue key cs) c :=
  List.foldl_concat _ _ _ _

/-- There is never more than one node, and it has items. -/
def Single (t : Trash κ) : Prop := t = [] ∨ ∃ key item items, t = [⟨key, item :: items⟩]

theorem single_append {t : Trash κ} (h : Single t) (key : κ) (item : Int) : Single (t.append key item) := by
  unfold Trash.append
  obtain rfl | ⟨key', item', items, rfl⟩ := h
  · exact .inr ⟨key, item, [], rfl⟩
  · split
    · next hk =>
      have hk' : key' = key := by simpa using hk
      rw [Trash.push, if_pos hk']
      exact .inr ⟨key', item', items ++ [item], rfl⟩
    · exact .inr ⟨key, item, [], rfl⟩

theorem single_drop {t : Trash κ} (h : Single t) (key : κ) : Single (t.drop key) := by
  unfold Trash.drop
  obtain rfl | ⟨key', item', items, rfl⟩ := h
  · exact .inl rfl
  · rw [Trash.extract]
    by_cases hk : key' = key
    · rw [if_pos hk]
      match items with
      | [] => exact .inl rfl
      | item :: items => exact .inr ⟨key', item, items, rfl⟩
    · rw [if_neg hk]
      exact .inr ⟨key', item', items, rfl⟩

theorem single_run (cs : List (TrashCall κ)) : Single (run cs) := by
  induction cs using List.reverseRecOn with
  | nil => exact .inl rfl
  | append_singleton cs c ih =>
    rw [run_concat]
    cases c with
    | append key item => exact single_append ih key item
    | extract key => exact single_drop ih key

theorem isQueue_iff_stored : IsQueue cs ↔ ∀ key, (run cs).stored key = queue key cs := by
  refine forall_congr' fun key => and_iff_left_of_imp fun h => ?_
  rw [Trash.fst_extract, h]

theorem stored_single (key key' : κ) (items : List Int) :
    Trash.stored key' [⟨key, items⟩] = if key = key' then items else [] := Trash.stored_cons _ _ _

theorem stored_drop_single (key key' : κ) (item : Int) (items : List Int) :
    Trash.stored key' (Trash.drop key [⟨key, item :: items⟩]) = if key = key' then items else [] := by
  unfold Trash.drop
  rw [Trash.extract, if_pos rfl]
  match items with
  | [] => exact (ite_self _).symm
  | _ :: _ => exact stored_single _ _ _

theorem drop_single_ne (h : key' ≠ key) (items : List Int) : Trash.drop key [⟨key', items⟩] = [⟨key', items⟩] := by
  unfold Trash.drop
  rw [Trash.extract, if_neg h]
  rfl

/-- One more call: a new key takes the node of the key that had one. -/
theorem isQueue_concat_iff (h : IsQueue cs) : IsQueue (cs ++ [c]) ↔ Joins cs c := by
  rw [isQueue_iff_stored] at h
  rw [isQueue_iff_stored]
  simp only [run_concat, queue_concat, ← h]
  unfold Joins
  simp only [← h]
  obtain hrun | ⟨key, item, items, hrun⟩ := single_run cs
  · rw [hrun]
    cases c with
    | append key item =>
      refine iff_of_true (fun key' => ?_) (.inr fun _ => rfl)
      exact stored_single key key' [item]
    | extract key =>
      refine iff_of_true (fun key' => ?_) trivial
      exact (ite_self _).symm
  · rw [hrun]
    cases c with
    | append key' item' =>
      show (∀ k, Trash.stored k (Trash.append key' item' _) = if key' = k then _ else _) ↔ _
      by_cases hk : key = key'
      · subst hk
        refine iff_of_true (fun k => ?_) (.inl ?_)
        · rw [Trash.append, if_pos (by simp), Trash.push, if_pos rfl, stored_single, stored_single]
          split <;> rfl
        · rw [stored_single, if_pos rfl]
          exact List.cons_ne_nil _ _
      · -- what was kept under the first key is lost
        rw [Trash.append, if_neg (by simpa using hk)]
        refine iff_of_false (fun hall => ?_) ?_
        · have hlost := hall key
          rw [List.tail_cons, stored_single, stored_single, if_neg (Ne.symm hk), if_neg (Ne.symm hk),
            if_pos rfl] at hlost
          cases hlost
        · rintro (hne | hall)
          · rw [stored_single, if_neg hk] at hne
            exact hne rfl
          · have hempty := hall key
            rw [stored_single, if_pos rfl] at hempty
            cases hempty
    | extract key' =>
      refine iff_of_true (fun k => ?_) trivial
      show Trash.stored k (Trash.drop key' _) = if key' = k then _ else _
      by_cases hk : key = key'
      · subst hk
        rw [stored_drop_single, stored_single]
        split <;> rfl
      · rw [drop_single_ne hk, stored_single]
        by_cases hk' : key' = k
        · subst hk'
          rw [if_neg hk, if_pos rfl]
          rfl
        · rw [if_neg hk']

/-- The trash is a queue for each key all along the calls exactly if no item comes under a new key while others are
waiting under another one. -/
theorem isQueue_iff_joins (cs : List (TrashCall κ)) :
    (∀ cs', cs' <+: cs → IsQueue cs') ↔ ∀ cs' c, cs' ++ [c] <+: cs → Joins cs' c := by
  constructor
  · intro h cs' c hpre
    have hq : IsQueue cs' := h cs' ((List.prefix_append cs' [c]).trans hpre)
    exact (isQueue_concat_iff hq).mp (h _ hpre)
  · intro h cs'
    -- by induction on the calls, each of which joins
    induction cs' using List.reverseRecOn with
    | nil =>
      intro _
      exact isQueue_iff_stored.mpr fun key => rfl
    | append_singleton cs' c ih =>
      intro hpre
      have hq := ih ((List.prefix_append cs' [c]).trans hpre)
      exact (isQueue_concat_iff hq).mpr (h cs' c hpre)

/-- With the keys of two sessions, the number released first is lost. -/
theorem not_isQueue_two_keys :
    ¬ ∀ cs', cs' <+: [TrashCall.append "a" 1, .append "b" 2] → IsQueue cs' := by
  intro h
  have hlost := (h _ List.prefix_rfl "a").2
  revert hlost
  decide

end TrashCall
end OphidiaWorkflow.Server
