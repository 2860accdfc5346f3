import Mathlib.Data.List.TakeWhile
import Mathlib.Data.Multiset.AddSub
import OphidiaWorkflow.Lib.Runs

/-!
The list of the detached tasks: `oph_detach_task`, `oph_is_detached_task` and `oph_remove_detached_task`.

`orm->subm_detached_tasks` is a singly linked list, the task detached last at its head.
-/
namespace OphidiaWorkflow.Server.Detached

open Lib

/-- `oph_detach_task` -/
def detach (id : Int) (l : List Int) : List Int := if id = 0 then l else id :: l

/-- `oph_is_detached_task` -/
def isDetached (id : Int) (l : List Int) : Bool := id ≠ 0 ∧ id ∈ l

/-- `oph_remove_detached_task`. The search leaves `prev` at NULL, so what follows the task becomes the whole list. -/
def remove (id : Int) (l : List Int) : List Int :=
  if id = 0 then l
  else
    match l.dropWhile fun x => x != id with
    | [] => l
    | _ :: next => next

/-- A call that changes the list. -/
inductive DetachCall
  | detach (id : Int)
  | remove (id : Int)
  deriving DecidableEq, Repr

namespace DetachCall

variable {l : List Int} {m : Multiset Int} {id id' : Int} {c : DetachCall} {cs : List DetachCall}

def apply (l : List Int) : DetachCall → List Int
  | detach id => Detached.detach id l
  | remove id => Detached.remove id l

/-- The list after the calls. -/
def run (cs : List DetachCall) : List Int := cs.foldl apply []

/-- The call on a multiset. -/
def keep (m : Multiset Int) : DetachCall → Multiset Int
  | detach id => if id = 0 then m else id ::ₘ m
  | remove id => if id = 0 then m else m.erase id

/-- The detached tasks less the removed ones. -/
def kept (cs : List DetachCall) : Multiset Int := cs.foldl keep 0

/-- How often the task is removed while it is present. -/
def removals (id : Int) : Multiset Int → List DetachCall → Nat
  | _, [] => 0
  | m, c :: cs => (if c = remove id ∧ id ∈ m then 1 else 0) + removals id (keep m c) cs

/-- A task is in the list exactly if it was detached more often than it was removed, the list is the multiset of the
detached tasks less the removed ones, and the last call, if it removed a task, changed no answer for another. -/
structure Accounts (cs : List DetachCall) : Prop where
  answer : ∀ id, id ≠ 0 → (isDetached id (run cs) = true ↔ removals id 0 cs < cs.count (detach id))
  multiset : (run cs : Multiset Int) = kept cs
  others : ∀ cs' id id', cs = cs' ++ [remove id] → id' ≠ id → isDetached id' (run cs) = isDetached id' (run cs')

/-- The task that is removed is the one detached last of those in the list, if it is there at all. -/
def Latest (l : List Int) : DetachCall → Prop
  | detach _ => True
  | remove id => isDetached id l = true → l.head? = some id

instance : Decidable (Latest l c) :=
  match c with
  | detach _ => .isTrue trivial
  | remove id => inferInstanceAs (Decidable (isDetached id l = true → l.head? = some id))

theorem remove_cons_self (h : id ≠ 0) (l : List Int) : Detached.remove id (id :: l) = l := by
  rw [Detached.remove, if_neg h, List.dropWhile_cons_of_neg (by simp)]

theorem remove_cons_of_ne {x : Int} (h0 : id ≠ 0) (hx : x ≠ id) (h : id ∈ l) :
    Detached.remove id (x :: l) = Detached.remove id l := by
  unfold Detached.remove
  rw [List.dropWhile_cons_of_pos (p := fun x => x != id) (bne_iff_ne.mpr hx)]
  cases hd : l.dropWhile fun x => x != id with
  | nil => exact absurd (List.dropWhile_eq_nil_iff.mp hd id h) (by simp)
  | cons y next =>
    rw [if_neg h0, if_neg h0]

theorem remove_eq_self (h : id ∉ l) : Detached.remove id l = l := by
  have hdrop : (l.dropWhile fun x => x != id) = [] := by
    rw [List.dropWhile_eq_nil_iff]
    intro x hx
    exact bne_iff_ne.mpr fun he => h (he ▸ hx)
  rw [Detached.remove, hdrop]
  exact ite_self l

theorem length_remove_lt (h : id ∈ l) (h0 : id ≠ 0) : (Detached.remove id l).length < l.length := by
  induction l with
  | nil => cases h
  | cons x l ih =>
    by_cases hx : x = id
    · rw [hx, remove_cons_self h0, List.length_cons]
      exact Nat.lt_succ_self _
    · have hl : id ∈ l := (List.mem_cons.mp h).resolve_left (Ne.symm hx)
      rw [remove_cons_of_ne h0 hx hl, List.length_cons]
      exact Nat.lt_succ_of_lt (ih hl)

theorem isDetached_iff (h0 : id ≠ 0) : isDetached id l = true ↔ id ∈ l := by
  rw [isDetached, decide_eq_true_iff]
  exact and_iff_right h0

/-- What stands before the task goes with it. -/
theorem remove_eq_erase_iff (h0 : id ≠ 0) :
    (Detached.remove id l : Multiset Int) = (l : Multiset Int).erase id ↔ Latest l (remove id) := by
  rw [Multiset.coe_erase]
  by_cases h : id ∈ l
  · cases l with
    | nil => cases h
    | cons x l =>
      by_cases hx : x = id
      · rw [hx, remove_cons_self h0, List.erase_cons_head]
        exact iff_of_true rfl fun _ => rfl
      · have hl : id ∈ l := (List.mem_cons.mp h).resolve_left (Ne.symm hx)
        refine iff_of_false (fun he => ?_) fun hlast => hx (Option.some.inj (hlast ((isDetached_iff h0).mpr h)))
        have hlen := congrArg Multiset.card he
        rw [Multiset.coe_card, Multiset.coe_card, remove_cons_of_ne h0 hx hl, List.length_erase_of_mem h,
          List.length_cons] at hlen
        have hlt := length_remove_lt hl h0
        omega
  · rw [remove_eq_self h, List.erase_of_not_mem h]
    exact iff_of_true rfl fun hm => absurd ((isDetached_iff h0).mp hm) h

theorem apply_eq_keep_iff : (apply l c : Multiset Int) = keep l c ↔ Latest l c := by
  cases c with
  | detach id =>
    refine iff_of_true ?_ trivial
    show ((if id = 0 then l else id :: l : List Int) : Multiset Int) = if id = 0 then ↑l else id ::ₘ ↑l
    split
    · rfl
    · rfl
  | remove id =>
    by_cases h0 : id = 0
    · subst h0
      exact iff_of_true rfl fun hm => Bool.noConfusion hm
    · show (Detached.remove id l : Multiset Int) = (if id = 0 then ↑l else (l : Multiset Int).erase id) ↔ _
      rw [if_neg h0]
      exact remove_eq_erase_iff h0

/-- The list is the multiset all along the calls exactly if each of them removes the latest task. -/
theorem multiset_iff_latest (cs : List DetachCall) :
    (∀ cs', cs' <+: cs → (run cs' : Multiset Int) = kept cs') ↔ Along apply Latest [] cs := by
  have hlists (es : List DetachCall) (s : List Int × Multiset Int) :
      es.foldl (fun s c => (apply s.1 c, keep s.2 c)) s = (es.foldl apply s.1, es.foldl keep s.2) := by
    induction es generalizing s with
    | nil => rfl
    | cons c es ih => exact ih _
  let step (s : List Int × Multiset Int) (c : DetachCall) := (apply s.1 c, keep s.2 c)
  have hstep (s : List Int × Multiset Int) (c : DetachCall) (hs : (s.1 : Multiset Int) = s.2) :
      ((step s c).1 : Multiset Int) = (step s c).2 ↔ Latest s.1 c := by
    show (apply s.1 c : Multiset Int) = keep s.2 c ↔ _
    rw [← hs]
    exact apply_eq_keep_iff
  have hall : (∀ cs', cs' <+: cs → _) ↔ Along step (fun s c => Latest s.1 c) ([], 0) cs :=
    along_iff_of_prefixes (fun s => (s.1 : Multiset Int) = s.2) rfl hstep
  simp only [step, hlists] at hall
  exact hall.trans (along_map Prod.fst fun _ _ => rfl).symm

theorem count_keep (h0 : id ≠ 0) (m : Multiset Int) (c : DetachCall) :
    (keep m c).count id + (if c = remove id ∧ id ∈ m then 1 else 0) = m.count id + if c == detach id then 1 else 0 := by
  cases c with
  | detach id' =>
    have hr : ¬(detach id' = remove id ∧ id ∈ m) := fun h => DetachCall.noConfusion h.1
    rw [if_neg hr]
    show (if id' = 0 then m else id' ::ₘ m).count id + 0 = _
    by_cases hid : id' = id
    · subst hid
      rw [if_neg h0, Multiset.count_cons_self, if_pos (beq_self_eq_true _)]
    · have hd : ¬(detach id' == detach id) = true := fun h => hid (DetachCall.detach.inj (eq_of_beq h))
      rw [if_neg hd]
      split
      · rfl
      · rw [Multiset.count_cons_of_ne (Ne.symm hid)]
  | remove id' =>
    have hd : ¬(remove id' == detach id) = true := fun h => DetachCall.noConfusion (eq_of_beq h)
    rw [if_neg hd]
    show (if id' = 0 then m else m.erase id').count id + _ = m.count id + 0
    by_cases hid : id' = id
    · subst hid
      rw [if_neg h0, Multiset.count_erase_self]
      by_cases hm : id' ∈ m
      · have hpos : 0 < m.count id' := Multiset.count_pos.mpr hm
        rw [if_pos ⟨rfl, hm⟩]
        omega
      · rw [if_neg fun h => hm h.2, Multiset.count_eq_zero.mpr hm]
    · have hr : ¬(remove id' = remove id ∧ id ∈ m) := fun h => hid (DetachCall.remove.inj h.1)
      rw [if_neg hr]
      split
      · rfl
      · rw [Multiset.count_erase_of_ne (Ne.symm hid)]

theorem count_foldl_keep (h0 : id ≠ 0) (m : Multiset Int) (cs : List DetachCall) :
    (cs.foldl keep m).count id + removals id m cs = m.count id + cs.count (detach id) := by
  induction cs generalizing m with
  | nil => rfl
  | cons c cs ih =>
    have hc := count_keep h0 m c
    have hcs := ih (keep m c)
    rw [List.foldl_cons, removals, List.count_cons]
    omega

theorem isDetached_of_multiset (h : (run cs : Multiset Int) = kept cs) (h0 : id ≠ 0) :
    isDetached id (run cs) = true ↔ removals id 0 cs < cs.count (detach id) := by
  have hcount : (kept cs).count id + removals id 0 cs = 0 + cs.count (detach id) := count_foldl_keep h0 0 cs
  rw [isDetached_iff h0, ← Multiset.mem_coe, h, ← Multiset.count_pos]
  omega

theorem kept_concat (cs : List DetachCall) (c : DetachCall) : kept (cs ++ [c]) = keep (kept cs) c :=
  List.foldl_concat _ _ _ _

/-- The multiset answers for a task as before another one was removed. -/
theorem isDetached_concat (h : (run (cs ++ [remove id]) : Multiset Int) = kept (cs ++ [remove id]))
    (h' : (run cs : Multiset Int) = kept cs) (hid : id' ≠ id) :
    isDetached id' (run (cs ++ [remove id])) = isDetached id' (run cs) := by
  have hmem : id' ∈ run (cs ++ [remove id]) ↔ id' ∈ run cs := by
    rw [← Multiset.mem_coe, h, kept_concat, ← Multiset.mem_coe (l := run cs), h']
    show id' ∈ (if id = 0 then kept cs else (kept cs).erase id) ↔ _
    split
    · exact Iff.rfl
    · exact Multiset.mem_erase_of_ne hid
  exact decide_eq_decide.mpr (and_congr_right fun _ => hmem)

/-- The list accounts for the calls all along exactly if each removal is of the task detached last of those in the
list. -/
theorem accounts_iff_latest (cs : List DetachCall) :
    (∀ cs', cs' <+: cs → Accounts cs') ↔ Along apply Latest [] cs := by
  rw [← multiset_iff_latest]
  constructor
  · exact fun h cs' hpre => (h cs' hpre).multiset
  · intro h cs' hpre
    refine ⟨fun id h0 => isDetached_of_multiset (h cs' hpre) h0, h cs' hpre, ?_⟩
    rintro cs₀ id id' rfl hid
    exact isDetached_concat (h _ hpre) (h cs₀ ((List.prefix_append cs₀ _).trans hpre)) hid

/-- The removal of the first of two tasks drops the second one. -/
theorem not_accounts_two_tasks : ¬ ∀ cs', cs' <+: [detach 1, detach 2, remove 1] → Accounts cs' := by
  intro h
  have hothers := (h _ List.prefix_rfl).others [detach 1, detach 2] 1 2 rfl (by decide)
  revert hothers
  decide

end DetachCall
end OphidiaWorkflow.Server.Detached
