import OphidiaWorkflow.Server.JobList

/-! What the lookups make of a list with expired entries. -/
namespace OphidiaWorkflow.Server

open Lib

variable {l l' : JobList} {cs ds kept rest seen pre post : List (Nat × JobInfo)} {c : Nat × JobInfo} {deadline now : Int}
  {q : Query} {prev : Option Nat} {es : List JobInfo} {sz : FarmSize} {wf : JobWorkflow}

namespace JobList

/-- The list has these entries, and its pointers and its counter agree with them. -/
structure Holds (l : JobList) (cs : List (Nat × JobInfo)) : Prop where
  linked : Linked l.heap cs none
  nodup : (cs.map Prod.fst).Nodup
  head : l.head = first cs none
  tail : l.tail = cs.getLast?.map Prod.fst
  counter : l.counter = cs.length

theorem Holds.entries_eq (h : l.Holds cs) : l.entries = cs := by
  unfold entries
  rw [h.head]
  exact h.linked.cellsFrom_eq (h.linked.length_le h.nodup)

theorem Holds.isSome_of_mem (h : l.Holds cs) (hc : c ∈ cs) : (l.heap.load c.1).isSome = true := by
  obtain ⟨n, hn⟩ := h.linked.load_of_mem hc
  rw [hn]
  rfl

theorem setNext_of_mem {p : Nat} (hp : (l.heap.load p).isSome = true) (next : Option Nat) :
    l.setNext p next = some { l with heap := l.heap.modify p fun c => { c with next } } := if_pos hp

theorem not_mem_of_nodup (h : ((kept ++ c :: rest).map Prod.fst).Nodup) : c.1 ∉ (kept ++ rest).map Prod.fst := by
  have hperm : (kept ++ c :: rest).Perm (c :: (kept ++ rest)) := List.perm_middle
  have hn := (hperm.map Prod.fst).nodup_iff.mp h
  exact (List.nodup_cons.mp hn).1

theorem nodup_of_nodup (h : ((kept ++ c :: rest).map Prod.fst).Nodup) : ((kept ++ rest).map Prod.fst).Nodup := by
  refine List.Nodup.sublist (List.Sublist.map _ ?_) h
  exact (List.sublist_cons_self c rest).append_left kept

theorem getLast?_append_cons (kept : List (Nat × JobInfo)) (c : Nat × JobInfo) (rest : List (Nat × JobInfo)) :
    (kept ++ c :: rest).getLast? = some (rest.getLast?.getD c) := by
  rw [List.getLast?_append, List.getLast?_cons]
  rfl

/-- An entry is taken out properly if the pointer to its predecessor is right. At the head of the list it only matters
for the last entry. -/
theorem unlink_spec (h : l.Holds (kept ++ c :: rest))
    (hprev : kept ≠ [] ∨ rest = [] → prev = kept.getLast?.map Prod.fst) :
    ∃ l', l.unlink c.1 prev (first rest none) = some l' ∧ c.1 ∉ (kept ++ rest).map Prod.fst ∧
      Holds { l' with counter := l'.counter - 1 } (kept ++ rest) ∧ l'.saved = l.saved ∧
        l'.heap.next = l.heap.next := by
  have hnot := not_mem_of_nodup h.nodup
  -- the tail, after it has been set back if the last entry goes
  have htail : (if l.tail = some c.1 then prev else l.tail) = (kept ++ rest).getLast?.map Prod.fst := by
    rw [h.tail, getLast?_append_cons]
    cases hr : rest.getLast? with
    | none =>
      have hrest : rest = [] := List.getLast?_eq_none_iff.mp hr
      rw [hprev (.inr hrest), hrest, List.append_nil]
      exact if_pos rfl
    | some d =>
      have hd : d ∈ rest := List.mem_of_getLast? hr
      have hne : d.1 ≠ c.1 := ne_of_not_mem_fst hnot (List.mem_append_right _ hd)
      rw [List.getLast?_append, hr]
      exact if_neg fun he => hne (Option.some.inj he)
  have hcounter : l.counter - 1 = (kept ++ rest).length := by
    rw [h.counter]
    simp only [List.length_append, List.length_cons]
    omega
  have hnodup := nodup_of_nodup h.nodup
  obtain ⟨hkept, hrest⟩ := linked_append.mp h.linked
  unfold unlink
  dsimp only
  rw [htail, h.head, first_append]
  cases hk : kept.getLast? with
  | none =>
    -- the entry is the head
    have hnil : kept = [] := List.getLast?_eq_none_iff.mp hk
    subst hnil
    refine ⟨_, if_pos rfl, hnot, ⟨hrest.2, hnodup, rfl, rfl, hcounter⟩, rfl, rfl⟩
  | some p =>
    obtain ⟨init, rfl⟩ : ∃ init, kept = init ++ [p] := by
      refine ⟨kept.dropLast, (List.dropLast_append_getLast? p ?_).symm⟩
      exact hk
    have hp : p ∈ init ++ [p] := List.mem_append_right _ (List.mem_singleton_self p)
    have hhead : first (init ++ [p]) (first (c :: rest) none) ≠ some c.1 := by
      apply first_ne (List.ne_nil_of_mem hp)
      intro hmem
      exact hnot (List.map_append ▸ List.mem_append_left _ hmem)
    have hsome : (l.heap.load p.1).isSome = true := h.isSome_of_mem (List.mem_append_left _ hp)
    rw [if_neg hhead, hprev (.inl (List.ne_nil_of_mem hp)), hk]
    rw [Option.map_some, Option.elim_some, setNext_of_mem (by exact hsome)]
    refine ⟨_, rfl, hnot, ⟨?_, hnodup, ?_, rfl, hcounter⟩, rfl, rfl⟩
    · -- the predecessor is linked to the rest
      rw [List.map_append] at hnodup
      obtain ⟨hinit, -, hdisj⟩ := List.nodup_append.mp hnodup
      rw [List.map_append] at hinit
      have hp_init : p.1 ∉ init.map Prod.fst := fun hmem =>
        (List.nodup_append.mp hinit).2.2 _ hmem _ (List.mem_singleton_self _) rfl
      have hp_rest : p.1 ∉ rest.map Prod.fst := fun hmem => hdisj _ (List.mem_map_of_mem hp) _ hmem rfl
      exact linked_append.mpr ⟨hkept.relink hp_init _, hrest.2.modify hp_rest _⟩
    · rw [first_append]
      cases init <;> rfl

theorem Holds.free {b : Nat} (h : l.Holds cs) (hb : b ∉ cs.map Prod.fst) : Holds { l with heap := l.heap.free b } cs :=
  ⟨h.linked.free hb, h.nodup, h.head, h.tail, h.counter⟩

end JobList

/-- An entry that a lookup stops at. -/
def Query.Hit (q : Query) (deadline : Int) (e : JobInfo) : Prop := e.expired deadline = false ∧ q.found e.wf = true

/-- What the loop of a lookup can cope with. -/
structure Sparse (deadline : Int) (q : Query) (es : List JobInfo) : Prop where
  /-- Two expired entries in a row are at the head of the list, and not at its end. -/
  adjacent : ∀ pre x y post, es = pre ++ x :: y :: post → x.expired deadline = true → y.expired deadline = true →
    (∀ z ∈ pre, z.expired deadline = true) ∧ post ≠ []
  /-- Nothing has expired after the entry that is found. -/
  after : ∀ pre x post, es = pre ++ x :: post → q.Hit deadline x → ∀ z ∈ post, z.expired deadline = false

namespace JobList

def fresh (deadline : Int) (c : Nat × JobInfo) : Bool := !c.2.expired deadline

/-- What the loop of a lookup should leave: it stops at the entry it finds. -/
def purged (deadline : Int) (q : Query) : List (Nat × JobInfo) → List (Nat × JobInfo)
  | [] => []
  | c :: cs =>
    if c.2.expired deadline then purged deadline q cs
    else if q.found c.2.wf then c :: cs
    else c :: purged deadline q cs

/-- An entry that is taken out right after an expired one, because it has expired too or, once it is found, because it
is to be `dropped`, belongs to a run from the head of the list that does not reach its end. -/
def Removable (deadline : Int) (q : Query) (dropped : Nat × JobInfo → Prop) (cs : List (Nat × JobInfo)) : Prop :=
  ∀ pre x y post, cs = pre ++ x :: y :: post → (∀ z ∈ pre, ¬ q.Hit deadline z.2) → x.2.expired deadline = true →
    (y.2.expired deadline = true ∨ (q.Hit deadline y.2 ∧ dropped y)) →
      (∀ z ∈ pre, z.2.expired deadline = true) ∧ post ≠ []

theorem not_hit_of_expired {e : JobInfo} (h : e.expired deadline = true) : ¬ q.Hit deadline e := by
  intro hit
  exact absurd (h.symm.trans hit.1) (by decide)

theorem removable_of_sparse (h : Sparse deadline q (cs.map Prod.snd)) : Removable deadline q (fun _ => False) cs := by
  rintro pre x y post rfl - hx hy
  have hy' : y.2.expired deadline = true := hy.resolve_right fun h => h.2
  obtain ⟨hpre, hpost⟩ := h.adjacent (pre.map Prod.snd) x.2 y.2 (post.map Prod.snd) (by simp) hx hy'
  exact ⟨fun z hz => hpre z.2 (List.mem_map_of_mem hz), fun hnil => hpost (by rw [hnil]; rfl)⟩

/-- If nothing has expired after the entry that is found, all that has expired goes. -/
theorem purged_eq_filter (h : ∀ pre c post, cs = pre ++ c :: post → q.Hit deadline c.2 →
    ∀ z ∈ post, z.2.expired deadline = false) : purged deadline q cs = cs.filter (fresh deadline) := by
  induction cs with
  | nil => rfl
  | cons c cs ih =>
    have ih' := ih fun pre d post hcs => h (c :: pre) d post (by rw [hcs]; rfl)
    unfold purged
    by_cases he : c.2.expired deadline = true
    · rw [if_pos he, List.filter_cons_of_neg (by simp [fresh, he]), ih']
    · rw [Bool.not_eq_true] at he
      rw [if_neg (by rw [he]; decide), List.filter_cons_of_pos (by simp [fresh, he])]
      split
      · next hf =>
        have hall : cs.filter (fresh deadline) = cs := by
          rw [List.filter_eq_self]
          intro d hd
          have hd' := h [] c cs rfl ⟨he, hf⟩ d hd
          simp [fresh, hd']
        rw [hall]
      · rw [ih']

/-- The entry that is found is among those left. -/
theorem exists_found_purged :
    (∃ c ∈ purged deadline q cs, q.found c.2.wf = true) ↔ ∃ c ∈ cs, q.Hit deadline c.2 := by
  induction cs with
  | nil => simp [purged]
  | cons c cs ih =>
    unfold purged
    simp only [List.mem_cons, exists_eq_or_imp]
    by_cases he : c.2.expired deadline = true
    · rw [if_pos he, ih, or_iff_right (not_hit_of_expired he)]
    · rw [Bool.not_eq_true] at he
      rw [if_neg (by rw [he]; decide)]
      by_cases hf : q.found c.2.wf = true
      · rw [if_pos hf]
        exact iff_of_true ⟨c, List.mem_cons_self, hf⟩ (.inl ⟨he, hf⟩)
      · have hhit : ¬ q.Hit deadline c.2 := fun hit => hf hit.2
        rw [if_neg hf, or_iff_right hhit, ← ih]
        simp only [List.mem_cons, exists_eq_or_imp]
        exact or_iff_right hf

theorem purged_of_sparse (h : Sparse deadline q (cs.map Prod.snd)) :
    purged deadline q cs = cs.filter (fresh deadline) := by
  refine purged_eq_filter fun pre c post hcs hit z hz => ?_
  exact h.after (pre.map Prod.snd) c.2 (post.map Prod.snd) (by rw [hcs]; simp) hit z.2 (List.mem_map_of_mem hz)

/-- A workflow that the loop counts as started. -/
def counted (c : Nat × JobInfo) : Bool := c.2.wf.status ≠ .unknown

/-- The end of the loop over `ds`: an entry that has been found is one of those left. The pointer to its predecessor is
right if the entry before it had not expired, and so is the one to the last entry. -/
structure Ended (deadline : Int) (q : Query) (ds cs : List (Nat × JobInfo)) (w : Walk) : Prop where
  holds : w.list.Holds cs
  exhausted : w.exhausted = false
  ended : w.item = none → (∀ c ∈ ds, ¬ q.Hit deadline c.2) ∧
    ((∀ c ∈ ds.getLast?, c.2.expired deadline = false) → w.prev = cs.getLast?.map Prod.fst) ∧
    w.running = cs.countP counted
  item : ∀ b ∈ w.item, ∃ pre c post seen, cs = pre ++ c :: post ∧ c.1 = b ∧ ds = seen ++ c :: post ∧
    q.Hit deadline c.2 ∧ (∀ z ∈ seen, ¬ q.Hit deadline z.2) ∧ (pre = [] ↔ ∀ z ∈ seen, z.2.expired deadline = true) ∧
    ((∀ z ∈ seen.getLast?, z.2.expired deadline = false) → w.prev = pre.getLast?.map Prod.fst)

/-- Before an expired entry that can be taken out the pointer to its predecessor is right, unless nothing has been kept
and more follows. -/
theorem Removable.prev_eq {dropped : Nat × JobInfo → Prop} (hs : Removable deadline q dropped ds)
    (hds : ds = seen ++ c :: rest) (he : c.2.expired deadline = true) (hseen : ∀ c ∈ seen, ¬ q.Hit deadline c.2)
    (hkept : kept = [] ↔ ∀ c ∈ seen, c.2.expired deadline = true)
    (hprev : (∀ c ∈ seen.getLast?, c.2.expired deadline = false) → prev = kept.getLast?.map Prod.fst) :
    kept ≠ [] ∨ rest = [] → prev = kept.getLast?.map Prod.fst := by
  intro hor
  apply hprev
  intro x hx
  by_contra hx'
  rw [Bool.not_eq_false] at hx'
  obtain ⟨init, rfl⟩ : ∃ init, seen = init ++ [x] := ⟨_, (List.dropLast_append_getLast? x hx).symm⟩
  rw [List.append_assoc] at hds
  obtain ⟨hinit, hpost⟩ := hs init x c rest hds (fun z hz => hseen z (List.mem_append_left _ hz)) hx' (.inl he)
  rcases hor with hne | hnil
  · exact hne (hkept.mpr (List.forall_mem_append.mpr ⟨hinit, List.forall_mem_singleton.mpr hx'⟩))
  · exact hpost hnil

theorem findLoop_ended {dropped : Nat × JobInfo → Prop} (hs : Removable deadline q dropped ds)
    (h : l.Holds (kept ++ rest)) (hds : ds = seen ++ rest) (hseen : ∀ c ∈ seen, ¬ q.Hit deadline c.2)
    (hkept : kept = [] ↔ ∀ c ∈ seen, c.2.expired deadline = true)
    (hprev : (∀ c ∈ seen.getLast?, c.2.expired deadline = false) → prev = kept.getLast?.map Prod.fst) {n : Nat}
    (hn : rest.length ≤ n) :
    ∃ w, findLoop deadline q n (first rest none) prev (kept.countP counted) l = some w ∧
      Ended deadline q ds (kept ++ purged deadline q rest) w ∧ w.list.heap.next = l.heap.next ∧ w.list.saved = l.saved := by
  induction rest generalizing l kept seen prev n with
  | nil =>
    rw [List.append_nil] at hds
    subst hds
    refine ⟨⟨l, none, prev, kept.countP counted, false⟩, ?_, ⟨h, rfl, fun _ => ⟨hseen, ?_⟩, nofun⟩, rfl, rfl⟩
    · cases n <;> rfl
    · rw [purged, List.append_nil]
      exact ⟨hprev, rfl⟩
  | cons c rest ih =>
    cases n with
    | zero => cases hn
    | succ n =>
      have hload := (linked_append.mp h.linked).2.1
      have hds' : ds = (seen ++ [c]) ++ rest := by
        rw [List.append_assoc]
        exact hds
      show ∃ w, (l.heap.load c.1).bind _ = some w ∧ _
      rw [hload, Option.bind_some, purged]
      dsimp only
      by_cases he : c.2.expired deadline = true
      · -- an expired entry before this one belongs to a run from the head on
        have hprev' := hs.prev_eq hds he hseen hkept hprev
        have hpos : l.counter ≠ 0 := by
          rw [h.counter, List.length_append, List.length_cons]
          omega
        obtain ⟨l', hl', hnot, hholds, hsaved, hnext⟩ := unlink_spec h hprev'
        rw [if_pos he, if_pos he, if_neg hpos, hl', Option.bind_some]
        have hseen' : ∀ x ∈ seen ++ [c], ¬ q.Hit deadline x.2 :=
          List.forall_mem_append.mpr ⟨hseen, List.forall_mem_singleton.mpr (not_hit_of_expired he)⟩
        have hkept' : kept = [] ↔ ∀ x ∈ seen ++ [c], x.2.expired deadline = true := by
          rw [hkept]
          simp [or_imp, forall_and, he]
        have hlast : (∀ x ∈ (seen ++ [c]).getLast?, x.2.expired deadline = false) →
            some c.1 = kept.getLast?.map Prod.fst := by
          intro hlast
          have hc := hlast c (by simp)
          exact absurd (he.symm.trans hc) (by decide)
        obtain ⟨w, hw, hend, hwn, hws⟩ :=
          ih (hholds.free hnot) hds' hseen' hkept' hlast (Nat.le_of_succ_le_succ hn)
        exact ⟨w, hw, hend, hwn.trans hnext, hws.trans hsaved⟩
      · rw [Bool.not_eq_true] at he
        have hne : ¬ c.2.expired deadline = true := by rw [he]; decide
        rw [if_neg hne, if_neg hne]
        by_cases hf : q.found c.2.wf = true
        · rw [if_pos hf, if_pos hf]
          refine ⟨_, rfl, ⟨h, rfl, nofun, ?_⟩, rfl, rfl⟩
          rintro b ⟨⟩
          exact ⟨kept, c, rest, seen, rfl, rfl, hds, ⟨he, hf⟩, hseen, hkept, hprev⟩
        · rw [if_neg hf, if_neg hf, List.append_cons]
          have h' : l.Holds ((kept ++ [c]) ++ rest) := by
            rw [← List.append_cons]
            exact h
          have hcount : (if c.2.wf.status = .unknown then kept.countP counted else kept.countP counted + 1) =
              (kept ++ [c]).countP counted := by
            rw [List.countP_append, List.countP_singleton]
            unfold counted
            split <;> simp_all
          rw [hcount]
          have hseen' : ∀ x ∈ seen ++ [c], ¬ q.Hit deadline x.2 :=
            List.forall_mem_append.mpr ⟨hseen, List.forall_mem_singleton.mpr fun hit => hf hit.2⟩
          refine ih h' hds' hseen' ?_ (fun _ => ?_) (Nat.le_of_succ_le_succ hn)
          · refine iff_of_false (List.append_ne_nil_of_right_ne_nil _ (List.cons_ne_nil _ _)) fun hall => ?_
            have hc := hall c (List.mem_append_right _ (List.mem_singleton_self _))
            exact absurd (he.symm.trans hc) (by decide)
          · rw [List.getLast?_append]
            rfl

theorem walk_ended {dropped : Nat × JobInfo → Prop} (h : l.Holds cs) (hs : Removable deadline q dropped cs) :
    ∃ w, l.walk deadline q = some w ∧ Ended deadline q cs (purged deadline q cs) w ∧ w.list.heap.next = l.heap.next ∧
      w.list.saved = l.saved := by
  have hlen := h.linked.length_le h.nodup
  have hloop := @findLoop_ended l cs [] cs [] deadline q none dropped hs h rfl (List.forall_mem_nil _)
    (iff_of_true rfl (List.forall_mem_nil _)) (fun _ => rfl) _ hlen
  unfold walk
  rw [h.head]
  exact hloop

/-- The second loop finds the first entry that has not been started. -/
theorem scanUnstarted_eq {h : Heap (Cell JobInfo)} (hl : Linked h cs none) {n : Nat} (hn : cs.length ≤ n) :
    scanUnstarted h n (first cs none) = some ((cs.find? fun c => !counted c).map Prod.fst) := by
  induction cs generalizing n with
  | nil => cases n <;> rfl
  | cons c cs ih =>
    cases n with
    | zero => cases hn
    | succ n =>
      show (h.load c.1).bind _ = _
      rw [hl.1, Option.bind_some]
      dsimp only
      by_cases hu : c.2.wf.status = .unknown
      · rw [if_pos hu, List.find?_cons_of_pos (by simp [counted, hu])]
        rfl
      · rw [if_neg hu, List.find?_cons_of_neg (by simp [counted, hu])]
        exact ih hl.2 (Nat.le_of_succ_le_succ hn)

/-- A lookup leaves what its loop leaves. The one for an unstarted workflow finds the first, if there is a place. -/
theorem find_purged {dropped : Nat × JobInfo → Prop} (sz : FarmSize) (h : l.Holds cs)
    (hs : Removable deadline q dropped cs) :
    ∃ w, l.find sz deadline q = some w ∧ w.list.Holds (purged deadline q cs) ∧ w.list.heap.next = l.heap.next ∧
      (q ≠ .unstarted → Ended deadline q cs (purged deadline q cs) w) ∧
      (q = .unstarted → w.item = if sz.farm ≠ 0 ∧ (purged deadline q cs).countP counted < sz.farm ∧
          (purged deadline q cs).countP counted < (purged deadline q cs).length then
        ((purged deadline q cs).find? fun c => !counted c).map Prod.fst else none) := by
  obtain ⟨w, hw, hend, hnext, -⟩ := walk_ended h hs
  unfold find
  rw [hw, Option.bind_some]
  have hlist := hend.holds
  by_cases hq : q = .unstarted
  · have hitem : w.item = none := by
      rw [Option.eq_none_iff_forall_not_mem]
      intro b hb
      obtain ⟨pre, c, post, seen, -, -, -, hit, -⟩ := hend.item b hb
      rw [hq] at hit
      cases hit.2
    obtain ⟨-, -, hrunning⟩ := hend.ended hitem
    rw [← hlist.counter, ← hrunning]
    by_cases hplace : sz.farm ≠ 0 ∧ w.running < sz.farm ∧ w.running < w.list.counter
    · rw [if_pos ⟨hq, hend.exhausted, hplace⟩, if_pos hplace, hlist.head,
        scanUnstarted_eq hlist.linked (hlist.linked.length_le hlist.nodup), Option.map_some]
      exact ⟨_, rfl, hlist, hnext, fun hne => absurd hq hne, fun _ => rfl⟩
    · rw [if_neg fun hc => hplace hc.2.2, if_neg hplace]
      exact ⟨w, rfl, hlist, hnext, fun hne => absurd hq hne, fun _ => hitem⟩
  · rw [if_neg fun hc => hq hc.1]
    exact ⟨w, rfl, hlist, hnext, fun _ => hend, fun he => absurd he hq⟩

theorem find_ended (sz : FarmSize) (h : l.Holds cs) (hs : Sparse deadline q (cs.map Prod.snd)) :
    ∃ w, l.find sz deadline q = some w ∧ w.list.Holds (cs.filter (fresh deadline)) ∧
      (∀ b ∈ w.item, b ∈ (cs.filter (fresh deadline)).map Prod.fst) ∧
      (q ≠ .unstarted → Ended deadline q cs (cs.filter (fresh deadline)) w) := by
  obtain ⟨w, hw, hholds, -, hend, hfirst⟩ := find_purged sz h (removable_of_sparse hs)
  rw [purged_of_sparse hs] at hholds hend hfirst
  refine ⟨w, hw, hholds, fun b hb => ?_, hend⟩
  by_cases hq : q = .unstarted
  · rw [hfirst hq] at hb
    split at hb
    · obtain ⟨c, hc, rfl⟩ := Option.map_eq_some_iff.mp hb
      exact List.mem_map_of_mem (List.mem_of_find?_eq_some hc)
    · cases hb
  · obtain ⟨pre, c, post, -, hcs, rfl, -⟩ := (hend hq).item b hb
    rw [hcs]
    exact List.mem_map_of_mem (List.mem_append_right _ List.mem_cons_self)

end JobList

/-- What a lookup can cope with: as for its loop, and the entry before the one it returns as predecessor. -/
structure Copes (deadline : Int) (q : Query) (prev : Bool) (es : List JobInfo) : Prop extends Sparse deadline q es where
  /-- The entry before the one that is found has not expired, if it is asked for. -/
  before : prev = true → q.givesPrev = true → ∀ pre x y post, es = pre ++ x :: y :: post → q.Hit deadline y →
    x.expired deadline = false
  /-- The lookup by workflow also returns the last entry if it finds nothing. -/
  last : prev = true → (∃ s id, q = .workflow s id) → (∀ x ∈ es, ¬ q.Hit deadline x) →
    ∀ x ∈ es.getLast?, x.expired deadline = false

theorem copes_of_length_le_one {prev : Bool} (h : es.length ≤ 1) (hq : ∀ s id, q ≠ .workflow s id) :
    Copes deadline q prev es := by
  have htwo (pre : List JobInfo) (x y : JobInfo) (post : List JobInfo) (hes : es = pre ++ x :: y :: post) : False := by
    rw [hes, List.length_append] at h
    simp only [List.length_cons] at h
    omega
  constructor
  · constructor
    · intro pre x y post hes
      exact (htwo pre x y post hes).elim
    · intro pre x post hes _ z hz
      obtain ⟨s, t, rfl⟩ := List.append_of_mem hz
      cases s with
      | nil => exact (htwo _ _ _ _ hes).elim
      | cons y s => exact (htwo _ _ _ _ hes).elim
  · intro _ _ pre x y post hes
    exact (htwo pre x y post hes).elim
  · rintro _ ⟨s, id, h⟩
    exact absurd h (hq s id)

namespace JobList

/-- The lookup returns, leaves the entries that have not expired, and returns no pointer to a freed block. -/
def Purges (sz : FarmSize) (l : JobList) (deadline : Int) (q : Query) (prev : Bool) : Prop :=
  ∃ w, l.find sz deadline q = some w ∧ w.list.Holds (l.entries.filter (fresh deadline)) ∧
    (∀ b ∈ w.item, (w.list.heap.load b).isSome = true) ∧
    (prev = true → ∀ b ∈ w.written q, (w.list.heap.load b).isSome = true)

theorem Holds.isSome_of_fst {b : Nat} (h : l.Holds cs) (hb : b ∈ cs.map Prod.fst) : (l.heap.load b).isSome = true := by
  obtain ⟨c, hc, rfl⟩ := List.mem_map.mp hb
  exact h.isSome_of_mem hc

theorem mem_fst_of_getLast? {b : Nat} (hb : b ∈ pre.getLast?.map Prod.fst) : b ∈ pre.map Prod.fst := by
  obtain ⟨c, hc, rfl⟩ := Option.map_eq_some_iff.mp hb
  exact List.mem_map_of_mem (List.mem_of_getLast? hc)

theorem Ended.prev_eq {w : Walk} {b : Nat} (hend : Ended deadline q ds cs w)
    (hc : Copes deadline q true (ds.map Prod.snd)) (hq : q.givesPrev = true) (hb : w.item = some b) :
    ∃ pre c post, cs = pre ++ c :: post ∧ c.1 = b ∧ w.prev = pre.getLast?.map Prod.fst := by
  obtain ⟨pre, c, post, seen, hcs, hcb, hds, hhit, -, -, hprev⟩ := hend.item b hb
  refine ⟨pre, c, post, hcs, hcb, hprev fun x hx => ?_⟩
  obtain ⟨init, rfl⟩ : ∃ init, seen = init ++ [x] := ⟨_, (List.dropLast_append_getLast? x hx).symm⟩
  rw [hds] at hc
  exact hc.before rfl hq (init.map Prod.snd) x.2 c.2 (post.map Prod.snd) (by simp) hhit

/-- An entry that is to be dropped can be taken out with the pointer that has been returned. -/
theorem Ended.prev_of_removable {dropped : Nat × JobInfo → Prop} {w : Walk} {b : Nat} (hend : Ended deadline q ds cs w)
    (hs : Removable deadline q dropped ds) (hb : w.item = some b) :
    ∃ pre c post, cs = pre ++ c :: post ∧ c.1 = b ∧ q.Hit deadline c.2 ∧
      (dropped c → pre ≠ [] ∨ post = [] → w.prev = pre.getLast?.map Prod.fst) := by
  obtain ⟨pre, c, post, seen, hcs, hcb, hds, hhit, hseen, hnil, hprev⟩ := hend.item b hb
  refine ⟨pre, c, post, hcs, hcb, hhit, fun hdrop hor => hprev fun x hx => ?_⟩
  by_contra hx'
  rw [Bool.not_eq_false] at hx'
  obtain ⟨init, rfl⟩ : ∃ init, seen = init ++ [x] := ⟨_, (List.dropLast_append_getLast? x hx).symm⟩
  rw [List.append_assoc] at hds
  have hbefore : ∀ z ∈ init, ¬ q.Hit deadline z.2 := fun z hz => hseen z (List.mem_append_left _ hz)
  obtain ⟨hinit, hpost⟩ := hs init x c post hds hbefore hx' (.inr ⟨hhit, hdrop⟩)
  rcases hor with hne | hlast
  · refine hne (hnil.mpr fun z hz => ?_)
    rcases List.mem_append.mp hz with hz | hz
    · exact hinit z hz
    · rw [List.mem_singleton.mp hz]
      exact hx'
  · exact hpost hlast

theorem purges_of_copes {prev : Bool} (sz : FarmSize) (h : l.Holds cs) (hc : Copes deadline q prev (cs.map Prod.snd)) :
    l.Purges sz deadline q prev := by
  obtain ⟨w, hw, hholds, hitem, hend⟩ := find_ended sz h hc.toSparse
  refine ⟨w, hw, ?_, fun b hb => hholds.isSome_of_fst (hitem b hb), ?_⟩
  · rw [h.entries_eq]
    exact hholds
  · rintro rfl b hb
    -- what is returned is the last entry that has been kept
    have hjob (hq : q.givesPrev = true) (hne : q ≠ .unstarted) (hb : b ∈ if w.item.isSome then w.prev else none) :
        (w.list.heap.load b).isSome = true := by
      split at hb
      · next hs =>
        obtain ⟨b', hb'⟩ := Option.isSome_iff_exists.mp hs
        obtain ⟨pre, c, post, hcs, -, hprev⟩ := (hend hne).prev_eq hc hq hb'
        rw [hprev] at hb
        apply hholds.isSome_of_fst
        rw [hcs, List.map_append]
        exact List.mem_append_left _ (mem_fst_of_getLast? hb)
      · cases hb
    cases q with
    | job jobid => exact hjob rfl nofun hb
    | child jobid => exact hjob rfl nofun hb
    | marker s id => cases hb
    | unstarted => cases hb
    | workflow s id =>
      cases hi : w.item with
      | some b' =>
        apply hjob rfl nofun
        rw [hi]
        exact hb
      | none =>
        obtain ⟨hnone, hprev, -⟩ := (hend nofun).ended hi
        have hlast := hc.last rfl ⟨s, id, rfl⟩ (List.forall_mem_map.mpr hnone)
        change b ∈ w.prev at hb
        rw [hprev fun c hc' => hlast c.2 (by rw [List.getLast?_map]; exact Option.mem_map_of_mem _ hc')] at hb
        exact hholds.isSome_of_fst (mem_fst_of_getLast? hb)

theorem link_holds (h : l.Holds cs) (now : Int) (wf : JobWorkflow) :
    ∃ l', l.link now wf = some l' ∧ l'.Holds (cs ++ [(l.heap.next, ⟨now, wf⟩)]) ∧ l'.heap.next = l.heap.next + 1 := by
  have hnot : l.heap.next ∉ cs.map Prod.fst := by
    intro hmem
    obtain ⟨c, hc, he⟩ := List.mem_map.mp hmem
    exact Nat.ne_of_lt (h.linked.lt_next hc) he
  have hnodup : ((cs ++ [(l.heap.next, (⟨now, wf⟩ : JobInfo))]).map Prod.fst).Nodup := by
    rw [List.map_append]
    exact List.Nodup.append h.nodup (List.nodup_singleton _) (by simpa using hnot)
  have hlinked := h.linked.alloc (⟨⟨now, wf⟩, none⟩ : Cell JobInfo)
  have hself := Heap.load_alloc_self l.heap (⟨⟨now, wf⟩, none⟩ : Cell JobInfo)
  have hlast : (cs ++ [(l.heap.next, (⟨now, wf⟩ : JobInfo))]).getLast?.map Prod.fst = some l.heap.next := by
    rw [List.getLast?_concat]
    rfl
  unfold link
  dsimp only
  rw [h.tail]
  cases hk : cs.getLast? with
  | none =>
    have hnil : cs = [] := List.getLast?_eq_none_iff.mp hk
    subst hnil
    refine ⟨_, rfl, ⟨⟨hself, trivial⟩, hnodup, ?_, rfl, ?_⟩, rfl⟩
    · show l.head.or _ = _
      rw [h.head]
      rfl
    · show l.counter + 1 = _
      rw [h.counter]
      rfl
  | some p =>
    obtain ⟨init, rfl⟩ : ∃ init, cs = init ++ [p] := ⟨_, (List.dropLast_append_getLast? p hk).symm⟩
    have hp : p ∈ init ++ [p] := List.mem_append_right _ (List.mem_singleton_self p)
    have hsome : ((l.heap.alloc ⟨⟨now, wf⟩, none⟩).load p.1).isSome = true := by
      obtain ⟨n, hn⟩ := hlinked.load_of_mem hp
      rw [hn]
      rfl
    have hp_init : p.1 ∉ init.map Prod.fst := by
      have hn := h.nodup
      rw [List.map_append] at hn
      exact fun hmem => (List.nodup_append.mp hn).2.2 _ hmem _ (List.mem_singleton_self _) rfl
    have hne : l.heap.next ≠ p.1 := (ne_of_not_mem_fst hnot hp).symm
    rw [Option.map_some, Option.elim_some, setNext_of_mem (by exact hsome)]
    refine ⟨_, rfl, ⟨linked_append.mpr ⟨hlinked.relink hp_init _, ?_, trivial⟩, hnodup, ?_, hlast.symm, ?_⟩, rfl⟩
    · show (Heap.modify _ p.1 _).load l.heap.next = _
      rw [Heap.load_modify_ne hne]
      exact hself
    · show l.head.or _ = _
      rw [h.head]
      cases init <;> rfl
    · show l.counter + 1 = _
      rw [h.counter, ← List.length_concat, List.concat_eq_append]

theorem delete_holds (h : l.Holds (pre ++ c :: post))
    (hprev : pre ≠ [] ∨ post = [] → prev = pre.getLast?.map Prod.fst) (log : Bool) (now : Int) :
    ∃ l', l.delete c.1 prev log now = some l' ∧ l'.Holds (pre ++ post) ∧ l'.heap.next = l.heap.next := by
  obtain ⟨l', hl', hnot, hholds, -, hnext⟩ := unlink_spec h hprev
  have hload := (linked_append.mp h.linked).2.1
  have hok : decide (l.head = some c.1 ∨ prev.isSome = true) = true := by
    rw [decide_eq_true_iff, h.head]
    cases pre with
    | nil => exact .inl rfl
    | cons d pre =>
      right
      rw [hprev (.inl (List.cons_ne_nil d pre)), List.getLast?_cons]
      rfl
  unfold delete drop
  rw [hload, Option.bind_some, hl', Option.map_some, Option.map_some]
  dsimp only
  rw [hok, if_pos rfl]
  refine ⟨_, rfl, ?_⟩
  split
  · exact ⟨⟨hholds.linked.modify hnot _, hholds.nodup, hholds.head, hholds.tail, hholds.counter⟩, hnext⟩
  · exact ⟨hholds.free hnot, hnext⟩

/-- The calls in which the lookup copes with the expired entries. -/
def Meets (sz : FarmSize) (l : JobList) : JobCall → Prop
  | .insert wf _ deadline => sz.full l.counter = true ∨ Copes deadline (.job wf.idjob) false (l.entries.map Prod.snd)
  | .find q deadline prev => Copes deadline q prev (l.entries.map Prod.snd)
  | .delete q deadline _ _ => Copes deadline q true (l.entries.map Prod.snd)

/-- What each call has to do, by its lookup. -/
def Sound (sz : FarmSize) (l : JobList) : JobCall → Prop
  | .insert wf _ deadline => sz.full l.counter = true ∨ l.Purges sz deadline (.job wf.idjob) false
  | .find q deadline prev => l.Purges sz deadline q prev
  | .delete q deadline _ _ => l.Purges sz deadline q true

theorem call_holds {a : JobCall} (h : l.Holds cs) (ha : l.Meets sz a) :
    l.Sound sz a ∧ ∃ l' cs', l.call sz a = some l' ∧ l'.Holds cs' := by
  cases a with
  | insert wf now deadline =>
    unfold Meets at ha
    rw [h.entries_eq] at ha
    show (_ ∨ _) ∧ ∃ l' cs', (l.insert sz now deadline wf).map Prod.snd = some l' ∧ _
    unfold insert
    by_cases hf : sz.full l.counter = true
    · rw [if_pos hf]
      exact ⟨.inl hf, l, cs, rfl, h⟩
    · have hc := ha.resolve_left hf
      refine ⟨.inr (purges_of_copes sz h hc), ?_⟩
      obtain ⟨w, hw, hholds, -, -⟩ := find_ended sz h hc.toSparse
      rw [if_neg hf, hw, Option.bind_some]
      split
      · exact ⟨_, _, rfl, hholds⟩
      · obtain ⟨l', hl', hholds', -⟩ := link_holds hholds now wf
        rw [hl']
        exact ⟨_, _, rfl, hholds'⟩
  | find q deadline prev =>
    unfold Meets at ha
    rw [h.entries_eq] at ha
    obtain ⟨w, hw, hholds, -, -⟩ := find_ended sz h ha.toSparse
    refine ⟨purges_of_copes sz h ha, w.list, _, ?_, hholds⟩
    show (l.find sz deadline q).map _ = _
    rw [hw]
    rfl
  | delete q deadline log now =>
    unfold Meets at ha
    rw [h.entries_eq] at ha
    obtain ⟨w, hw, hholds, -, hend⟩ := find_ended sz h ha.toSparse
    refine ⟨purges_of_copes sz h ha, ?_⟩
    show ∃ l' cs', l.findAndDelete sz q deadline log now = some l' ∧ _
    unfold findAndDelete
    rw [hw, Option.bind_some]
    split
    · next hq =>
      cases hi : w.item with
      | none => exact ⟨_, _, rfl, hholds⟩
      | some b =>
        have hne : q ≠ .unstarted := by
          rintro rfl
          cases hq
        obtain ⟨pre, c, post, hcs, rfl, hprev⟩ := (hend hne).prev_eq ha hq hi
        have hwritten : w.written q = w.prev := by
          cases q with
          | job jobid => exact if_pos (by rw [hi]; rfl)
          | child jobid => exact if_pos (by rw [hi]; rfl)
          | workflow s id => rfl
          | marker s id => cases hq
          | unstarted => cases hq
        rw [hcs] at hholds
        obtain ⟨l', hl', hholds', -⟩ := delete_holds hholds (fun _ => hprev) log now
        rw [hwritten, Option.elim_some]
        exact ⟨l', _, hl', hholds'⟩
    · exact ⟨_, _, rfl, hholds⟩

/-- The calls one after the other; there is no list left once a freed block has been used. -/
def runCall (sz : FarmSize) (s : Option JobList) (a : JobCall) : Option JobList := s.bind fun l => l.call sz a

/-- From the list that `oph_create_job_list` returns on, as long as the lookups cope with the expired entries, each of
them leaves those that have not expired, and the list is in order. -/
theorem sound_run {sz : FarmSize} {as : List JobCall}
    (h : Along (runCall sz) (fun s a => ∀ l ∈ s, l.Meets sz a) (some {}) as) :
    Along (runCall sz) (fun s a => ∃ l, s = some l ∧ l.Sound sz a) (some {}) as ∧
      ∃ l, as.foldl (runCall sz) (some {}) = some l ∧ l.Holds l.entries := by
  let I (s : Option JobList) : Prop := ∃ l cs, s = some l ∧ l.Holds cs
  have h0 : I (some {}) := ⟨{}, [], rfl, trivial, List.nodup_nil, rfl, rfl, rfl⟩
  have hstep (s : Option JobList) (a : JobCall) (hI : I s) (ha : ∀ l ∈ s, l.Meets sz a) : I (runCall sz s a) := by
    obtain ⟨l, cs, rfl, hholds⟩ := hI
    exact (call_holds hholds (ha l rfl)).2
  constructor
  · refine Along.of_induct I h0 hstep (fun s a hI ha => ?_) h
    obtain ⟨l, cs, rfl, hholds⟩ := hI
    exact ⟨l, rfl, (call_holds hholds (ha l rfl)).1⟩
  · obtain ⟨l, cs, hl, hholds⟩ := Along.run_induct I h0 hstep h
    refine ⟨l, hl, ?_⟩
    rw [hholds.entries_eq]
    exact hholds

/-- One entry that has expired. -/
theorem sound_run_one :
    let as := [JobCall.insert { idjob := 1 } 1 0, .find (.job 2) 5 true]
    Along (runCall ⟨1, 0⟩) (fun s a => ∃ l, s = some l ∧ l.Sound ⟨1, 0⟩ a) (some {}) as ∧
      ∃ l, as.foldl (runCall ⟨1, 0⟩) (some {}) = some l ∧ l.Holds l.entries := by
  refine sound_run ⟨?_, ?_, trivial⟩
  · rintro l ⟨⟩
    exact .inr (copes_of_length_le_one (Nat.zero_le 1) nofun)
  · rintro l ⟨⟩
    exact copes_of_length_le_one (Nat.le_refl 1) nofun

/-- Two entries that have expired: the tail of the empty list points to the first one, which has been freed. -/
theorem not_sound_run_two : ¬ Along (runCall ⟨2, 0⟩) (fun s a => ∃ l, s = some l ∧ l.Sound ⟨2, 0⟩ a) (some {})
    [.insert { idjob := 1 } 1 0, .insert { idjob := 2 } 1 0, .find (.job 3) 5 false] := by
  rintro ⟨-, -, ⟨l, hl, w, hw, hholds, -⟩, -⟩
  cases hl
  cases hw
  have htail := hholds.tail
  revert htail
  decide

end JobList
end OphidiaWorkflow.Server
