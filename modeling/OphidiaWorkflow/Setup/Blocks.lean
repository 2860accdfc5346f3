import OphidiaWorkflow.Setup.FlowControl
import OphidiaWorkflow.Setup.Topological

/-! What the links set by `oph_workflow_validate_fco` promise about loops and selections. -/
namespace OphidiaWorkflow

/-- Task `b` is one of the dependents of task `a`. -/
def Dependent (tasks : Nat → Task) (a b : Nat) : Prop := b ∈ (tasks a).dependentsIndexes

/-- Task `b` is reached from task `a`. -/
def Descendant (tasks : Nat → Task) : Nat → Nat → Prop := Relation.TransGen (Dependent tasks)

/-- The workflows differ by the links of their tasks only. -/
structure SameGraph (wf wf' : Workflow) : Prop where
  rest : { wf' with tasks := wf.tasks } = wf
  unlink : ∀ j, (wf'.tasks j).unlink = (wf.tasks j).unlink

namespace SameGraph

variable {wf wf' wf'' : Workflow}

theorem refl (wf : Workflow) : SameGraph wf wf := ⟨rfl, fun _ => rfl⟩

theorem trans (h : SameGraph wf wf') (h' : SameGraph wf' wf'') : SameGraph wf wf'' := by
  refine ⟨?_, fun j => (h'.unlink j).trans (h.unlink j)⟩
  calc { wf'' with tasks := wf.tasks } = { { wf'' with tasks := wf'.tasks } with tasks := wf.tasks } := rfl
    _ = { wf' with tasks := wf.tasks } := by rw [h'.rest]
    _ = wf := h.rest

theorem modify (wf : Workflow) (i : Nat) {f : Task → Task} (hf : ∀ t, (f t).unlink = t.unlink) :
    SameGraph wf (wf.modify i f) := by
  refine ⟨rfl, fun j => ?_⟩
  rw [Workflow.modify_tasks]
  split
  · rename_i h
    rw [hf, h]
  · rfl

theorem tasksNum (h : SameGraph wf wf') : wf'.tasksNum = wf.tasksNum := congrArg (fun wf => wf.tasksNum) h.rest

theorem stack (h : SameGraph wf wf') : wf'.stack = wf.stack := congrArg (fun wf => wf.stack) h.rest

theorem operator (h : SameGraph wf wf') (j : Nat) : (wf'.tasks j).operator = (wf.tasks j).operator :=
  congrArg (fun t => t.operator) (h.unlink j)

theorem dependents (h : SameGraph wf wf') (j : Nat) :
    (wf'.tasks j).dependentsIndexes = (wf.tasks j).dependentsIndexes :=
  congrArg (fun t => t.dependentsIndexes) (h.unlink j)

theorem dependent (h : SameGraph wf wf') : Dependent wf'.tasks = Dependent wf.tasks := by
  funext a b
  simp only [Dependent, h.dependents]

theorem descendant (h : SameGraph wf wf') : Descendant wf'.tasks = Descendant wf.tasks := by
  unfold Descendant
  rw [h.dependent]

end SameGraph

/-! ## One search -/

/-- No link differs. -/
structure SameLinks (s s' : Search) : Prop where
  parent : ∀ j, (s'.wf.tasks j).parent = (s.wf.tasks j).parent
  child : ∀ k, (s'.wf.tasks k).child = (s.wf.tasks k).child
  found : s'.child = s.child

/-- Task `j` is the only one that has been linked, and it is the end of task `p`. -/
structure Joined (p : Nat) (s s' : Search) (j : Nat) : Prop where
  parent : (s'.wf.tasks j).parent = p
  child : (s'.wf.tasks p).child = j
  found : s'.child = j
  others : ∀ i ≠ j, (s'.wf.tasks i).parent = (s.wf.tasks i).parent

/-- What a search that has counted `n` ends has done. -/
structure Counts (q : Query) (s s' : Search) (n : Nat) : Prop where
  graph : SameGraph s.wf s'.wf
  parent : ∀ j, (s'.wf.tasks j).parent = (s.wf.tasks j).parent ∨
    (s.wf.tasks j).parent < 0 ∧ (s'.wf.tasks j).parent = q.p ∧ (s.wf.tasks j).operator = q.op ∧
      Descendant s.wf.tasks q.p j
  child : ∀ k ≠ q.p, (s'.wf.tasks k).child = (s.wf.tasks k).child
  last : (s'.wf.tasks q.p).child = (s.wf.tasks q.p).child ∨
    ∃ j : Nat, (s'.wf.tasks q.p).child = j ∧ (s'.wf.tasks j).parent = q.p
  none : n = 0 → SameLinks s s'
  one : n = 1 → (∃ j, (s.wf.tasks j).operator = q.op ∧ Descendant s.wf.tasks q.p j ∧ Joined q.p s s' j) ∨
    SameLinks s s' ∧ q.gp ≠ q.p

namespace SameLinks

variable {s s' s'' : Search}

theorem trans (h : SameLinks s s') (h' : SameLinks s' s'') : SameLinks s s'' :=
  ⟨fun j => (h'.parent j).trans (h.parent j), fun k => (h'.child k).trans (h.child k), h'.found.trans h.found⟩

theorem joined {p j : Nat} (h : SameLinks s s') (hj : Joined p s' s'' j) : Joined p s s'' j :=
  ⟨hj.parent, hj.child, hj.found, fun i hi => (hj.others i hi).trans (h.parent i)⟩

theorem counts (h : SameLinks s s') (hg : SameGraph s.wf s'.wf) (q : Query) : Counts q s s' 0 :=
  ⟨hg, fun j => .inl (h.parent j), fun k _ => h.child k, .inl (h.child q.p), fun _ => h,
    fun h => absurd h Nat.zero_ne_one⟩

end SameLinks

theorem Joined.trans {p j : Nat} {s s' s'' : Search} (h : Joined p s s' j) (h' : SameLinks s' s'') :
    Joined p s s'' j :=
  ⟨(h'.parent j).trans h.parent, (h'.child p).trans h.child, h'.found.trans h.found,
    fun i hi => (h'.parent i).trans (h.others i hi)⟩

namespace Counts

variable {q : Query} {s s' s'' : Search} {n m : Nat}

theorem refl (q : Query) (s : Search) : Counts q s s 0 :=
  SameLinks.counts ⟨fun _ => rfl, fun _ => rfl, rfl⟩ (.refl s.wf) q

theorem of_wf_eq (h : s'.wf = s.wf) (hc : s'.child = s.child) : Counts q s s' 0 := by
  apply SameLinks.counts
  · exact ⟨fun j => by rw [h], fun k => by rw [h], hc⟩
  · rw [h]
    exact .refl s.wf

theorem parent_eq (h : Counts q s s' n) {j : Nat} (hj : 0 ≤ (s.wf.tasks j).parent) :
    (s'.wf.tasks j).parent = (s.wf.tasks j).parent := by
  rcases h.parent j with hp | ⟨hp, -⟩
  · exact hp
  · omega

theorem trans (h : Counts q s s' n) (h' : Counts q s' s'' m) : Counts q s s'' (n + m) := by
  have hdesc := h.graph.descendant
  refine ⟨h.graph.trans h'.graph, fun j => ?_, fun k hk => (h'.child k hk).trans (h.child k hk), ?_, fun h0 => ?_,
    fun h1 => ?_⟩
  · rcases h'.parent j with hp' | ⟨hn, hp', ho, hd⟩
    · rw [hp']
      exact h.parent j
    · rcases h.parent j with hp | ⟨-, hp, -⟩
      · rw [hdesc] at hd
        rw [h.graph.operator] at ho
        exact .inr ⟨hp ▸ hn, hp', ho, hd⟩
      · omega
  · rcases h'.last with hl' | hl'
    · rcases h.last with hl | ⟨j, hj, hp⟩
      · exact .inl (hl'.trans hl)
      · exact .inr ⟨j, hl'.trans hj, by rw [h'.parent_eq (by omega), hp]⟩
    · exact .inr hl'
  · exact (h.none (by omega)).trans (h'.none (by omega))
  · rcases Nat.eq_zero_or_pos n with hn | hn
    · have hsame := h.none hn
      rcases h'.one (by omega) with ⟨j, ho, hd, hj⟩ | ⟨hl, hne⟩
      · rw [hdesc] at hd
        rw [h.graph.operator] at ho
        exact .inl ⟨j, ho, hd, hsame.joined hj⟩
      · exact .inr ⟨hsame.trans hl, hne⟩
    · have hsame := h'.none (by omega)
      rcases h.one (by omega) with ⟨j, ho, hd, hj⟩ | ⟨hl, hne⟩
      · exact .inl ⟨j, ho, hd, hj.trans hsame⟩
      · exact .inr ⟨hl.trans hsame, hne⟩

end Counts

namespace Search

variable {q : Query} {s : Search} {j k : Nat}

theorem raiseLevel_wf (s : Search) (j : Nat) (n : Int) : (s.raiseLevel j n).wf = s.wf := by
  unfold raiseLevel
  split <;> rfl

theorem raiseLevel_child (s : Search) (j : Nat) (n : Int) : (s.raiseLevel j n).child = s.child := by
  unfold raiseLevel
  split <;> rfl

theorem raiseLevel_counts (q : Query) (s : Search) (j : Nat) (n : Int) : Counts q s (s.raiseLevel j n) 0 :=
  .of_wf_eq (raiseLevel_wf s j n) (raiseLevel_child s j n)

theorem modify_sameLinks {f : Task → Task} (hp : ∀ t, (f t).parent = t.parent) (hc : ∀ t, (f t).child = t.child) :
    SameLinks s { s with wf := s.wf.modify j f } := by
  refine ⟨fun i => ?_, fun i => ?_, rfl⟩ <;> rw [Workflow.modify_tasks] <;> split
  · rename_i h
    rw [hp, h]
  · rfl
  · rename_i h
    rw [hc, h]
  · rfl

theorem raiseNesting_counts (q : Query) (s : Search) (p : Nat) (n : Int) : Counts q s (s.raiseNesting p n) 0 := by
  unfold raiseNesting
  split
  · exact (modify_sameLinks (f := fun t => t.setNesting n) (fun _ => rfl) fun _ => rfl).counts
      (.modify s.wf p (f := fun t => t.setNesting n) fun _ => rfl) q
  · exact .refl q s

theorem mark_sameLinks (s : Search) (j : Nat) : SameLinks s (s.mark j) := by
  have h : SameLinks s { s with wf := s.wf.modify j Task.countBranch } := modify_sameLinks (fun _ => rfl) fun _ => rfl
  exact ⟨h.parent, h.child, rfl⟩

theorem mark_graph (s : Search) (j : Nat) : SameGraph s.wf (s.mark j).wf :=
  .modify s.wf j (f := Task.countBranch) fun _ => rfl

theorem link_graph (s : Search) (p j : Nat) : SameGraph s.wf (s.link p j).wf := by
  have hp := SameGraph.modify s.wf j (f := fun t => t.setParent p) fun _ => rfl
  exact hp.trans (.modify _ p (f := fun t => t.setChild j) fun _ => rfl)

theorem link_parent (s : Search) (p j i : Nat) :
    ((s.link p j).wf.tasks i).parent = if i = j then (p : Int) else (s.wf.tasks i).parent := by
  simp only [link, Workflow.modify_tasks]
  split_ifs <;> simp_all [Task.setParent, Task.setChild]

theorem link_childOf (s : Search) (p j i : Nat) :
    ((s.link p j).wf.tasks i).child = if i = p then (j : Int) else (s.wf.tasks i).child := by
  simp only [link, Workflow.modify_tasks]
  split_ifs <;> simp_all [Task.setParent, Task.setChild]

theorem link_counts (ho : (s.wf.tasks j).operator = q.op) (hd : Descendant s.wf.tasks q.p j)
    (hp : (s.wf.tasks j).parent < 0 ∨ (s.wf.tasks j).parent = q.p) : Counts q s (s.link q.p j) 1 := by
  have hj : Joined q.p s (s.link q.p j) j := by
    refine ⟨?_, ?_, rfl, fun i hi => ?_⟩
    · rw [link_parent, if_pos rfl]
    · rw [link_childOf, if_pos rfl]
    · rw [link_parent, if_neg hi]
  refine ⟨link_graph s q.p j, fun i => ?_, fun k hk => ?_, .inr ⟨j, hj.child, hj.parent⟩,
    fun h => absurd h Nat.one_ne_zero,
    fun _ => .inl ⟨j, ho, hd, hj⟩⟩
  · by_cases hi : i = j
    · subst hi
      rcases hp with hp | hp
      · exact .inr ⟨hp, hj.parent, ho, hd⟩
      · exact .inl (hj.parent.trans hp.symm)
    · exact .inl (hj.others i hi)
  · rw [link_childOf, if_neg hk]

theorem found_counts (ho : (s.wf.tasks j).operator = q.op) (hd : Descendant s.wf.tasks q.p j) :
    Counts q s (found q s j).1 (found q s j).2 := by
  have hmark : Counts q s (s.mark j) 0 := (mark_sameLinks s j).counts (mark_graph s j) q
  unfold found
  split_ifs with hf hp hg
  · exact .refl q s
  · rw [← (mark_graph s j).operator] at ho
    rw [← (mark_graph s j).descendant] at hd
    rw [← (mark_sameLinks s j).parent] at hp
    exact hmark.trans (link_counts ho hd hp)
  · -- the end belongs to the whole selection
    have hne : q.gp ≠ q.p := fun h => hp (.inr (hg.trans h))
    exact ⟨hmark.graph, hmark.parent, hmark.child, hmark.last, fun h => absurd h Nat.one_ne_zero,
      fun _ => .inr ⟨mark_sameLinks s j, hne⟩⟩
  · exact ⟨hmark.graph, hmark.parent, hmark.child, hmark.last, fun h => absurd h (by simp),
      fun h => absurd h (by simp)⟩

/-- The recursive calls do what a search does. -/
def Sound (q : Query) (next : Int → Nat → Search → Search × Nat) : Prop :=
  ∀ (b : Int) (k : Nat) (s : Search), 0 ≤ b → k = q.p ∨ Descendant s.wf.tasks q.p k →
    Counts q s (next b k s).1 (next b k s).2

theorem visit_counts {next : Int → Nat → Search → Search × Nat} (hnext : Sound q next) {b : Int} (hb : 0 ≤ b)
    (hd : Descendant s.wf.tasks q.p j) : Counts q s (visit q next b s j).1 (visit q next b s j).2 := by
  have hraise := raiseLevel_counts q s j (b + s.level q.p)
  unfold visit
  simp only
  generalize s.raiseLevel j (b + s.level q.p) = t at hraise ⊢
  rw [← hraise.graph.descendant] at hd
  rw [← Nat.zero_add (Prod.snd _)]
  apply hraise.trans
  split_ifs with ht hl hne hne hn
  · exact hnext _ j t (by omega) (.inr hd)
  · omega
  · exact hnext _ j t (by omega) (.inr hd)
  · -- the brackets are balanced, so the operator is the one asked for
    have h0 : b = 0 := not_not.mp hne
    rw [h0, target, if_neg (by omega)] at ht
    exact found_counts ht hd
  · have hnest := (raiseNesting_counts q t q.p (b + 1)).trans
      (raiseLevel_counts q (t.raiseNesting q.p (b + 1)) j (b + 1 + (t.raiseNesting q.p (b + 1)).level q.p))
    rw [← hnest.graph.descendant] at hd
    rw [← Nat.zero_add (Prod.snd _)]
    exact hnest.trans (hnext _ j _ (by omega) (.inr hd))
  · exact hnext b j t hb (.inr hd)

end Search

theorem numberOf_counts (q : Query) (fuel : Nat) : Search.Sound q (numberOf q fuel) := by
  induction fuel with
  | zero =>
    intro b k s _ _
    exact .refl q s
  | succ fuel ih =>
    intro b k s hb hk
    rw [numberOf]
    split_ifs with hn
    · exact .refl q s
    · refine Lib.foldWhile_induct (P := fun r : Search × Nat => Counts q s r.1 r.2) (.refl q s) fun j hj r hr => ?_
      have hd : Descendant s.wf.tasks q.p j := by
        rcases hk with rfl | hk
        · exact .single hj
        · exact hk.tail hj
      rw [← hr.graph.descendant] at hd
      exact hr.trans (Search.visit_counts ih hb hd)

/-- Only the recursive calls at task `j` matter to a visit. -/
theorem Search.visit_congr {q : Query} {next next' : Int → Nat → Search → Search × Nat} {b : Int} (hb : 0 ≤ b)
    {s : Search} {j : Nat} (h : ∀ b' t, 0 ≤ b' → SameGraph s.wf t.wf → next b' j t = next' b' j t) :
    visit q next b s j = visit q next' b s j := by
  have hraise := (raiseLevel_counts q s j (b + s.level q.p)).graph
  unfold visit
  simp only
  generalize s.raiseLevel j (b + s.level q.p) = t at hraise ⊢
  split_ifs with ht hl hne hne hn
  · exact h _ t (by omega) hraise
  · rfl
  · exact h _ t (by omega) hraise
  · rfl
  · have hnest := (raiseNesting_counts q t q.p (b + 1)).graph.trans
      (raiseLevel_counts q (t.raiseNesting q.p (b + 1)) j (b + 1 + (t.raiseNesting q.p (b + 1)).level q.p)).graph
    exact h _ _ (by omega) (hraise.trans hnest)
  · exact h b t hb hraise

theorem numberOf_of_sink {q : Query} {m : Nat} {b : Int} {k : Nat} {s : Search}
    (h : (s.wf.tasks k).dependentsIndexes = []) : numberOf q m b k s = (s, 0) := by
  cases m with
  | zero => rfl
  | succ m =>
    rw [numberOf, h]
    split <;> rfl

/-- In a graph without cycles the depth of the recursion is bounded by the number of tasks. -/
theorem numberOf_eq_of_le {wf : Workflow} (hr : ∀ a, ∀ b ∈ (wf.tasks a).dependentsIndexes, b < wf.tasksNum)
    (hE : Lib.Acyclic (Dependent wf.tasks)) (q : Query) {s : Search} (hs : SameGraph wf s.wf) {fuel : Nat}
    (hf : wf.tasksNum ≤ fuel) : numberOf q fuel 0 q.p s = numberOf q wf.tasksNum 0 q.p s := by
  obtain ⟨rank, hle, hlt⟩ := hE.exists_rank hr
  have hsink {m : Nat} {b : Int} {k : Nat} {s : Search} (hs : SameGraph wf s.wf) (hk : rank k ≤ 0) :
      numberOf q m b k s = (s, 0) := by
    apply numberOf_of_sink
    rw [hs.dependents, List.eq_nil_iff_forall_not_mem]
    intro j hj
    exact absurd (hlt k j hj) (by omega)
  have key : ∀ (m m' : Nat) (b : Int) (k : Nat) (s : Search), SameGraph wf s.wf → 0 ≤ b →
      k = q.p ∨ Descendant s.wf.tasks q.p k → rank k ≤ m → rank k ≤ m' → numberOf q m b k s = numberOf q m' b k s := by
    intro m
    induction m with
    | zero =>
      intro m' b k s hs _ _ hk _
      rw [hsink hs hk, hsink hs hk]
    | succ m ih =>
      intro m' b k s hs hb hk hm hm'
      cases m' with
      | zero => rw [hsink hs hm', hsink hs hm']
      | succ m' =>
        rw [numberOf, numberOf]
        split_ifs
        · rfl
        · rw [Lib.foldWhile_congr (fun r : Search × Nat => SameGraph s.wf r.1.wf) (.refl s.wf)]
          intro j hj r hrj
          have hd : Descendant s.wf.tasks q.p j := by
            rcases hk with rfl | hk
            · exact .single hj
            · exact hk.tail hj
          have hjk := hlt k j (hs.dependent ▸ hj)
          rw [← hrj.descendant] at hd
          refine ⟨?_, hrj.trans (Search.visit_counts (numberOf_counts q m) hb hd).graph⟩
          rw [Search.visit_congr hb fun b' t hb' ht => ih m' b' j t ((hs.trans hrj).trans ht) hb'
            (.inr (ht.descendant ▸ hd)) (by omega) (by omega)]
  exact key _ _ 0 q.p s hs le_rfl (.inl rfl) ((hle _).trans hf) (hle _)

theorem Search.start_counts (q : Query) (s : Search) : Counts q s (s.start q).1 (s.start q).2 := by
  have hflag : Counts q s { s with flag := fun _ => true } 0 := .of_wf_eq rfl rfl
  have h := hflag.trans (numberOf_counts q s.wf.tasksNum 0 q.p { s with flag := fun _ => true } le_rfl (.inl rfl))
  rwa [Nat.zero_add] at h

/-! ## The validation -/

/-- The ends that a task may be linked to. -/
def Operator.opens : Operator → Operator → Prop
  | .for, o => o = .endfor
  | .if, o | .elseif, o => o = .elseif ∨ o = .else ∨ o = .endif
  | .else, o => o = .endif
  | _, _ => False

def Operator.isBranch : Operator → Bool
  | .elseif | .else => true
  | _ => false

/-- Each link goes from a task to one of its descendants; the tasks from `k` on have no end yet. -/
structure Linking (wf₀ : Workflow) (k : Nat) (wf : Workflow) : Prop where
  graph : SameGraph wf₀ wf
  parent : ∀ j < wf₀.tasksNum, (wf.tasks j).parent < 0 ∨ ∃ p : Nat, p < k ∧ (wf.tasks j).parent = p ∧
    (wf₀.tasks p).operator.opens (wf₀.tasks j).operator ∧ Descendant wf₀.tasks p j
  child : ∀ p < wf₀.tasksNum, (wf.tasks p).child < 0 ∨
    ∃ j : Nat, (wf.tasks p).child = j ∧ (wf.tasks j).parent = p

/-- Task `p` is linked to its ends in the right way. -/
structure Settled (wf : Workflow) (p : Nat) : Prop where
  loop : (wf.tasks p).operator = .for →
    ∃ e : Nat, Descendant wf.tasks p e ∧ (wf.tasks p).child = e ∧ (wf.tasks e).parent = p ∧
      ∀ j < wf.tasksNum, (wf.tasks j).parent = p → j = e
  branch : ∀ i < wf.tasksNum, ∀ j < wf.tasksNum, (wf.tasks i).parent = p → (wf.tasks j).parent = p →
    (wf.tasks i).operator.isBranch → (wf.tasks j).operator.isBranch → i = j

section Validation

variable {wf₀ wf : Workflow} {q : Query} {s s' : Search} {k n p : Nat}

theorem Linking.mono (h : Linking wf₀ k wf) (hk : k ≤ n) : Linking wf₀ n wf := by
  refine ⟨h.graph, fun j hj => ?_, h.child⟩
  rcases h.parent j hj with hp | ⟨p, hp, hrest⟩
  · exact .inl hp
  · exact .inr ⟨p, hp.trans_le hk, hrest⟩

theorem Linking.parent_ne (h : Linking wf₀ k wf) {j : Nat} (hj : j < wf₀.tasksNum) : (wf.tasks j).parent ≠ k := by
  rcases h.parent j hj with hp | ⟨p, hp, hpk, -⟩ <;> omega

theorem Linking.counts (h : Linking wf₀ k s.wf) (hc : Counts q s s' n) (hk : q.p < k)
    (ho : (wf₀.tasks q.p).operator.opens q.op) : Linking wf₀ k s'.wf := by
  refine ⟨h.graph.trans hc.graph, fun j hj => ?_, fun p hp => ?_⟩
  · rcases hc.parent j with hp | ⟨-, hp, hop, hd⟩
    · rw [hp]
      exact h.parent j hj
    · rw [h.graph.operator] at hop
      rw [h.graph.descendant] at hd
      exact .inr ⟨q.p, hk, hp, hop ▸ ho, hd⟩
  · have hold : (s.wf.tasks p).child < 0 ∨ ∃ j : Nat, (s.wf.tasks p).child = j ∧ (s'.wf.tasks j).parent = p := by
      rcases h.child p hp with hn | ⟨j, hj, hjp⟩
      · exact .inl hn
      · exact .inr ⟨j, hj, by rw [hc.parent_eq (by omega), hjp]⟩
    by_cases hqp : p = q.p
    · subst hqp
      rcases hc.last with hl | hl
      · rwa [hl]
      · exact .inr hl
    · rwa [hc.child p hqp]

/-- The searches from another task change nothing for `p`. -/
theorem Settled.counts (h : Settled s.wf p) (hc : Counts q s s' n) (hp : p ≠ q.p) : Settled s'.wf p := by
  have hback (j : Nat) (hj : (s'.wf.tasks j).parent = p) : (s.wf.tasks j).parent = p := by
    rcases hc.parent j with hs | ⟨-, hq, -⟩
    · exact hs ▸ hj
    · exact absurd (Int.natCast_inj.mp (hj.symm.trans hq)) hp
  refine ⟨fun ho => ?_, fun i hi j hj hpi hpj hbi hbj => ?_⟩
  · rw [hc.graph.operator] at ho
    obtain ⟨e, hd, hce, hpe, he⟩ := h.loop ho
    rw [← hc.graph.descendant] at hd
    refine ⟨e, hd, (hc.child p hp).trans hce, by rw [hc.parent_eq (by omega), hpe], fun j hj hpj => ?_⟩
    exact he j (hc.graph.tasksNum ▸ hj) (hback j hpj)
  · rw [hc.graph.tasksNum] at hi hj
    rw [hc.graph.operator] at hbi hbj
    exact h.branch i hi j hj (hback i hpi) (hback j hpj) hbi hbj

/-- All the tasks before `k` are linked to their ends. -/
structure Blocks (wf₀ : Workflow) (k : Nat) (wf : Workflow) : Prop where
  linking : Linking wf₀ k wf
  settled : ∀ p < k, Settled wf p

/-- The tasks before `k` are settled, and task `k` is being searched from. -/
structure Searching (wf₀ : Workflow) (k : Nat) (wf : Workflow) : Prop where
  linking : Linking wf₀ (k + 1) wf
  settled : ∀ p < k, Settled wf p

theorem Searching.counts (h : Searching wf₀ k s.wf) (hc : Counts q s s' n) (hq : q.p = k)
    (ho : (wf₀.tasks k).operator.opens q.op) : Searching wf₀ k s'.wf := by
  subst hq
  exact ⟨h.linking.counts hc (Nat.lt_succ_self _) ho, fun p hp => (h.settled p hp).counts hc (Nat.ne_of_lt hp)⟩

theorem Searching.blocks (h : Searching wf₀ k wf) (hk : Settled wf k) : Blocks wf₀ (k + 1) wf := by
  refine ⟨h.linking, fun p hp => ?_⟩
  rcases Nat.lt_succ_iff_lt_or_eq.mp hp with hp | rfl
  · exact h.settled p hp
  · exact hk

theorem Blocks.searching (h : Blocks wf₀ k wf) : Searching wf₀ k wf := ⟨h.linking.mono k.le_succ, h.settled⟩

theorem Search.check_ok {op : Operator} (h : s.check k op = .ok s') : s' = s := by
  unfold Search.check at h
  split_ifs at h
  cases h
  rfl

theorem Search.validateFor_blocks (h : Blocks wf₀ k s.wf) (hk : (wf₀.tasks k).operator = .for)
    (hv : s.validateFor k = .ok s') : Blocks wf₀ (k + 1) s'.wf := by
  unfold Search.validateFor at hv
  have hc := s.start_counts { p := k, gp := k, op := .endfor, nop := .for }
  generalize s.start { p := k, gp := k, op := .endfor, nop := .for } = r at hv hc
  obtain ⟨t, number⟩ := r
  simp only at hv hc
  split_ifs at hv with hn
  obtain rfl := Search.check_ok hv
  have hS := h.searching.counts hc rfl (by rw [hk]; rfl)
  rcases hc.one (by omega) with ⟨e, -, hd, hj⟩ | ⟨-, hne⟩
  · rw [← hc.graph.descendant] at hd
    -- the end that has been found is the only task linked to `k`
    have hone (j : Nat) (hjn : j < s'.wf.tasksNum) (hp : (s'.wf.tasks j).parent = k) : j = e := by
      by_contra hje
      rw [hj.others j hje] at hp
      rw [hS.linking.graph.tasksNum] at hjn
      exact h.linking.parent_ne hjn hp
    refine hS.blocks ⟨fun _ => ⟨e, hd, hj.child, hj.parent, hone⟩, fun i hi j hjn hpi hpj _ _ => ?_⟩
    rw [hone i hi hpi, hone j hjn hpj]
  · exact absurd rfl hne

/-- No task is linked to `k`. -/
def Free (wf : Workflow) (k : Nat) : Prop := ∀ j < wf.tasksNum, (wf.tasks j).parent ≠ k

theorem Blocks.free (h : Blocks wf₀ k wf) : Free wf k := by
  intro j hj
  rw [h.linking.graph.tasksNum] at hj
  exact h.linking.parent_ne hj

theorem Free.sameLinks (h : Free s.wf k) (hl : SameLinks s s') (hg : SameGraph s.wf s'.wf) : Free s'.wf k := by
  intro j hj
  rw [hl.parent]
  exact h j (hg.tasksNum ▸ hj)

theorem Free.settled (h : Free wf k) (hk : (wf.tasks k).operator ≠ .for) : Settled wf k :=
  ⟨fun ho => absurd ho hk, fun i hi _ _ hpi => absurd hpi (h i hi)⟩

/-- A search that counts at most one end links at most one task. -/
theorem Free.counts (h : Free s.wf k) (hc : Counts q s s' n) (hq : q.p = k) (hn : n ≤ 1)
    (hk : (s.wf.tasks k).operator ≠ .for) : Settled s'.wf k ∧ (s'.child < 0 → Free s'.wf k) := by
  subst hq
  have hk' : (s'.wf.tasks q.p).operator ≠ .for := by rwa [hc.graph.operator]
  have hsame (hl : SameLinks s s') : Settled s'.wf q.p ∧ (s'.child < 0 → Free s'.wf q.p) :=
    ⟨(h.sameLinks hl hc.graph).settled hk', fun _ => h.sameLinks hl hc.graph⟩
  rcases Nat.le_one_iff_eq_zero_or_eq_one.mp hn with h0 | h1
  · exact hsame (hc.none h0)
  · rcases hc.one h1 with ⟨e, -, -, hj⟩ | ⟨hl, -⟩
    · have hone (j : Nat) (hjn : j < s'.wf.tasksNum) (hp : (s'.wf.tasks j).parent = q.p) : j = e := by
        by_contra hje
        rw [hj.others j hje] at hp
        exact h j (hc.graph.tasksNum ▸ hjn) hp
      refine ⟨⟨fun ho => absurd ho hk', fun i hi j hjn hpi hpj _ _ => ?_⟩, fun hneg => ?_⟩
      · rw [hone i hi hpi, hone j hjn hpj]
      · have := hj.found
        omega
    · exact hsame hl

theorem Settled.endif (h : Settled s.wf k) (hc : Counts q s s' n) (hq : q.op = .endif)
    (hk : (s.wf.tasks k).operator ≠ .for) : Settled s'.wf k := by
  have hback {j : Nat} (hj : (s'.wf.tasks j).parent = k) (hb : (s'.wf.tasks j).operator.isBranch) :
      (s.wf.tasks j).parent = k := by
    rcases hc.parent j with hs | ⟨-, -, ho, -⟩
    · exact hs ▸ hj
    · rw [hc.graph.operator, ho, hq] at hb
      cases hb
  refine ⟨fun ho => absurd ho (by rwa [hc.graph.operator]), fun i hi j hj hpi hpj hbi hbj => ?_⟩
  have hpi' := hback hpi hbi
  have hpj' := hback hpj hbj
  rw [hc.graph.tasksNum] at hi hj
  rw [hc.graph.operator] at hbi hbj
  exact h.branch i hi j hj hpi' hpj' hbi hbj

theorem Search.validateBranch_settled {gp : Int} (h : Blocks wf₀ k s.wf)
    (hk : (wf₀.tasks k).operator = .if ∨ (wf₀.tasks k).operator = .elseif) (hv : s.validateBranch k gp = .ok s') :
    Searching wf₀ k s'.wf ∧ Settled s'.wf k := by
  have hfor : (wf₀.tasks k).operator ≠ .for := by rcases hk with hk | hk <;> simp [hk]
  have hopens (op : Operator) (hop : op = .elseif ∨ op = .else ∨ op = .endif) :
      (wf₀.tasks k).operator.opens op := by
    rcases hk with hk | hk <;> rw [hk] <;> exact hop
  unfold Search.validateBranch at hv
  have hc := Search.start_counts { p := k, gp := gp, op := .elseif, nop := .if } { s with child := -1 }
  generalize Search.start { s with child := -1 } { p := k, gp := gp, op := .elseif, nop := .if } = r at hv hc
  obtain ⟨t, number⟩ := r
  simp only at hv hc
  have hS : Searching wf₀ k t.wf := Searching.counts (s := { s with child := -1 }) h.searching hc rfl (hopens .elseif (.inl rfl))
  have hfirst (hn : number ≤ 1) : Settled t.wf k ∧ (t.child < 0 → Free t.wf k) :=
    Free.counts (s := { s with child := -1 }) h.free hc rfl hn (by rwa [h.linking.graph.operator])
  have hc' := Search.start_counts { p := k, gp := gp, op := .else, nop := .if } { t with child := -1 }
  generalize Search.start { t with child := -1 } { p := k, gp := gp, op := .else, nop := .if } = r' at hv hc'
  obtain ⟨t', number'⟩ := r'
  simp only at hv hc'
  have hS' : Searching wf₀ k t'.wf :=
    Searching.counts (s := { t with child := -1 }) hS hc' rfl (hopens .else (.inr (.inl rfl)))
  have hsecond (hn : number ≤ 1) (hchild : t.child < 0) (hn' : number' ≤ 1) : Settled t'.wf k :=
    (Free.counts (s := { t with child := -1 }) ((hfirst hn).2 hchild) hc' rfl hn'
      (by rwa [hS.linking.graph.operator])).1
  split_ifs at hv with hn hchild hn' hchild'
  · obtain rfl := Search.check_ok hv
    exact ⟨hS, (hfirst (by omega)).1⟩
  · obtain rfl := Search.check_ok hv
    exact ⟨hS', hsecond (by omega) (by omega) (by omega)⟩
  · cases hv
    exact ⟨hS', hsecond (by omega) (by omega) (by omega)⟩

theorem Search.validateEndif_blocks {gp : Int} (h : Searching wf₀ k s.wf) (hset : Settled s.wf k)
    (hfor : (wf₀.tasks k).operator ≠ .for) (ho : (wf₀.tasks k).operator.opens .endif)
    (hv : (s.start { p := k, gp := gp, op := .endif, nop := .if }).1.check k .endif = .ok s') :
    Blocks wf₀ (k + 1) s'.wf := by
  have hc := s.start_counts { p := k, gp := gp, op := .endif, nop := .if }
  obtain rfl := Search.check_ok hv
  exact (h.counts hc rfl ho).blocks (hset.endif hc rfl (by rwa [h.linking.graph.operator]))

theorem Search.validateTask_blocks (h : Blocks wf₀ k s.wf) (hv : s.validateTask k = .ok s') :
    Blocks wf₀ (k + 1) s'.wf := by
  have hop := h.linking.graph.operator k
  unfold Search.validateTask at hv
  split at hv
  case h_1 hk => exact validateFor_blocks h (hop ▸ hk) hv
  case h_2 hk =>
    rw [hop] at hk
    obtain ⟨t, ht, hv⟩ := Lib.exists_of_bind_eq_ok hv
    obtain ⟨hS, hset⟩ := validateBranch_settled h (.inl hk) ht
    simp only at hv
    split_ifs at hv
    exact validateEndif_blocks hS hset (by simp [hk]) (by rw [hk]; exact .inr (.inr rfl)) hv
  case h_3 hk =>
    rw [hop] at hk
    obtain ⟨t, ht, hv⟩ := Lib.exists_of_bind_eq_ok hv
    obtain ⟨hS, hset⟩ := validateBranch_settled h (.inr hk) ht
    split_ifs at hv
    · cases hv
      exact hS.blocks hset
    · unfold Search.validateEndif at hv
      simp only at hv
      split_ifs at hv
      exact validateEndif_blocks hS hset (by simp [hk]) (by rw [hk]; exact .inr (.inr rfl)) hv
  case h_4 hk =>
    rw [hop] at hk
    unfold Search.validateElse Search.validateEndif at hv
    simp only at hv
    split_ifs at hv
    have hfor : (s.wf.tasks k).operator ≠ .for := by simp [hop, hk]
    exact validateEndif_blocks h.searching (h.free.settled hfor) (by simp [hk]) (by rw [hk]; rfl) hv
  case h_5 hfor _ _ _ =>
    cases hv
    exact h.searching.blocks (h.free.settled hfor)

end Validation

/-! ## Accepted workflows -/

theorem validateFco_ok {child : Int} {wf wf' : Workflow} (h : validateFco child wf = .ok wf') :
    Blocks wf wf.tasksNum wf' ∧ ∀ k < wf.tasksNum, (wf'.tasks k).operator.isEnd → 0 ≤ (wf'.tasks k).parent := by
  obtain ⟨s, hs, h⟩ := Lib.exists_of_bind_eq_ok h
  have hB : Blocks wf wf.tasksNum s.wf := by
    refine Lib.foldlM_range_induct (fun k t => Blocks wf k t.wf) ?_ (fun k _ t t' ht hv => t.validateTask_blocks ht hv) hs
    refine ⟨⟨⟨rfl, fun j => ?_⟩, fun j hj => .inl ?_, fun p hp => .inl ?_⟩, fun p hp => absurd hp p.not_lt_zero⟩
    · show (if j < wf.tasksNum then (wf.tasks j).unlink else wf.tasks j).unlink = (wf.tasks j).unlink
      split <;> rfl
    · simp [hj, Task.unlink]
    · simp [hp, Task.unlink]
  split_ifs at h with hany
  cases h
  refine ⟨hB, fun k hk he => ?_⟩
  by_contra hneg
  refine hany (List.any_eq_true.mpr ⟨k, List.mem_range.mpr hk, ?_⟩)
  simp [he, Int.not_le.mp hneg]

/-- Task `p` is the parent of task `j`. -/
def HasParent (wf : Workflow) (j p : Nat) : Prop := (wf.tasks j).parent = p

/-- Loops and their ends are related by mutually inverse bijections. -/
def LoopsPaired (wf : Workflow) : Prop :=
  (∀ k < wf.tasksNum, (wf.tasks k).operator = .for → ∃ e < wf.tasksNum, (wf.tasks e).operator = .endfor ∧
    (wf.tasks k).child = e ∧ (wf.tasks e).parent = k ∧ Descendant wf.tasks k e) ∧
  ∀ e < wf.tasksNum, (wf.tasks e).operator = .endfor → ∃ k < wf.tasksNum, (wf.tasks k).operator = .for ∧
    (wf.tasks e).parent = k ∧ (wf.tasks k).child = e

/-- Each branch or end of a selection belongs to exactly one `IF`, of which it is a descendant. -/
def BranchesOwned (wf : Workflow) : Prop :=
  ∀ j < wf.tasksNum, (wf.tasks j).operator.isEnd → (wf.tasks j).operator ≠ .endfor →
    ∃ i < wf.tasksNum, ((wf.tasks i).operator = .if ∧ Relation.TransGen (HasParent wf) j i) ∧ Descendant wf.tasks i j ∧
      ∀ i' < wf.tasksNum, (wf.tasks i').operator = .if ∧ Relation.TransGen (HasParent wf) j i' → i' = i

/-- A selection goes on with one branch at most after each `IF` and each `ELSEIF`. -/
def BranchesOnce (wf : Workflow) : Prop :=
  ∀ k : Nat, ∀ i < wf.tasksNum, ∀ j < wf.tasksNum, (wf.tasks i).parent = k → (wf.tasks j).parent = k →
    (wf.tasks i).operator.isBranch → (wf.tasks j).operator.isBranch → i = j

section Accepted

variable {wf wf' : Workflow} {child : Int} (hr : ∀ a, ∀ b ∈ (wf.tasks a).dependentsIndexes, b < wf.tasksNum)

include hr in
theorem Descendant.lt_tasksNum {a b : Nat} (h : Descendant wf.tasks a b) : b < wf.tasksNum := by
  obtain ⟨c, -, hc⟩ := Relation.TransGen.tail'_iff.mp h
  exact hr c b hc

include hr in
theorem loopsPaired_of_validateFco (h : validateFco child wf = .ok wf') : LoopsPaired wf' := by
  obtain ⟨hB, hend⟩ := validateFco_ok h
  have hg := hB.linking.graph
  refine ⟨fun k hk ho => ?_, fun e he ho => ?_⟩
  · rw [hg.tasksNum] at hk ⊢
    obtain ⟨e, hd, hce, hpe, -⟩ := (hB.settled k hk).loop ho
    have hen : e < wf.tasksNum := Descendant.lt_tasksNum hr (hg.descendant ▸ hd)
    rcases hB.linking.parent e hen with hn | ⟨p, -, hpe', hop, -⟩
    · omega
    · obtain rfl : p = k := by omega
      rw [← hg.operator, ho] at hop
      exact ⟨e, hen, (hg.operator e).trans hop, hce, hpe, hd⟩
  · rw [hg.tasksNum] at he ⊢
    have hp0 := hend e he (by rw [ho]; rfl)
    rcases hB.linking.parent e he with hn | ⟨p, hp, hpe, hop, -⟩
    · omega
    · rw [← hg.operator, ← hg.operator, ho] at hop
      have hfor : (wf'.tasks p).operator = .for := by
        revert hop
        cases (wf'.tasks p).operator <;> simp [Operator.opens]
      obtain ⟨e', -, hce, -, huniq⟩ := (hB.settled p hp).loop hfor
      rw [huniq e (hg.tasksNum ▸ he) hpe]
      exact ⟨p, hp, hfor, by rw [← huniq e (hg.tasksNum ▸ he) hpe, hpe], hce⟩

theorem parent_neg_of_if (hB : Blocks wf wf.tasksNum wf') {i : Nat} (hi : i < wf.tasksNum)
    (ho : (wf'.tasks i).operator = .if) : (wf'.tasks i).parent < 0 := by
  rcases hB.linking.parent i hi with hn | ⟨p, -, -, hop, -⟩
  · exact hn
  · rw [← hB.linking.graph.operator i, ho] at hop
    revert hop
    cases (wf.tasks p).operator <;> simp [Operator.opens]

/-- The parent of a branch, or of the end of a selection, is an `IF` or another branch. -/
theorem parent_of_branch (hB : Blocks wf wf.tasksNum wf')
    (hend : ∀ k < wf.tasksNum, (wf'.tasks k).operator.isEnd → 0 ≤ (wf'.tasks k).parent) {j : Nat}
    (hj : j < wf.tasksNum) (he : (wf'.tasks j).operator.isEnd) (hne : (wf'.tasks j).operator ≠ .endfor) :
    ∃ p < wf.tasksNum, HasParent wf' j p ∧ Descendant wf.tasks p j ∧
      ((wf'.tasks p).operator = .if ∨ (wf'.tasks p).operator.isEnd ∧ (wf'.tasks p).operator ≠ .endfor) := by
  have h0 := hend j hj he
  rcases hB.linking.parent j hj with hn | ⟨p, hp, hpj, hop, hd⟩
  · omega
  · refine ⟨p, hp, hpj, hd, ?_⟩
    rw [← hB.linking.graph.operator p, ← hB.linking.graph.operator j] at hop
    revert hop he hne
    cases (wf'.tasks p).operator <;> simp_all [Operator.opens, Operator.isEnd]

theorem branchesOwned_of_validateFco (hE : Lib.Acyclic (Dependent wf.tasks)) (h : validateFco child wf = .ok wf') :
    BranchesOwned wf' := by
  obtain ⟨hB, hend⟩ := validateFco_ok h
  have hg := hB.linking.graph
  have hexists : ∀ j < wf.tasksNum, (wf'.tasks j).operator.isEnd → (wf'.tasks j).operator ≠ .endfor →
      ∃ i < wf.tasksNum, ((wf'.tasks i).operator = .if ∧ Relation.TransGen (HasParent wf') j i) ∧
        Descendant wf.tasks i j := by
    by_contra hcon
    push Not at hcon
    -- a task that belongs to no `IF`, whose ancestors all belong to one
    let bad : Set Nat := { j | j < wf.tasksNum ∧ (wf'.tasks j).operator.isEnd ∧ (wf'.tasks j).operator ≠ .endfor ∧
      ∀ i < wf.tasksNum, (wf'.tasks i).operator = .if ∧ Relation.TransGen (HasParent wf') j i → ¬ Descendant wf.tasks i j }
    have hfin : bad.Finite := (Set.finite_lt_nat wf.tasksNum).subset fun j hj => hj.1
    have hE' : Lib.Acyclic (Descendant wf.tasks) := by
      intro v hv
      rw [Descendant, Relation.transGen_eq_self] at hv
      exact hE v hv
    obtain ⟨j, hj, hsource⟩ := hE'.exists_source hfin hcon
    obtain ⟨hjn, hje, hjne, hjbad⟩ := hj
    obtain ⟨p, hpn, hpj, hd, hif | ⟨hpe, hpne⟩⟩ := parent_of_branch hB hend hjn hje hjne
    · exact hjbad p hpn ⟨hif, .single hpj⟩ hd
    · have hgood : p ∉ bad := fun hp => hsource p hp hd
      have hgood' : ¬ ∀ i < wf.tasksNum, (wf'.tasks i).operator = .if ∧ Relation.TransGen (HasParent wf') p i →
          ¬ Descendant wf.tasks i p := fun hall => hgood ⟨hpn, hpe, hpne, hall⟩
      push Not at hgood'
      obtain ⟨i, hi, ⟨hio, hip⟩, hdi⟩ := hgood'
      exact hjbad i hi ⟨hio, .head hpj hip⟩ (hdi.trans hd)
  intro j hj he hne
  rw [hg.tasksNum] at hj ⊢
  obtain ⟨i, hi, ⟨hio, hij⟩, hd⟩ := hexists j hj he hne
  refine ⟨i, hi, ⟨hio, hij⟩, hg.descendant ▸ hd, fun i' hi' ⟨hio', hij'⟩ => ?_⟩
  -- the chains of parents from `j` are one chain, and it stops at an `IF`
  have hstop {a b : Nat} (ha : a < wf.tasksNum) (ho : (wf'.tasks a).operator = .if)
      (hab : Relation.ReflTransGen (HasParent wf') a b) : b = a := by
    rcases Relation.ReflTransGen.cases_head hab with rfl | ⟨c, hc, -⟩
    · rfl
    · have := parent_neg_of_if hB ha ho
      have hc' : (wf'.tasks a).parent = c := hc
      omega
  have hunique : Relator.RightUnique (HasParent wf') := fun a b c hb hc => Int.natCast_inj.mp (hb.symm.trans hc)
  rcases Relation.ReflTransGen.total_of_right_unique hunique hij.to_reflTransGen hij'.to_reflTransGen with hii | hii
  · exact hstop hi hio hii
  · exact (hstop hi' hio' hii).symm

theorem branchesOnce_of_validateFco (h : validateFco child wf = .ok wf') : BranchesOnce wf' := by
  obtain ⟨hB, -⟩ := validateFco_ok h
  intro k i hi j hj hpi hpj
  by_cases hk : k < wf.tasksNum
  · exact (hB.settled k hk).branch i hi j hj hpi hpj
  · rw [hB.linking.graph.tasksNum] at hi
    rcases hB.linking.parent i hi with hn | ⟨p, hp, hpi', -⟩ <;> omega

/-- In every workflow without cycles that is accepted, loops and their ends are paired, and each branch or end of a
selection belongs to one `IF`. -/
theorem blocks_of_validateFco (hr : ∀ a, ∀ b ∈ (wf.tasks a).dependentsIndexes, b < wf.tasksNum)
    (hE : Lib.Acyclic (Dependent wf.tasks)) (h : validateFco child wf = .ok wf') :
    SameGraph wf wf' ∧ LoopsPaired wf' ∧ BranchesOwned wf' ∧ BranchesOnce wf' :=
  ⟨(validateFco_ok h).1.linking.graph, loopsPaired_of_validateFco hr h, branchesOwned_of_validateFco hE h,
    branchesOnce_of_validateFco h⟩

end Accepted

/-! ## Nesting -/

/-- Task `v` lies between the tasks `a` and `b`. -/
def Between (tasks : Nat → Task) (a b v : Nat) : Prop :=
  Relation.ReflTransGen (Dependent tasks) a v ∧ Relation.ReflTransGen (Dependent tasks) v b

/-- Task `a` is the head of a loop or of a selection that ends at task `b`. -/
def IsBlock (wf : Workflow) (a b : Nat) : Prop :=
  (wf.tasks b).parent = a ∧ ((wf.tasks a).operator = .for ∧ (wf.tasks b).operator = .endfor ∨
    (wf.tasks a).operator = .if ∧ (wf.tasks b).operator = .endif)

/-- Two blocks are disjoint, or one contains the other. -/
def ProperlyNested (wf : Workflow) : Prop :=
  ∀ a b c d, IsBlock wf a b → IsBlock wf c d →
    (∀ v, ¬ (Between wf.tasks a b v ∧ Between wf.tasks c d v)) ∨
      (∀ v, Between wf.tasks a b v → Between wf.tasks c d v) ∨ ∀ v, Between wf.tasks c d v → Between wf.tasks a b v

theorem Indexed.dependent_iff {tasks : Nat → Task} {n : Nat} (h : Indexed tasks n) (a b : Nat) :
    Dependent tasks a b ↔ DepEdge tasks n a b := by
  have hcount : Dependent tasks a b ↔ ∃ d ∈ (tasks b).deps, d.taskIndex = (a : Int) := by
    rw [Dependent, ← List.count_pos_iff, h.mirror a b, Task.depCount, List.countP_pos_iff]
    simp only [beq_iff_eq]
  refine hcount.trans ⟨?_, fun hE => hE.2⟩
  rintro ⟨d, hd, hda⟩
  refine ⟨?_, d, hd, hda⟩
  by_contra hb
  have := h.unresolved b (Nat.not_lt.mp hb) d hd
  omega

/-- The hypotheses on the graph hold of each workflow that has been indexed and validated. -/
theorem graph_of_validate {wf : LoadedWorkflow} {tasks : Nat → Task} (h : indexing wf.tasks wf.tasksNum = .ok tasks)
    (hv : validate wf.tasksNum { wf.toWorkflow with tasks := tasks } = some .success) :
    (∀ a, ∀ b ∈ (tasks a).dependentsIndexes, b < wf.tasksNum) ∧ Lib.Acyclic (Dependent tasks) := by
  obtain ⟨hI, -⟩ := indexing_indexed wf.fresh h
  refine ⟨fun a b hb => ((hI.dependent_iff a b).mp hb).1, ?_⟩
  obtain ⟨code, hc, hiff⟩ := topologicalPass_eq hI le_rfl
  have hcode : code = .success := by
    unfold validate at hv
    split_ifs at hv
    · cases hv
    · cases hv
    · exact Option.some.inj (hc.symm.trans hv)
  have hdep : Dependent tasks = DepEdge tasks wf.tasksNum := by
    funext a b
    exact propext (hI.dependent_iff a b)
  rw [hdep]
  exact hiff.mp hcode

/-- A loop around a selection with two branches. -/
def nestedRequest : LoadedWorkflow :=
  loadRequest [requestTask "F" .for [] 1, requestTask "I" .if ["F"] 1, requestTask "A" (.other "oph_a") ["I"] 1,
      requestTask "E" .else ["I"] 1, requestTask "N" .endif ["A", "E"] 1, requestTask "D" .endfor ["N"] 1] (by
    simp only [List.forall_mem_cons, List.not_mem_nil, false_implies, implies_true, and_true]
    exact ⟨requestTask_fresh .., requestTask_fresh .., requestTask_fresh .., requestTask_fresh .., requestTask_fresh ..,
      requestTask_fresh ..⟩)

theorem blocks_of_validateFco_nested :
    ∃ tasks wf', indexing nestedRequest.tasks 6 = .ok tasks ∧
      validateFco 0 { nestedRequest.toWorkflow with tasks := tasks } = .ok wf' ∧ (wf'.tasks 5).parent = 0 ∧
      LoopsPaired wf' ∧ BranchesOwned wf' ∧ BranchesOnce wf' := by
  obtain ⟨tasks, ht, hp⟩ := Lib.exists_ok_of_any (x := indexing nestedRequest.tasks 6) (p := fun tasks =>
    validate 6 { nestedRequest.toWorkflow with tasks := tasks } = some .success &&
      (validateFco 0 { nestedRequest.toWorkflow with tasks := tasks }).toOption.any fun wf' =>
        (wf'.tasks 5).parent = 0) (by decide)
  rw [Bool.and_eq_true, decide_eq_true_eq] at hp
  obtain ⟨wf', hwf, hparent⟩ := Lib.exists_ok_of_any hp.2
  have hg := @graph_of_validate nestedRequest _ ht hp.1
  obtain ⟨-, hrest⟩ := blocks_of_validateFco hg.1 hg.2 hwf
  exact ⟨tasks, wf', ht, hwf, of_decide_eq_true hparent, hrest⟩

/-- The head of the block from `c` to `d` lies in the block from `a` to `b`, and `d` leads to nothing. -/
structure Overlap (wf : Workflow) (a b c d : Nat) : Prop where
  outer : IsBlock wf a b
  inner : IsBlock wf c d
  head : c ∈ (wf.tasks a).dependentsIndexes
  ends : b ∈ (wf.tasks c).dependentsIndexes ∧ d ∈ (wf.tasks c).dependentsIndexes
  last : (wf.tasks d).dependentsIndexes = []
  ne : b ≠ d

instance (wf : Workflow) (a b : Nat) : Decidable (IsBlock wf a b) := by
  unfold IsBlock
  infer_instance

instance (wf : Workflow) (a b c d : Nat) : Decidable (Overlap wf a b c d) :=
  decidable_of_iff (IsBlock wf a b ∧ IsBlock wf c d ∧ c ∈ (wf.tasks a).dependentsIndexes ∧
      (b ∈ (wf.tasks c).dependentsIndexes ∧ d ∈ (wf.tasks c).dependentsIndexes) ∧
      (wf.tasks d).dependentsIndexes = [] ∧ b ≠ d)
    ⟨fun ⟨ho, hi, hh, he, hl, hn⟩ => ⟨ho, hi, hh, he, hl, hn⟩,
      fun h => ⟨h.outer, h.inner, h.head, h.ends, h.last, h.ne⟩⟩

theorem Overlap.not_properlyNested {wf : Workflow} {a b c d : Nat} (h : Overlap wf a b c d)
    (hE : Lib.Acyclic (Dependent wf.tasks)) : ¬ ProperlyNested wf := by
  intro hnested
  have hac : Dependent wf.tasks a c := h.head
  have hcb : Dependent wf.tasks c b := h.ends.1
  have hcd : Dependent wf.tasks c d := h.ends.2
  rcases hnested a b c d h.outer h.inner with hdisjoint | hsub | hsub
  · exact hdisjoint c ⟨⟨.single hac, .single hcb⟩, .refl, .single hcd⟩
  · -- the head of the outer block would depend on the head of the inner one
    obtain ⟨hca, -⟩ := hsub a ⟨.refl, .head hac (.single hcb)⟩
    exact hE a (.head' hac hca)
  · obtain ⟨-, hdb⟩ := hsub d ⟨.single hcd, .refl⟩
    rcases Relation.ReflTransGen.cases_head hdb with hbd | ⟨e, he, -⟩
    · exact h.ne hbd.symm
    · rw [Dependent, h.last] at he
      cases he

/-- The workflow has no cycle and is accepted, and two of its blocks overlap. -/
def Overlaps (wf : LoadedWorkflow) : Prop :=
  ∃ tasks wf', indexing wf.tasks wf.tasksNum = .ok tasks ∧ Lib.Acyclic (Dependent tasks) ∧
    validateFco 0 { wf.toWorkflow with tasks := tasks } = .ok wf' ∧ ¬ ProperlyNested wf'

def overlapCheck (wf : LoadedWorkflow) (a b c d : Nat) : Bool :=
  (indexing wf.tasks wf.tasksNum).toOption.any fun tasks =>
    validate wf.tasksNum { wf.toWorkflow with tasks := tasks } = some .success &&
      (validateFco 0 { wf.toWorkflow with tasks := tasks }).toOption.any fun wf' => Overlap wf' a b c d

theorem overlaps_of_check {wf : LoadedWorkflow} {a b c d : Nat} (h : overlapCheck wf a b c d = true) :
    Overlaps wf := by
  obtain ⟨tasks, ht, h⟩ := Lib.exists_ok_of_any h
  rw [Bool.and_eq_true, decide_eq_true_eq] at h
  obtain ⟨wf', hwf, hover⟩ := Lib.exists_ok_of_any h.2
  have hE := (graph_of_validate ht h.1).2
  refine ⟨tasks, wf', ht, hE, hwf, (of_decide_eq_true hover).not_properlyNested ?_⟩
  rw [(validateFco_ok hwf).1.linking.graph.dependent]
  exact hE

/-- The end of the loop depends on the head of a selection, but the end of the selection does not lead to it. -/
def overlappingRequest : LoadedWorkflow :=
  loadRequest [requestTask "F" .for [] 1, requestTask "I" .if ["F"] 1, requestTask "N" .endif ["I"] 1,
      requestTask "D" .endfor ["I"] 1] (by
    simp only [List.forall_mem_cons, List.not_mem_nil, false_implies, implies_true, and_true]
    exact ⟨requestTask_fresh .., requestTask_fresh .., requestTask_fresh .., requestTask_fresh ..⟩)

/-- Loop `B` starts inside loop `A` and ends outside it. The search from `A` comes first and finds its end at level 0;
those from `L` and `N` then raise the level of that end to 2, so that the search from `B`, at level 1, passes it. -/
def overlappingLoops : LoadedWorkflow :=
  loadRequest [requestTask "A" .for [] 1, requestTask "end of A" .endfor ["A", "B", "L"] 1,
      requestTask "L" .for ["M"] 1, requestTask "N" .for [] 1, requestTask "B" .for ["A"] 1,
      requestTask "M" .for ["N"] 1, requestTask "end of B" .endfor ["B"] 1, requestTask "end of L" .endfor ["L"] 1,
      requestTask "end of M" .endfor ["M"] 1, requestTask "end of N" .endfor ["N"] 1] (by
    simp only [List.forall_mem_cons, List.not_mem_nil, false_implies, implies_true, and_true]
    simp only [requestTask_fresh, and_self])

/-- A loop may overlap a selection, and also another loop. -/
theorem not_properlyNested_overlapping :
    Overlaps overlappingRequest ∧ Overlaps overlappingLoops ∧
      ∀ k < 10, (overlappingLoops.tasks k).operator = .for ∨ (overlappingLoops.tasks k).operator = .endfor := by
  refine ⟨overlaps_of_check (a := 0) (b := 3) (c := 1) (d := 2) ?_,
    overlaps_of_check (a := 0) (b := 1) (c := 4) (d := 6) ?_, ?_⟩
  · decide
  · decide +kernel
  · decide

end OphidiaWorkflow
