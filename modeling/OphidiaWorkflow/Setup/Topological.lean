import OphidiaWorkflow.Setup.Validate

/-!
The topological pass of `oph_workflow_validate` accepts exactly the acyclic graphs.

Each edge is stored twice, in `out_edges` of its source and in `in_edges` of its target; the invariant below keeps the
two copies mirror images while both are overwritten with `-1`.
-/
namespace OphidiaWorkflow

open Relation

namespace Node

variable (x : Node) (i j : Nat)

@[simp] theorem clearOut_inEdges : (x.clearOut i).inEdges = x.inEdges := rfl
@[simp] theorem clearOut_inEdgesNum : (x.clearOut i).inEdgesNum = x.inEdgesNum := rfl
@[simp] theorem clearOut_index : (x.clearOut i).index = x.index := rfl
@[simp] theorem clearIn_outEdges : (x.clearIn j).outEdges = x.outEdges := rfl
@[simp] theorem clearIn_outEdgesNum : (x.clearIn j).outEdgesNum = x.outEdgesNum := rfl
@[simp] theorem clearIn_index : (x.clearIn j).index = x.index := rfl

/-- The counters of a node count the slots that are not `-1`. -/
structure Counted : Prop where
  inEdges : x.inEdgesNum = x.inEdges.countP (· != -1)
  outEdges : x.outEdgesNum = x.outEdges.countP (· != -1)

variable {x i j}

theorem Counted.clearOut (h : x.Counted) (hi : i < x.outEdges.length) (hl : x.outEdges[i] ≠ -1) :
    (x.clearOut i).Counted := by
  refine ⟨h.inEdges, ?_⟩
  have := Lib.countP_set_of_pos_of_neg (p := (· != -1)) hi (a := (-1 : Int)) (by simpa using hl) (by simp)
  simp only [Node.clearOut, h.outEdges]
  omega

theorem Counted.clearIn (h : x.Counted) (hj : j < x.inEdges.length) (hl : x.inEdges[j] ≠ -1) :
    (x.clearIn j).Counted := by
  refine ⟨?_, h.outEdges⟩
  have := Lib.countP_set_of_pos_of_neg (p := (· != -1)) hj (a := (-1 : Int)) (by simpa using hl) (by simp)
  simp only [Node.clearIn, h.inEdges]
  omega

end Node

/-- The two copies of the edges agree, and the counters with them. -/
structure GraphInv (n : Nat) (graph : Nat → Node) : Prop where
  index : ∀ a, (graph a).index = a
  mirror : ∀ a b : Nat, (graph a).outEdges.count (b : Int) = (graph b).inEdges.count (a : Int)
  counted : ∀ a < n, (graph a).Counted
  outMem : ∀ a, ∀ x ∈ (graph a).outEdges, x = -1 ∨ ∃ b < n, x = (b : Int)
  inMem : ∀ b, ∀ x ∈ (graph b).inEdges, x = -1 ∨ ∃ a < n, x = (a : Int)

/-- The invariant of the pass. `done` are the nodes whose outgoing edges are all removed and `rest` those being
processed. -/
structure PassInv (tasks : Nat → Task) (n : Nat) (done rest : List Nat) (st : PassState) : Prop where
  graph : GraphInv n st.graph
  split : st.inserted = done ++ rest ++ st.S
  nodup : st.inserted.Nodup
  inserted_iff : ∀ v, v ∈ st.inserted ↔ v < n ∧ (st.graph v).inEdgesNum = 0
  clear : ∀ v ∈ done, ∀ x ∈ (st.graph v).outEdges, x = -1
  removed : ∀ a b : Nat, a ∉ st.inserted → (st.graph b).inEdges.count (a : Int) = (tasks b).depCount a
  acc : ∀ v ∈ st.inserted, Acc (DepEdge tasks n) v

/-! ## The initial state -/

/-- The pass before its first round: `sources` have been inserted into `S`. -/
def startState (tasks : Nat → Task) (sources : List Nat) : PassState :=
  { graph := nodeOf tasks, S := sources, inserted := sources }

theorem initPass_eq (tasks : Nat → Task) (n : Nat) :
    initPass tasks n = startState tasks ((List.range n).filter fun i => (tasks i).deps = []) := by
  refine Lib.foldl_range_induct
    (fun i st => st = startState tasks ((List.range i).filter fun i => (tasks i).deps = [])) rfl ?_
  rintro i - _ rfl
  by_cases h : (tasks i).deps = [] <;>
    simp [startState, nodeOf, PassState.add, List.range_succ, List.filter_append, h]

theorem count_map_natCast (l : List Nat) (b : Nat) : (l.map fun k : Nat => (k : Int)).count (b : Int) = l.count b :=
  List.count_map_of_injective l _ (fun _ _ h => by exact_mod_cast h) b

theorem nodeOf_counted {tasks : Nat → Task} {n : Nat} (h : Indexed tasks n) {a : Nat} (ha : a < n) :
    (nodeOf tasks a).Counted := by
  refine ⟨?_, ?_⟩
  · simp only [nodeOf]
    rw [List.countP_eq_length.mpr, List.length_map]
    intro x hx
    obtain ⟨d, hd, rfl⟩ := List.mem_map.mp hx
    obtain ⟨k, -, hk, -⟩ := h.resolved a ha d hd
    simp [hk]
  · simp only [nodeOf]
    rw [List.countP_eq_length.mpr, List.length_map]
    intro x hx
    obtain ⟨k, -, rfl⟩ := List.mem_map.mp hx
    simp

theorem nodeOf_inEdges_count (tasks : Nat → Task) (a b : Nat) :
    (nodeOf tasks b).inEdges.count (a : Int) = (tasks b).depCount a := by
  simp only [nodeOf, Task.depCount, List.count, List.countP_map]
  rfl

theorem nodeOf_inv {tasks : Nat → Task} {n : Nat} (h : Indexed tasks n) : GraphInv n (nodeOf tasks) := by
  refine ⟨fun _ => rfl, fun a b => ?_, fun a ha => nodeOf_counted h ha, fun a x hx => ?_, fun b x hx => ?_⟩
  · rw [nodeOf_inEdges_count, ← h.mirror, ← count_map_natCast]
    rfl
  · obtain ⟨b, hb, rfl⟩ := List.mem_map.mp hx
    refine Or.inr ⟨b, ?_, rfl⟩
    by_contra hbn
    have hpos : 0 < (tasks b).depCount a := by
      rw [← h.mirror]
      exact List.count_pos_iff.mpr hb
    obtain ⟨d, hd, hda⟩ := List.countP_pos_iff.mp hpos
    rw [h.unresolved b (by omega) d hd] at hda
    simp at hda
  · obtain ⟨d, hd, rfl⟩ := List.mem_map.mp hx
    by_cases hb : b < n
    · obtain ⟨k, hk, hdk, -⟩ := h.resolved b hb d hd
      exact Or.inr ⟨k, hk, hdk⟩
    · exact Or.inl (h.unresolved b (by omega) d hd)

theorem initPass_inv {tasks : Nat → Task} {n : Nat} (h : Indexed tasks n) :
    PassInv tasks n [] [] (initPass tasks n) := by
  have hmem (v : Nat) : v ∈ (List.range n).filter (fun i => (tasks i).deps = []) ↔ v < n ∧ (tasks v).deps = [] := by
    simp
  rw [initPass_eq]
  refine ⟨nodeOf_inv h, rfl, List.nodup_range.filter _, fun v => ?_, fun _ hv => absurd hv List.not_mem_nil,
    fun a b _ => nodeOf_inEdges_count tasks a b, fun v hv => ?_⟩
  · simp [startState, hmem, nodeOf]
  · refine ⟨v, fun u hu => ?_⟩
    obtain ⟨-, d, hd, -⟩ := hu
    rw [((hmem v).mp hv).2] at hd
    exact absurd hd List.not_mem_nil

/-! ## Removing one edge -/

theorem mem_set_neg_one {l : List Int} {i : Nat} {x : Int} (h : x ∈ l.set i (-1)) : x = -1 ∨ x ∈ l :=
  (List.mem_or_eq_of_mem_set h).symm

theorem count_set_neg_one {l : List Int} {i : Nat} (hi : i < l.length) {m : Nat} (hm : l[i] = (m : Int)) (b : Nat) :
    (l.set i (-1)).count (b : Int) + (if b = m then 1 else 0) = l.count (b : Int) := by
  by_cases hb : b = m
  · subst hb
    rw [if_pos rfl]
    exact Lib.countP_set_of_pos_of_neg hi (by simpa using hm) (by simp)
  · rw [if_neg hb]
    refine Lib.countP_set_of_neg hi ?_ (by simp)
    simp only [hm, beq_eq_false_iff_ne, ne_eq]
    omega

theorem PassInv.twin {tasks : Nat → Task} {n v i : Nat} {done rest : List Nat} {st : PassState}
    (hI : PassInv tasks n done rest st) (hv : v ∈ st.inserted) (hi : i < (st.graph v).outEdges.length)
    (hl : (st.graph v).outEdges[i] ≠ -1) :
    ∃ m < n, m ≠ v ∧ (st.graph v).outEdges[i] = (m : Int) ∧ m ∉ st.inserted ∧
      ∃ j, ∃ hj : j < (st.graph m).inEdges.length, (st.graph m).inEdges[j] = (v : Int) ∧
        (st.graph m).inEdges.idxOf? (v : Int) = some j := by
  obtain hneg | ⟨m, hmn, hm⟩ := hI.graph.outMem v _ (List.getElem_mem hi)
  · exact absurd hneg hl
  have hcount : 0 < (st.graph m).inEdges.count (v : Int) := by
    rw [← hI.graph.mirror, List.count_pos_iff, ← hm]
    exact List.getElem_mem hi
  have hmem := List.count_pos_iff.mp hcount
  have hm' : m ∉ st.inserted := by
    intro hins
    have h0 := ((hI.inserted_iff m).mp hins).2
    rw [(hI.graph.counted m hmn).inEdges] at h0
    have := List.countP_eq_zero.mp (Int.natCast_eq_zero.mp h0) _ hmem
    simp at this
  refine ⟨m, hmn, fun h => hm' (h ▸ hv), hm, hm', ?_⟩
  obtain ⟨j, hj⟩ := Option.isSome_iff_exists.mp (List.isSome_idxOf?.mpr hmem)
  obtain ⟨hjl, hjv, -⟩ := List.findIdx?_eq_some_iff_getElem.mp hj
  exact ⟨j, hjl, by simpa using hjv, hj⟩

/-- The graph without the edge from `v` to `m`. -/
def dropEdge (graph : Nat → Node) (v i m j : Nat) : Nat → Node :=
  Function.update (Function.update graph v ((graph v).clearOut i)) m ((graph m).clearIn j)

section dropEdge

variable {graph : Nat → Node} {v i m j : Nat}

theorem dropEdge_apply (a : Nat) : dropEdge graph v i m j a =
    if a = m then (graph m).clearIn j else if a = v then (graph v).clearOut i else graph a := by
  simp only [dropEdge, Function.update_apply]

theorem dropEdge_inEdges (a : Nat) :
    (dropEdge graph v i m j a).inEdges = if a = m then (graph m).inEdges.set j (-1) else (graph a).inEdges := by
  rw [dropEdge_apply]
  split_ifs with ham hav
  · rfl
  · rw [hav, Node.clearOut_inEdges]
  · rfl

theorem dropEdge_inEdgesNum (a : Nat) :
    (dropEdge graph v i m j a).inEdgesNum = if a = m then (graph m).inEdgesNum - 1 else (graph a).inEdgesNum := by
  rw [dropEdge_apply]
  split_ifs with ham hav
  · rfl
  · rw [hav, Node.clearOut_inEdgesNum]
  · rfl

theorem dropEdge_outEdges (hmv : m ≠ v) (a : Nat) :
    (dropEdge graph v i m j a).outEdges = if a = v then (graph v).outEdges.set i (-1) else (graph a).outEdges := by
  rw [dropEdge_apply]
  split_ifs with ham hav hav
  · exact absurd (ham.symm.trans hav) hmv
  · rw [ham, Node.clearIn_outEdges]
  · rfl
  · rfl

theorem dropEdge_index (a : Nat) : (dropEdge graph v i m j a).index = (graph a).index := by
  rw [dropEdge_apply]
  split_ifs with ham hav
  · rw [ham, Node.clearIn_index]
  · rw [hav, Node.clearOut_index]
  · rfl

end dropEdge

theorem PassInv.removeEdge_eq {tasks : Nat → Task} {n v i : Nat} {done rest : List Nat} {st : PassState}
    (hI : PassInv tasks n done rest st) (hv : v ∈ st.inserted) (hi : i < (st.graph v).outEdges.length)
    (hl : (st.graph v).outEdges[i] ≠ -1) :
    ∃ m < n, m ≠ v ∧ (st.graph v).outEdges[i] = (m : Int) ∧ m ∉ st.inserted ∧
      ∃ j, ∃ hj : j < (st.graph m).inEdges.length, (st.graph m).inEdges[j] = (v : Int) ∧
        removeEdge v st i =
          let st' : PassState := { st with graph := dropEdge st.graph v i m j }
          if (st.graph m).inEdgesNum - 1 = 0 then st'.add m else st' := by
  obtain ⟨m, hmn, hmv, hm, hmi, j, hj, hjv, hidx⟩ := hI.twin hv hi hl
  refine ⟨m, hmn, hmv, hm, hmi, j, hj, hjv, ?_⟩
  have hget : (st.graph v).outEdges.getD i (-1) = (m : Int) := by simp [hi, hm]
  have hm0 : (m : Int) ≠ -1 := by omega
  simp only [removeEdge, hget, hm0, ↓reduceIte, PassState.setNode, Int.toNat_natCast, Function.update_self,
    Function.update_of_ne hmv, Node.clearOut_index, hI.graph.index v, hidx]
  rfl

theorem GraphInv.dropEdge {n v i m j : Nat} {graph : Nat → Node} (hG : GraphInv n graph) (hmv : m ≠ v)
    (hi : i < (graph v).outEdges.length) (hm : (graph v).outEdges[i] = (m : Int))
    (hj : j < (graph m).inEdges.length) (hjv : (graph m).inEdges[j] = (v : Int)) :
    GraphInv n (dropEdge graph v i m j) := by
  refine ⟨fun a => ?_, fun a b => ?_, fun a ha => ?_, fun a x hx => ?_, fun b x hx => ?_⟩
  · rw [dropEdge_index, hG.index]
  · have hab := hG.mirror a b
    have hout := count_set_neg_one hi hm b
    have hin := count_set_neg_one hj hjv a
    rw [dropEdge_outEdges hmv, dropEdge_inEdges]
    by_cases hav : a = v
    · subst hav
      by_cases hbm : b = m
      · subst hbm
        simp only [↓reduceIte] at hout hin ⊢
        omega
      · simp only [hbm, ↓reduceIte] at hout ⊢
        omega
    · by_cases hbm : b = m
      · subst hbm
        simp only [hav, ↓reduceIte] at hin ⊢
        omega
      · simpa only [hav, hbm, ↓reduceIte] using hab
  · rw [dropEdge_apply]
    split_ifs with ham hav
    · exact (hG.counted m (ham ▸ ha)).clearIn hj (by omega)
    · exact (hG.counted v (hav ▸ ha)).clearOut hi (by omega)
    · exact hG.counted a ha
  · rw [dropEdge_outEdges hmv] at hx
    split_ifs at hx with hav
    · exact (mem_set_neg_one hx).elim Or.inl (hG.outMem v x)
    · exact hG.outMem a x hx
  · rw [dropEdge_inEdges] at hx
    split_ifs at hx with hbm
    · exact (mem_set_neg_one hx).elim Or.inl (hG.inMem m x)
    · exact hG.inMem b x hx

/-- A node without live incoming edges is accessible once all the sources it had are. -/
theorem acc_of_no_inEdges {tasks : Nat → Task} {n m : Nat} {l : List Int} {ins : List Nat}
    (hl : l.countP (· != -1) = 0) (hr : ∀ a : Nat, a ∉ ins → l.count (a : Int) = (tasks m).depCount a)
    (hacc : ∀ a ∈ ins, Acc (DepEdge tasks n) a) : Acc (DepEdge tasks n) m := by
  refine ⟨m, fun a ⟨_, d, hd, hda⟩ => hacc a ?_⟩
  by_contra ha
  have hpos : 0 < (tasks m).depCount a := List.countP_pos_iff.mpr ⟨d, hd, by simpa using hda⟩
  rw [← hr a ha] at hpos
  have := List.countP_eq_zero.mp hl _ (List.count_pos_iff.mp hpos)
  simp at this

theorem PassInv.removeEdge_live {tasks : Nat → Task} {n v i : Nat} {done rest : List Nat} {st : PassState}
    (hI : PassInv tasks n done rest st) (hv : v ∈ st.inserted) (hi : i < (st.graph v).outEdges.length)
    (hl : (st.graph v).outEdges[i] ≠ -1) :
    PassInv tasks n done rest (removeEdge v st i) ∧
      ((removeEdge v st i).graph v).outEdges = (st.graph v).outEdges.set i (-1) := by
  obtain ⟨m, hmn, hmv, hm, hmi, j, hj, hjv, heq⟩ := hI.removeEdge_eq hv hi hl
  rw [heq]
  have hG := hI.graph.dropEdge hmv hi hm hj hjv
  have hclear : ∀ u ∈ done, ∀ x ∈ (dropEdge st.graph v i m j u).outEdges, x = -1 := by
    intro u hu x hx
    rw [dropEdge_outEdges hmv] at hx
    split_ifs at hx with huv
    · exact (mem_set_neg_one hx).elim id (hI.clear v (huv ▸ hu) x)
    · exact hI.clear u hu x hx
  have hremoved : ∀ a b : Nat, a ∉ st.inserted →
      (dropEdge st.graph v i m j b).inEdges.count (a : Int) = (tasks b).depCount a := by
    intro a b ha
    rw [dropEdge_inEdges, ← hI.removed a b ha]
    have hav : a ≠ v := fun h => ha (h ▸ hv)
    have hin := count_set_neg_one hj hjv a
    split_ifs with hbm
    · rw [hbm]
      simpa only [hav, ↓reduceIte, Nat.add_zero] using hin
    · rfl
  have hnum (b : Nat) : (dropEdge st.graph v i m j b).inEdgesNum =
      if b = m then (st.graph m).inEdgesNum - 1 else (st.graph b).inEdgesNum := dropEdge_inEdgesNum b
  have hout : (dropEdge st.graph v i m j v).outEdges = (st.graph v).outEdges.set i (-1) := by
    rw [dropEdge_outEdges hmv, if_pos rfl]
  simp only
  split_ifs with hzero
  · refine ⟨⟨hG, ?_, ?_, fun u => ?_, hclear, fun a b ha => hremoved a b ?_, fun u hu => ?_⟩, hout⟩
    · simp [PassState.add, hI.split]
    · exact hI.nodup.append (List.nodup_singleton m) (by simpa using hmi)
    · simp only [PassState.add, List.mem_append, List.mem_singleton, hI.inserted_iff, hnum]
      by_cases hum : u = m
      · subst hum
        simp [hmn, hzero]
      · simp [hum]
    · simp only [PassState.add, List.mem_append, not_or] at ha
      exact ha.1
    · simp only [PassState.add, List.mem_append, List.mem_singleton] at hu
      rcases hu with hu | rfl
      · exact hI.acc u hu
      · refine acc_of_no_inEdges (l := (dropEdge st.graph v i u j u).inEdges) ?_ (fun a ha => hremoved a u ha) hI.acc
        have := (hG.counted u hmn).inEdges
        rw [hnum, if_pos rfl, hzero] at this
        omega
  · refine ⟨⟨hG, hI.split, hI.nodup, fun u => ?_, hclear, hremoved, hI.acc⟩, hout⟩
    rw [hI.inserted_iff, hnum]
    by_cases hum : u = m
    · subst hum
      have h0 : (st.graph u).inEdgesNum ≠ 0 := fun h => hmi ((hI.inserted_iff u).mpr ⟨hmn, h⟩)
      simp [hzero, h0]
    · simp [hum]

/-! ## Rounds -/

theorem removeEdge_dead {v i : Nat} {st : PassState} (hi : i < (st.graph v).outEdges.length)
    (hl : (st.graph v).outEdges[i] = -1) : removeEdge v st i = st := by
  have hget : (st.graph v).outEdges.getD i (-1) = -1 := by simp [hi, hl]
  simp only [removeEdge, hget, ↓reduceIte]

/-- The first `i` slots of `out_edges` are cleared. -/
def ClearedTo (x : Node) (i : Nat) : Prop := ∀ k (hk : k < x.outEdges.length), k < i → x.outEdges[k] = -1

theorem PassInv.removeEdge {tasks : Nat → Task} {n v i : Nat} {done rest : List Nat} {st : PassState}
    (hI : PassInv tasks n done rest st) (hv : v ∈ rest) (hi : i < (st.graph v).outEdges.length)
    (hc : ClearedTo (st.graph v) i) :
    PassInv tasks n done rest (OphidiaWorkflow.removeEdge v st i) ∧
      ((OphidiaWorkflow.removeEdge v st i).graph v).outEdges.length = (st.graph v).outEdges.length ∧
      ClearedTo ((OphidiaWorkflow.removeEdge v st i).graph v) (i + 1) := by
  have hins : v ∈ st.inserted := by
    rw [hI.split]
    simp [hv]
  by_cases hl : (st.graph v).outEdges[i] = -1
  · rw [removeEdge_dead hi hl]
    refine ⟨hI, rfl, fun k hk hki => ?_⟩
    by_cases hk' : k = i
    · subst hk'
      exact hl
    · exact hc k hk (by omega)
  · obtain ⟨hI', hout⟩ := hI.removeEdge_live hins hi hl
    refine ⟨hI', by rw [hout, List.length_set], fun k hk hki => ?_⟩
    simp only [hout, List.getElem_set]
    split_ifs with hik
    · rfl
    · exact hc k (by simpa [hout] using hk) (by omega)

theorem PassInv.round {tasks : Nat → Task} {n v : Nat} {done S : List Nat} {st : PassState}
    (hI : PassInv tasks n done [] st) (hS : st.S = v :: S) : PassInv tasks n (done ++ [v]) [] (passRound st) := by
  have h0 : PassInv tasks n done [v] { st with S := S } :=
    ⟨hI.graph, by simp [hI.split, hS], hI.nodup, hI.inserted_iff, hI.clear, hI.removed, hI.acc⟩
  obtain ⟨hI', hlen, hc⟩ := Lib.foldl_range_induct (f := OphidiaWorkflow.removeEdge v) (s := { st with S := S })
    (n := (st.graph v).outEdges.length)
    (fun i st' => PassInv tasks n done [v] st' ∧ (st'.graph v).outEdges.length = (st.graph v).outEdges.length ∧
      ClearedTo (st'.graph v) i)
    ⟨h0, rfl, fun _ _ hk => absurd hk (Nat.not_lt_zero _)⟩ (by
      rintro i hi st' ⟨hI', hlen, hc⟩
      obtain ⟨hI'', hlen', hc'⟩ := hI'.removeEdge List.mem_cons_self (hlen ▸ hi) hc
      exact ⟨hI'', hlen'.trans hlen, hc'⟩)
  have hround : passRound st =
      (List.range (st.graph v).outEdges.length).foldl (OphidiaWorkflow.removeEdge v) { st with S := S } := by
    rw [passRound, hS]
  rw [hround]
  refine ⟨hI'.graph, by simp [hI'.split], hI'.nodup, hI'.inserted_iff, fun u hu x hx => ?_, hI'.removed, hI'.acc⟩
  rcases List.mem_append.mp hu with hu | hu
  · exact hI'.clear u hu x hx
  · rw [List.mem_singleton.mp hu] at hx
    obtain ⟨k, hk, rfl⟩ := List.getElem_of_mem hx
    exact hc k hk (hlen ▸ hk)

theorem passRound_iterate_inv {tasks : Nat → Task} {n : Nat} (h : Indexed tasks n) (k : Nat) :
    ∃ done, PassInv tasks n done [] (passRound^[k] (initPass tasks n)) := by
  induction k with
  | zero => exact ⟨[], initPass_inv h⟩
  | succ k ih =>
    obtain ⟨done, hI⟩ := ih
    rw [Function.iterate_succ_apply']
    cases hS : (passRound^[k] (initPass tasks n)).S with
    | nil =>
      refine ⟨done, ?_⟩
      rwa [passRound, hS]
    | cons v S => exact ⟨done ++ [v], hI.round hS⟩

/-- Every round settles one more node, so that as many rounds as there are tasks empty `S`. -/
theorem passLoop_some {tasks : Nat → Task} {n fuel : Nat} {done : List Nat} {st : PassState}
    (hI : PassInv tasks n done [] st) (hf : n ≤ done.length + fuel) :
    ∃ st' done', passLoop fuel st = some st' ∧ PassInv tasks n done' [] st' ∧ st'.S = [] := by
  have hlen := Lib.length_le_of_nodup_of_lt hI.nodup fun v hv => ((hI.inserted_iff v).mp hv).1
  rw [hI.split, List.append_nil, List.length_append] at hlen
  induction fuel generalizing st done with
  | zero =>
    have hS : st.S = [] := List.length_eq_zero_iff.mp (by omega)
    exact ⟨st, done, by simp [passLoop, hS], hI, hS⟩
  | succ fuel ih =>
    cases hS : st.S with
    | nil => exact ⟨st, done, by simp [passLoop, hS], hI, hS⟩
    | cons v S =>
      have hI' := hI.round hS
      have hlen' := Lib.length_le_of_nodup_of_lt hI'.nodup fun v hv => ((hI'.inserted_iff v).mp hv).1
      rw [hI'.split, List.append_nil, List.length_append] at hlen'
      obtain ⟨st', done', hloop, hI'', hS'⟩ :=
        ih hI' (by simp only [List.length_append, List.length_singleton]; omega) hlen'
      exact ⟨st', done', by simpa [passLoop, hS] using hloop, hI'', hS'⟩

theorem passLoop_succ {fuel : Nat} {st st' : PassState} (h : passLoop fuel st = some st') :
    passLoop (fuel + 1) st = some st' := by
  induction fuel generalizing st with
  | zero =>
    unfold passLoop at h ⊢
    split at h
    · next hs => rwa [if_pos hs]
    · cases h
  | succ fuel ih =>
    rw [passLoop] at h ⊢
    split at h
    · next hs => rwa [if_pos hs]
    · next hs =>
      rw [if_neg hs]
      exact ih h

/-! ## The verdict -/

theorem PassInv.noEdges_iff {tasks : Nat → Task} {n : Nat} {done : List Nat} {st : PassState}
    (hI : PassInv tasks n done [] st) (hS : st.S = []) : st.noEdges n = true ↔ Lib.Acyclic (DepEdge tasks n) := by
  have hdone : st.inserted = done := by simpa [hS] using hI.split
  simp only [PassState.noEdges, List.all_eq_true, List.mem_range, Bool.and_eq_true, beq_iff_eq]
  constructor
  · intro hall
    exact Lib.acyclic_of_acc fun a b hab => hI.acc b ((hI.inserted_iff b).mpr ⟨hab.1, (hall b hab.1).1⟩)
  · intro hac
    -- a node with a live incoming edge has a predecessor with one, so that such nodes would form a cycle
    have hins : ∀ v < n, v ∈ st.inserted := by
      by_contra hne
      push Not at hne
      have hfin : {v | v < n ∧ v ∉ st.inserted}.Finite := (Set.finite_lt_nat n).subset fun v hv => hv.1
      obtain ⟨v, ⟨hvn, hv⟩, hsrc⟩ := hac.exists_source hfin hne
      have hnum : (st.graph v).inEdgesNum ≠ 0 := fun h => hv ((hI.inserted_iff v).mpr ⟨hvn, h⟩)
      rw [(hI.graph.counted v hvn).inEdges] at hnum
      obtain ⟨x, hx, hlive⟩ := List.countP_pos_iff.mp (Nat.pos_of_ne_zero fun h => hnum (by rw [h]; rfl))
      obtain hneg | ⟨a, han, rfl⟩ := hI.graph.inMem v x hx
      · simp [hneg] at hlive
      have hmem : ((v : Nat) : Int) ∈ (st.graph a).outEdges := by
        rw [← List.count_pos_iff, hI.graph.mirror]
        exact List.count_pos_iff.mpr hx
      have ha : a ∉ st.inserted := by
        intro ha
        have := hI.clear a (hdone ▸ ha) _ hmem
        omega
      refine hsrc a ⟨han, ha⟩ ⟨hvn, ?_⟩
      have hpos : 0 < (tasks v).depCount a := by
        rw [← hI.removed a v ha]
        exact List.count_pos_iff.mpr hx
      obtain ⟨d, hd, hda⟩ := List.countP_pos_iff.mp hpos
      exact ⟨d, hd, by simpa using hda⟩
    intro v hv
    refine ⟨((hI.inserted_iff v).mp (hins v hv)).2, ?_⟩
    rw [(hI.graph.counted v hv).outEdges, List.countP_eq_zero.mpr]
    · rfl
    · intro x hx
      simp [hI.clear v (hdone ▸ hins v hv) x hx]

theorem topologicalPass_eq {tasks : Nat → Task} {n fuel : Nat} (h : Indexed tasks n) (hf : n ≤ fuel) :
    ∃ code, topologicalPass fuel tasks n = some code ∧ (code = .success ↔ Lib.Acyclic (DepEdge tasks n)) := by
  have hlen : n ≤ ([] : List Nat).length + fuel := by simpa using hf
  obtain ⟨st, done, hloop, hI, hS⟩ := passLoop_some (initPass_inv h) hlen
  refine ⟨if st.noEdges n then .success else .badParamError, by rw [topologicalPass, hloop, Option.map_some], ?_⟩
  rw [← hI.noEdges_iff hS]
  split_ifs with hn <;> simp [hn]

/-- The topological pass ends, never inserts a task into `S` twice, and decides whether the dependency graph is
acyclic. -/
theorem validate_success_iff_acyclic (wf : LoadedWorkflow) {tasks : Nat → Task}
    (h : indexing wf.tasks wf.tasksNum = .ok tasks) :
    (∀ fuel, wf.tasksNum ≤ fuel → (topologicalPass fuel tasks wf.tasksNum).isSome) ∧
      (∀ k, (passRound^[k] (initPass tasks wf.tasksNum)).inserted.Nodup) ∧
      (namesUnique tasks wf.tasksNum → noReservedChars tasks wf.tasksNum → ∀ fuel, wf.tasksNum ≤ fuel →
        (validate fuel { wf.toWorkflow with tasks := tasks } = some .success ↔
          Lib.Acyclic (DepEdge tasks wf.tasksNum))) := by
  obtain ⟨hI, -⟩ := indexing_indexed wf.fresh h
  refine ⟨fun fuel hf => ?_, fun k => ?_, fun hn hr fuel hf => ?_⟩
  · obtain ⟨code, hc, -⟩ := topologicalPass_eq hI hf
    simp [hc]
  · obtain ⟨done, hP⟩ := passRound_iterate_inv hI k
    exact hP.nodup
  · obtain ⟨code, hc, hiff⟩ := topologicalPass_eq hI hf
    simp only [validate, hn, hr, hc, Bool.not_true, Bool.false_eq_true, ↓reduceIte, Option.some.injEq]
    exact hiff

/-- A request with two dependencies between the same two tasks. -/
def doubleEdgeRequest : LoadedWorkflow :=
  loadRequest [requestTask "A" (.other "oph_a") [] 1, requestTask "B" (.other "oph_b") ["A", "A"] 1] (by
    simp only [List.forall_mem_cons, List.not_mem_nil, false_implies, implies_true, and_true]
    exact ⟨requestTask_fresh .., requestTask_fresh ..⟩)

theorem validate_success_iff_acyclic_doubleEdge :
    ∃ tasks, indexing doubleEdgeRequest.tasks 2 = .ok tasks ∧ validate 2 { doubleEdgeRequest.toWorkflow with tasks := tasks } = some .success ∧
      Lib.Acyclic (DepEdge tasks 2) :=
  ⟨_, rfl, rfl, ((validate_success_iff_acyclic doubleEdgeRequest rfl).2.2 rfl rfl 2 le_rfl).mp rfl⟩

end OphidiaWorkflow
