import Mathlib.Algebra.BigOperators.Group.List.Basic
import OphidiaWorkflow.Lib.Loops
import OphidiaWorkflow.Response.Roots

/-!
What the reader accepts, whoever has written it, and when that can be written again.
-/
namespace OphidiaWorkflow.Response
open Json Lib

/-- The texts have property `P`, and the number of the trees without a root stays. -/
def Call.Plain (P : List Char → Prop) (c : Call) : Prop := c.Texts P ∧ c.trees = c.roots

/-- The action is a call with property `Q`, or none. -/
def Action.Holds (Q : Call → Prop) : Action → Prop
  | .call c => Q c
  | _ => True

section Read

variable {P : List Char → Prop} {Q : Call → Prop} {j o : Json} {l : List (List Char)} {js : List Json}
  {objkey : List Char}

theorem readTexts_texts (hj : Texts P j) (h : readTexts j = some l) : ∀ s ∈ l, P s := by
  intro s hs
  have hread := List.Forall₂.flip (R := fun s j => text? j = some s) (mapM_eq_some_iff.mp h)
  obtain ⟨i, hi, ht⟩ := exists_of_forall₂_of_mem hread hs
  exact (hj.items hi).text? ht

theorem unpack_texts {texts : List String} {k : String} (ho : Texts P o) : ∀ s ∈ o.unpack texts k, P s := by
  intro s hs
  unfold unpack at hs
  split at hs
  · exact ho.getText? hs
  · cases hs

theorem unpackValue_texts {texts : List String} {k : String} (ho : Texts P o) (h : unpackValue o texts k = some j) :
    Texts P j := by
  unfold unpackValue at h
  split at h
  · exact ho.get? h
  · cases h

theorem itemsOf_texts {k : String} (ho : Texts P o) : ∀ i ∈ itemsOf (o.get? k), Texts P i := by
  intro i hi
  unfold itemsOf at hi
  cases hk : o.get? k with
  | none =>
    rw [hk] at hi
    cases hi
  | some j =>
    rw [hk] at hi
    exact (ho.get? hk).items hi

theorem readRow_holds {call : List (List Char) → Call} (hcall : ∀ l, (∀ s ∈ l, P s) → Q (call l))
    (hj : Texts P j) : (readRow call j).Holds Q := by
  unfold readRow
  split
  · next l hl => exact hcall l (readTexts_texts hj hl)
  · trivial

theorem map_readRow_holds {call : List (List Char) → Call} (hcall : ∀ l, (∀ s ∈ l, P s) → Q (call l))
    (hjs : ∀ j ∈ js, Texts P j) : ∀ a ∈ js.map (readRow call), a.Holds Q := by
  intro a ha
  obtain ⟨j, hj, rfl⟩ := List.mem_map.mp ha
  exact readRow_holds hcall (hjs j hj)

/-- The variable keeps a text of the value, or the one before. -/
theorem or_texts {s t : Option (List Char)} (hs : ∀ x ∈ s, P x) (ht : ∀ x ∈ t, P x) : ∀ x ∈ s.or t, P x := by
  cases s with
  | none => exact ht
  | some s => exact hs

theorem text?_texts (hj : Texts P j) : ∀ s ∈ j.text?, P s := fun _ hs => hj.text? hs

theorem readDetails_holds {call : Option (List Char) → Option (List Char) → Call}
    (hcall : ∀ k v, (∀ s ∈ k, P s) → (∀ s ∈ v, P s) → Q (call k v)) {key value : Option (List Char)}
    {ks vs : List Json} (hkey : ∀ s ∈ key, P s) (hvalue : ∀ s ∈ value, P s) (hks : ∀ j ∈ ks, Texts P j)
    (hvs : ∀ j ∈ vs, Texts P j) : ∀ a ∈ readDetails call key value ks vs, a.Holds Q := by
  induction ks generalizing key value vs with
  | nil => simp [readDetails]
  | cons k ks ih =>
    have hkey' := or_texts (text?_texts (hks k List.mem_cons_self)) hkey
    have hvalue' : ∀ s ∈ (vs.head?.bind text?).or value, P s := by
      refine or_texts (fun s hs => ?_) hvalue
      obtain ⟨v, hv, hs⟩ := Option.bind_eq_some_iff.mp hs
      exact (hvs v (List.mem_of_head? hv)).text? hs
    rw [readDetails]
    exact List.forall_mem_cons.mpr ⟨hcall _ _ hkey' hvalue', ih hkey' hvalue'
      (fun j hj => hks j (List.mem_cons_of_mem _ hj)) fun j hj => hvs j (List.mem_of_mem_tail hj)⟩

theorem readKeys_holds {call : Option (List Char) → Option (List Char) → Call}
    (hcall : ∀ k v, (∀ s ∈ k, P s) → (∀ s ∈ v, P s) → Q (call k v)) (ho : Texts P o) :
    ∀ a ∈ readKeys call o, a.Holds Q := by
  unfold readKeys
  split
  · next keys values hk hv =>
    exact readDetails_holds hcall (by simp) (by simp) (fun j hj => (ho.get? hk).items hj) fun j hj =>
      (ho.get? hv).items hj
  · simp
  · exact List.forall_mem_singleton.mpr trivial

theorem readConsumers_holds {name : Option (List Char)} (hcall : ∀ s, (∀ t ∈ s, P t) → Q (.consumer s))
    (hname : ∀ s ∈ name, P s) (hjs : ∀ j ∈ js, Texts P j) : ∀ a ∈ readConsumers name js, a.Holds Q := by
  induction js generalizing name with
  | nil => simp [readConsumers]
  | cons j js ih =>
    have hname' := or_texts (text?_texts (hjs j List.mem_cons_self)) hname
    rw [readConsumers]
    exact List.forall_mem_cons.mpr ⟨hcall _ hname', ih hname' fun j hj => hjs j (List.mem_cons_of_mem _ hj)⟩

theorem readMeasures_holds {measures : Option Json} {rows next : List Json}
    (hcall : ∀ r m, (∀ s ∈ r, P s) → (∀ s ∈ m, P s) → Q (.multigridRow objkey r m))
    (hm : ∀ m ∈ measures, Texts P m) (hrows : ∀ j ∈ rows, Texts P j) (hnext : ∀ j ∈ next, Texts P j) :
    ∀ a ∈ readMeasures objkey measures rows next, a.Holds Q := by
  induction rows generalizing measures next with
  | nil => simp [readMeasures]
  | cons row rows ih =>
    have hm' : ∀ m ∈ next.head?.or measures, Texts P m := by
      intro m hmem
      cases hn : next.head? with
      | none =>
        rw [hn] at hmem
        exact hm m hmem
      | some x =>
        rw [hn] at hmem
        cases hmem
        exact hnext m (List.mem_of_head? hn)
    rw [readMeasures]
    refine List.forall_mem_append.mpr ⟨?_, ih hm' (fun j hj => hrows j (List.mem_cons_of_mem _ hj)) fun j hj =>
      hnext j (List.mem_of_mem_tail hj)⟩
    cases hmeq : next.head?.or measures with
    | none => simp
    | some m =>
      dsimp only
      split
      · next r m' hr hm'' =>
        exact List.forall_mem_singleton.mpr (hcall _ _ (readTexts_texts (hrows row List.mem_cons_self) hr)
          (readTexts_texts (hm' m hmeq) hm''))
      · exact List.forall_mem_singleton.mpr trivial

theorem readLinks_holds {link : Int → Int → Option (List Char) → Call}
    (hcall : ∀ n m d, (∀ s ∈ d, P s) → Q (link n m d)) (source : Nat) (hjs : ∀ j ∈ js, Texts P j) :
    ∀ a ∈ readLinks link source js, a.Holds Q := by
  induction js generalizing source with
  | nil => simp [readLinks]
  | cons links js ih =>
    rw [readLinks]
    refine List.forall_mem_append.mpr ⟨fun a ha => ?_, ih _ fun j hj => hjs j (List.mem_cons_of_mem _ hj)⟩
    obtain ⟨l, hl, rfl⟩ := List.mem_map.mp ha
    unfold readLink
    dsimp only
    split
    · exact hcall _ _ _ (unpack_texts ((hjs links List.mem_cons_self).items hl))
    · trivial

/-- The graph is created, then come its nodes, then the root of a tree, then the links. -/
theorem readNodes_cases (create node : Option (List (List Char)) → Call) (root : List Action)
    (link : Int → Int → Option (List Char) → Call)
    (hnode : ∀ vs, (∀ s ∈ vs.getD [], P s) → Q (node vs)) (hlink : ∀ n m d, (∀ s ∈ d, P s) → Q (link n m d))
    (ho : Texts P o) :
    readNodes create node root link o = [.generic] ∨
      ∃ keys nodes links, readNodes create node root link o = .call (create keys) :: (nodes ++ (root ++ links)) ∧
        (∀ s ∈ keys.getD [], P s) ∧ (∀ a ∈ nodes, a.Holds Q) ∧ ∀ a ∈ links, a.Holds Q := by
  have hitems := itemsOf_texts (k := "nodelinks") ho
  have hlinks := readLinks_holds hlink 0 hitems
  have hempty : ∀ a ∈ (itemsOf (o.get? "nodelinks")).map fun _ => Action.call (node none), a.Holds Q := by
    intro a ha
    obtain ⟨j, -, rfl⟩ := List.mem_map.mp ha
    exact hnode none (by simp)
  unfold readNodes
  dsimp only
  split
  · next nodekeys hk =>
    split
    · next keys hkeys =>
      refine .inr ⟨some keys, _, _, by rw [List.cons_append, List.cons_append, List.append_assoc],
        readTexts_texts (unpackValue_texts ho hk) hkeys, ?_, hlinks⟩
      split
      · next nodevalues hv =>
        exact map_readRow_holds (fun l hl => hnode (some l) hl) fun j hj => (ho.get? hv).items hj
      · exact hempty
    · exact .inl rfl
  · exact .inr ⟨none, _, _, by rw [List.cons_append, List.cons_append, List.append_assoc], by simp, hempty, hlinks⟩

theorem readText_holds (hkey : P objkey) (ho : Texts P o) : ∀ a ∈ readText objkey o, a.Holds (Call.Plain P) :=
  List.forall_mem_singleton.mpr ⟨⟨hkey, List.forall_mem_append.mpr
    ⟨fun _ hs => unpack_texts ho _ (Option.mem_toList.mp hs), fun _ hs => unpack_texts ho _ (Option.mem_toList.mp hs)⟩⟩,
    rfl⟩

theorem readGrid_holds (hkey : P objkey) (ho : Texts P o) : ∀ a ∈ readGrid objkey o, a.Holds (Call.Plain P) := by
  unfold readGrid
  dsimp only
  split
  · next rowkeys rowfieldtypes hk hf =>
    split
    · next keys fieldtypes hkeys hfieldtypes =>
      refine List.forall_mem_cons.mpr ⟨⟨⟨hkey, ?_⟩, rfl⟩, map_readRow_holds (fun l hl => ⟨hl, rfl⟩) (itemsOf_texts ho)⟩
      simp only [List.forall_mem_append, Option.mem_toList]
      exact ⟨⟨⟨unpack_texts ho, unpack_texts ho⟩, readTexts_texts (unpackValue_texts ho hk) hkeys⟩,
        readTexts_texts (unpackValue_texts ho hf) hfieldtypes⟩
    · exact List.forall_mem_singleton.mpr trivial
  · exact List.forall_mem_singleton.mpr trivial

theorem readMultigrid_holds (hkey : P objkey) (ho : Texts P o) :
    ∀ a ∈ readMultigrid objkey o, a.Holds (Call.Plain P) := by
  unfold readMultigrid
  dsimp only
  split
  · next rk rf ck cf cv hrk hrf hck hcf hcv =>
    split
    · next rowkeys rowfieldtypes colkeys colfieldtypes colvalues hrk' hrf' hck' hcf' hcv' =>
      refine List.forall_mem_cons.mpr ⟨⟨⟨hkey, ?_⟩, rfl⟩, ?_⟩
      · simp only [List.forall_mem_append, Option.mem_toList]
        refine ⟨⟨⟨⟨⟨⟨⟨⟨unpack_texts ho, unpack_texts ho⟩, unpack_texts ho⟩, unpack_texts ho⟩,
          readTexts_texts (unpackValue_texts ho hrk) hrk'⟩, readTexts_texts (unpackValue_texts ho hrf) hrf'⟩,
          readTexts_texts (unpackValue_texts ho hck) hck'⟩, readTexts_texts (unpackValue_texts ho hcf) hcf'⟩, ?_⟩
        refine List.forall_mem_flatten.mpr fun row hrow => ?_
        have hread := List.Forall₂.flip (R := fun row j => readTexts j = some row) (mapM_eq_some_iff.mp hcv')
        obtain ⟨i, hi, ht⟩ := exists_of_forall₂_of_mem hread hrow
        exact readTexts_texts ((unpackValue_texts ho hcv).items hi) ht
      · split
        · next rowvalues measurevalues hr hm =>
          exact readMeasures_holds (fun r m hr hm => ⟨List.forall_mem_append.mpr ⟨hr, hm⟩, rfl⟩) (by simp)
            (fun j hj => (ho.get? hr).items hj) fun j hj => (ho.get? hm).items hj
        · simp
    · exact List.forall_mem_singleton.mpr trivial
  · exact List.forall_mem_singleton.mpr trivial

theorem readGraph_holds (hkey : P objkey) (ho : Texts P o) (isDigraph : Bool) :
    ∀ a ∈ readGraph objkey isDigraph o, a.Holds (Call.Plain P) := by
  unfold readGraph
  dsimp only
  rcases readNodes_cases (Q := Call.Plain P)
    (.graph objkey isDigraph (o.unpack ["title", "description"] "title")
      (o.unpack ["title", "description"] "description"))
    (.graphNode objkey) [] (.graphLink objkey) (fun vs hvs => ⟨hvs, rfl⟩) (fun n m d hd => ⟨hd, rfl⟩) ho with
    h | ⟨keys, nodes, links, h, hkeys, hnodes, hlinks⟩
  · rw [h]
    exact List.forall_mem_singleton.mpr trivial
  · rw [h]
    refine List.forall_mem_cons.mpr ⟨⟨⟨hkey, ?_⟩, rfl⟩, List.forall_mem_append.mpr ⟨hnodes, hlinks⟩⟩
    simp only [List.forall_mem_append, Option.mem_toList]
    exact ⟨⟨unpack_texts ho, unpack_texts ho⟩, hkeys⟩

variable {as bs : List Action}

/-- The texts of the calls have property `P`, and if there are only calls, they set as many roots as they create
trees. -/
structure Rooting (P : List Char → Prop) (as : List Action) : Prop where
  texts : ∀ a ∈ as, a.Holds (Call.Texts P)
  balance : (∀ a ∈ as, ∃ c, a = .call c) → (as.map Action.balance).sum = 0

theorem rooting_of_plain (h : ∀ a ∈ as, a.Holds (Call.Plain P)) : Rooting P as := by
  refine ⟨fun a ha => ?_, fun _ => List.sum_eq_zero fun n hn => ?_⟩
  · have hplain := h a ha
    cases a with
    | call c => exact hplain.1
    | _ => trivial
  · obtain ⟨a, ha, rfl⟩ := List.mem_map.mp hn
    have hplain := h a ha
    cases a with
    | call c =>
      show (c.trees : Int) - c.roots = 0
      rw [hplain.2, Int.sub_self]
    | _ => rfl

theorem Rooting.append (h : Rooting P as) (h' : Rooting P bs) : Rooting P (as ++ bs) := by
  refine ⟨List.forall_mem_append.mpr ⟨h.texts, h'.texts⟩, fun hc => ?_⟩
  have hc := List.forall_mem_append.mp hc
  rw [List.map_append, List.sum_append, h.balance hc.1, h'.balance hc.2, Int.add_zero]

theorem rooting_flatMap {α : Type} {f : α → List Action} {l : List α} (h : ∀ a ∈ l, Rooting P (f a)) :
    Rooting P (l.flatMap f) := by
  induction l with
  | nil => exact ⟨by simp, fun _ => rfl⟩
  | cons a l ih =>
    rw [List.flatMap_cons]
    exact (h a List.mem_cons_self).append (ih fun b hb => h b (List.mem_cons_of_mem _ hb))

/-- Each tree is given its root, unless the reader stops. -/
theorem readTree_rooting (hkey : P objkey) (ho : Texts P o) : Rooting P (readTree objkey o) := by
  unfold readTree
  dsimp only
  rcases readNodes_cases (Q := Call.Plain P)
    (.tree objkey (o.unpack ["title", "description"] "title") (o.unpack ["title", "description"] "description"))
    (.treeNode objkey) [readRoot objkey o] (.treeLink objkey) (fun vs hvs => ⟨hvs, rfl⟩)
    (fun n m d hd => ⟨hd, rfl⟩) ho with
    h | ⟨keys, nodes, links, h, hkeys, hnodes, hlinks⟩
  · rw [h]
    exact ⟨List.forall_mem_singleton.mpr trivial, fun _ => rfl⟩
  · rw [h]
    have hroot : (readRoot objkey o).Holds (Call.Texts P) ∧
        ((∃ c, readRoot objkey o = .call c) → (readRoot objkey o).balance = -1) := by
      unfold readRoot
      split
      · exact ⟨trivial, fun _ => rfl⟩
      · exact ⟨trivial, fun ⟨c, hc⟩ => nomatch hc⟩
    refine ⟨List.forall_mem_cons.mpr ⟨⟨hkey, ?_⟩, List.forall_mem_append.mpr ⟨(rooting_of_plain hnodes).texts,
      List.forall_mem_cons.mpr ⟨hroot.1, (rooting_of_plain hlinks).texts⟩⟩⟩, fun hc => ?_⟩
    · simp only [List.forall_mem_append, Option.mem_toList]
      exact ⟨⟨unpack_texts ho, unpack_texts ho⟩, hkeys⟩
    · obtain ⟨-, hc⟩ := List.forall_mem_cons.mp hc
      obtain ⟨hcn, hc⟩ := List.forall_mem_append.mp hc
      obtain ⟨hcr, hcl⟩ := List.forall_mem_cons.mp hc
      rw [List.map_cons, List.map_append, List.sum_cons, List.sum_append, (rooting_of_plain hnodes).balance hcn]
      show _ + (0 + (List.map _ (readRoot objkey o :: links)).sum) = (0 : Int)
      rw [List.map_cons, List.sum_cons, hroot.2 hcr, (rooting_of_plain hlinks).balance hcl]
      rfl

theorem readObject_rooting {c : ObjClass} (hkey : P objkey) (ho : Texts P o) : Rooting P (readObject objkey c o) := by
  cases c with
  | text => exact rooting_of_plain (readText_holds hkey ho)
  | grid => exact rooting_of_plain (readGrid_holds hkey ho)
  | multigrid => exact rooting_of_plain (readMultigrid_holds hkey ho)
  | tree => exact readTree_rooting hkey ho
  | digraph => exact rooting_of_plain (readGraph_holds hkey ho true)
  | graph => exact rooting_of_plain (readGraph_holds hkey ho false)

theorem rooting_generic : Rooting P [.generic] := ⟨List.forall_mem_singleton.mpr trivial, fun _ => rfl⟩

theorem readEntry_rooting (ho : Texts P o) : Rooting P (readEntry o) := by
  unfold readEntry
  dsimp only
  split
  · next objkey objclass objcontent hkey hclass hcontent =>
    split
    · exact rooting_flatMap fun i hi =>
        readObject_rooting (unpack_texts ho _ hkey) ((unpackValue_texts ho hcontent).items hi)
    · exact rooting_generic
  · exact rooting_generic

theorem readSource_holds (hj : Texts P j) : ∀ a ∈ readSource j, a.Holds (Call.Plain P) := by
  unfold readSource
  split
  · simp
  · next source hs =>
    have ho := hj.get? hs
    refine List.forall_mem_cons.mpr ⟨⟨?_, rfl⟩, readKeys_holds (fun k v hk hv => ⟨?_, rfl⟩) ho⟩
    · simp only [Call.Texts, List.forall_mem_append, Option.mem_toList]
      exact ⟨⟨⟨⟨unpack_texts ho, unpack_texts ho⟩, unpack_texts ho⟩, unpack_texts ho⟩, unpack_texts ho⟩
    · simpa only [Call.Texts, List.forall_mem_append, Option.mem_toList] using ⟨hk, hv⟩

theorem readExtra_holds (hj : Texts P j) : ∀ a ∈ readExtra j, a.Holds (Call.Plain P) := by
  unfold readExtra
  split
  · simp
  · next extra he =>
    refine readKeys_holds (fun k v hk hv => ⟨?_, rfl⟩) (hj.get? he)
    simpa only [Call.Texts, List.forall_mem_append, Option.mem_toList] using ⟨hk, hv⟩

theorem readDocument_rooting (hj : Texts P j) : Rooting P (readDocument j) := by
  have hconsumers : ∀ a ∈ readConsumers none (itemsOf (j.get? "consumers")), a.Holds (Call.Plain P) :=
    readConsumers_holds (fun s hs => ⟨hs, rfl⟩) (by simp) (itemsOf_texts hj)
  exact (((rooting_of_plain (readSource_holds hj)).append (rooting_of_plain (readExtra_holds hj))).append
    (rooting_of_plain hconsumers)).append (rooting_flatMap fun o ho => readEntry_rooting (itemsOf_texts hj o ho))

end Read

section Accepted

variable {d : Document} {c : ObjClass} {o : c.Obj} {s : List Char}

theorem isText_decimal (n : Int) : isText (decimal n) = true := by
  refine isText_iff.mpr ⟨validUtf8_of_ascii fun c hc => ?_, not_mem_decimal n (by decide) (by decide)⟩
  rcases isDigit_or_of_mem_decimal hc with hd | rfl
  · exact Nat.le_trans (Char.isDigit_iff_toNat.mp hd).2 (by decide)
  · decide

/-- A grid with measures has as many types as keys. -/
def Counted : (c : ObjClass) → c.Obj → Prop
  | .multigrid, o =>
    (ObjMultigrid.rowkeys o).length = (ObjMultigrid.rowfieldtypes o).length ∧
      (ObjMultigrid.colkeys o).length = (ObjMultigrid.colfieldtypes o).length
  | _, _ => True

theorem complete_iff : Complete c o ↔ isUnrooted c o = false ∧ Counted c o := by
  cases c with
  | multigrid => exact (and_iff_right rfl).symm
  | tree => exact (Option.isNone_eq_false_iff.symm).trans (and_iff_left trivial).symm
  | _ => exact iff_of_true trivial ⟨rfl, trivial⟩

theorem rooted_of_unrooted (h : d.unrooted = 0) :
    ∀ r ∈ d.response, ∀ o ∈ r.objcontent, isUnrooted r.objclass o = false := by
  intro r hr o ho
  have hentry : r.unrooted = 0 := List.sum_eq_zero_iff_forall_eq_nat.mp h _ (List.mem_map_of_mem hr)
  exact Bool.eq_false_iff.mpr (List.countP_eq_zero.mp hentry o ho)

/-- What the reader accepts: a document with the invariant, nothing broken, a root for each tree and texts that can be
written. -/
theorem accepted [Jansson] (h : fromJsonString s = some (.success, d)) :
    d.Inv ∧ ¬ d.Broken ∧ d.unrooted = 0 ∧ ∀ t ∈ d.texts, isText t = true := by
  unfold fromJsonString at h
  split at h
  · next j hj =>
    have hread := readDocument_rooting (Jansson.sound_of_loads hj)
    have hcalls : ∀ a ∈ readDocument j, ∃ c, a = .call c := by
      refine execute_induction (Q := fun as _ => ∀ a ∈ as, ∃ c, a = .call c) (fun c as _ _ _ ih => ?_) (by simp) h
      exact List.forall_mem_cons.mpr ⟨⟨c, rfl⟩, ih⟩
    have hroots := execute_unrooted h
    rw [hread.balance hcalls] at hroots
    have hkeeps := execute_keeps (Q := fun d => d.Inv ∧ ¬ d.Broken ∧ ∀ t ∈ d.texts, isText t = true)
      (fun c d d' hc hd hcall => by
        have hstep := call_step (hread.texts (.call c) hc) hcall
        exact ⟨hstep.inv hd.1, fun hb => hd.2.1 (hstep.not_broken hb), hstep.texts (fun n => isText_decimal n) hd.2.2⟩)
      ⟨inv_empty, fun ⟨r, hr, _⟩ => absurd hr List.not_mem_nil, by simp [Document.texts]⟩ h
    exact ⟨hkeeps.1, hkeeps.2.1, Int.ofNat_inj.mp hroots, hkeeps.2.2⟩
  · cases h

/-- A document that the reader has accepted, from whatever text, can be written again if and only if its grids with
measures have as many types as keys, which no call compares; what is then written is read as the same document. -/
theorem rewritten_iff [Jansson] (h : fromJsonString s = some (.success, d)) :
    (∃ t, d.toJsonString = .ok t ∧ fromJsonString t = some (.success, d)) ↔
      ∀ r ∈ d.response, ∀ o ∈ r.objcontent, Counted r.objclass o := by
  obtain ⟨hi, hb, hroots, htexts⟩ := accepted h
  constructor
  · rintro ⟨t, ht, -⟩
    have hw := ((toJsonString_eq_ok hi).mp ht).1.1
    exact fun r hr o ho => (complete_iff.mp (((document_whole_iff hi).mp hw).2 r hr o ho)).2
  · intro hc
    have hw : d.Whole := (document_whole_iff hi).mpr ⟨hb, fun r hr o ho =>
      complete_iff.mpr ⟨rooted_of_unrooted hroots r hr o ho, hc r hr o ho⟩⟩
    have hv : ∀ t ∈ d.texts, validUtf8 t = true := fun t ht => (isText_iff.mp (htexts t ht)).1
    exact ⟨dumps d.json, (toJsonString_eq_ok hi).mpr ⟨⟨hw, hv⟩, rfl⟩, fromJsonString_dumps hi hw htexts⟩

/-- Two measures of a cube, one for each year. -/
def measures : List Call :=
  [.multigrid "measures".toList (some "Averages".toList) none ["cube".toList] ["string".toList] ["year".toList]
      ["int".toList] [["2001".toList], ["2002".toList]] (some "average".toList) (some "double".toList),
    .multigridRow "measures".toList ["c1".toList] ["1.5".toList, "2.5".toList]]

def measuresDocument : Document where
  responseKeyset := ["measures".toList]
  response := [{
    objclass := .multigrid
    objkey := "measures".toList
    objcontent := [({
      title := "Averages".toList
      description := none
      rowkeys := ["cube".toList]
      rowfieldtypes := ["string".toList]
      rowvalues := [["c1".toList]]
      rowvaluesNum2 := 1
      colkeys := ["year".toList]
      colfieldtypes := ["int".toList]
      colvalues := [["2001".toList], ["2002".toList]]
      colvaluesNum2 := 1
      measurename := some "average".toList
      measuretype := some "double".toList
      measurevalues := [["1.5".toList, "2.5".toList]]
      measurevaluesNum2 := 2 } : ObjMultigrid)] }]

theorem calls_measures : ({} : Document).calls measures = some measuresDocument := rfl

theorem rewritten_iff_measures :
    ∃ t, measuresDocument.toJsonString = .ok t ∧ fromJsonString t = some (.success, measuresDocument) := by
  have hi := inv_calls inv_empty calls_measures
  have hw : measuresDocument.Whole := ((toJsonString_eq_ok hi).mp rfl).1.1
  refine (rewritten_iff (fromJsonString_dumps hi hw (by decide))).mpr fun r hr o ho => ?_
  cases List.mem_singleton.mp hr
  cases List.mem_singleton.mp ho
  exact ⟨rfl, rfl⟩

end Accepted
end OphidiaWorkflow.Response
