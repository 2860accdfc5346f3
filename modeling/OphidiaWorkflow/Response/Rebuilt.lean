import OphidiaWorkflow.Response.Reread

/-!
What a document that has been written is read back as.
-/
namespace OphidiaWorkflow.Response
open Json Lib

section Execute

variable {as bs : List Action} {d d' : Document} {call : Call}

theorem execute_append (h : execute as d = some (.success, d')) : execute (as ++ bs) d = execute bs d' := by
  induction as generalizing d with
  | nil =>
    cases h
    rfl
  | cons a as ih =>
    cases a with
    | call c =>
      obtain ⟨⟨code, d₁⟩, hcall, h⟩ := Option.bind_eq_some_iff.mp h
      dsimp only at h
      split at h
      · next hc =>
        rw [List.cons_append, execute, hcall]
        exact (if_pos hc).trans (ih h)
      · cases h
    | memory => cases h
    | generic => cases h
    | crash => cases h

theorem execute_call (h : d.call call = some (.success, d')) : execute (.call call :: as) d = execute as d' := by
  rw [execute, h]
  rfl

end Execute

/-- The document while the reader adds the objects of its last entry. -/
def adding (d : Document) (c : ObjClass) (objkey : List Char) : List c.Obj → Document
  | [] => d
  | o :: l => { d with
    response := d.response ++ [{ objclass := c, objkey, objcontent := o :: l }]
    responseKeyset := d.responseKeyset ++ [objkey] }

section Adding

variable {d : Document} {c : ObjClass} {objkey : List Char} {l : List c.Obj} {o o' : c.Obj} {code missing : Code}

theorem adding_append (d : Document) (l : List c.Obj) (o : c.Obj) :
    adding d c objkey (l ++ [o]) = { d with
      response := d.response ++ [{ objclass := c, objkey, objcontent := l ++ [o] }]
      responseKeyset := d.responseKeyset ++ [objkey] } := by
  cases l <;> rfl

theorem onLast_append {α : Type} (f : α → Option (Code × α)) (l : List α) (a : α) :
    onLast f (l ++ [a]) = (f a).map (Prod.map id fun a => l ++ [a]) := by
  induction l with
  | nil => rfl
  | cons b l ih =>
    have hcons : onLast f (b :: (l ++ [a])) = (onLast f (l ++ [a])).map (Prod.map id (b :: ·)) := by
      cases l <;> rfl
    rw [List.cons_append, hcons, ih, Option.map_map]
    rfl

theorem onEntry_append {f : Entry → Option (Code × Entry)} {rs : List Entry} {r : Entry}
    (h : objkey ∉ rs.map Entry.objkey) (hr : r.objkey = objkey) :
    onEntry objkey missing f (rs ++ [r]) = (f r).map (Prod.map id fun r => rs ++ [r]) := by
  induction rs with
  | nil =>
    rw [List.nil_append, onEntry, if_pos hr]
    rfl
  | cons r₁ rs ih =>
    rw [List.map_cons, List.mem_cons, not_or] at h
    rw [List.cons_append, onEntry, if_neg (Ne.symm h.1), ih h.2, Option.map_map]
    rfl

theorem onObject_append (f : c.Obj → Option (Code × c.Obj)) (l : List c.Obj) (o : c.Obj) :
    Entry.onObject c f { objclass := c, objkey, objcontent := l ++ [o] } =
      (f o).map (Prod.map id fun o => { objclass := c, objkey, objcontent := l ++ [o] }) := by
  unfold Entry.onObject
  dsimp only
  rw [dif_pos rfl, onLast_append, Option.map_map]
  rfl

theorem addObject_adding (hk : objkey ∉ d.objkeys) (hr : objkey ∉ d.responseKeyset) :
    (adding d c objkey l).addObject c objkey (some (.success, o)) =
      some (.success, adding d c objkey (l ++ [o])) := by
  cases l with
  | nil =>
    unfold Document.addObject Document.addResponseKey
    rw [if_neg (show objkey ∉ (adding d c objkey []).objkeys from hk),
      if_neg (show objkey ∉ (adding d c objkey []).responseKeyset from hr)]
    rfl
  | cons o₁ l =>
    have hmem : objkey ∈ (adding d c objkey (o₁ :: l)).objkeys := by
      simp [Document.objkeys, adding]
    have hpush : Entry.push c (some (.success, o)) { objclass := c, objkey, objcontent := o₁ :: l } =
        some (.success, { objclass := c, objkey, objcontent := o₁ :: l ++ [o] }) := dif_pos rfl
    unfold Document.addObject Document.onResponse
    rw [if_pos hmem]
    show (onEntry objkey _ _ (d.response ++ [_])).map _ = _
    rw [onEntry_append hk rfl, hpush]
    rfl

theorem onObject_adding {f : c.Obj → Option (Code × c.Obj)} (hk : objkey ∉ d.objkeys) (h : f o = some (code, o')) :
    (adding d c objkey (l ++ [o])).onResponse objkey missing (Entry.onObject c f) =
      some (code, adding d c objkey (l ++ [o'])) := by
  rw [adding_append, adding_append, Document.onResponse]
  show (onEntry objkey _ _ (d.response ++ [_])).map _ = _
  rw [onEntry_append hk rfl, onObject_append, h]
  rfl

theorem onDigraph_adding {f : Bool → ObjGraph → Option (Code × ObjGraph)} {l : List ObjGraph} {g g' : ObjGraph}
    (hk : objkey ∉ d.objkeys) (h : f true g = some (code, g')) :
    (adding d .digraph objkey (l ++ [g])).onResponse objkey missing (Entry.onGraph f) =
      some (code, adding d .digraph objkey (l ++ [g'])) := by
  rw [adding_append, adding_append, Document.onResponse]
  show (onEntry objkey _ _ (d.response ++ [_])).map _ = _
  rw [onEntry_append hk rfl, Entry.onGraph, if_pos rfl, onObject_append, h]
  rfl

theorem onGraph_adding {f : Bool → ObjGraph → Option (Code × ObjGraph)} {l : List ObjGraph} {g g' : ObjGraph}
    (hk : objkey ∉ d.objkeys) (h : f false g = some (code, g')) :
    (adding d .graph objkey (l ++ [g])).onResponse objkey missing (Entry.onGraph f) =
      some (code, adding d .graph objkey (l ++ [g'])) := by
  rw [adding_append, adding_append, Document.onResponse]
  show (onEntry objkey _ _ (d.response ++ [_])).map _ = _
  rw [onEntry_append hk rfl, Entry.onGraph, if_neg (by simp), onObject_append, h]
  rfl

/-- A call for each element, each of which changes the object that was added last. -/
theorem execute_map {α β : Type} (put : β → c.Obj) (next : β → α → β) (Ok : β → Prop) {as : List α} {call : α → Call}
    (h : ∀ s, Ok s → ∀ a ∈ as, (adding d c objkey (l ++ [put s])).call (call a) =
      some (.success, adding d c objkey (l ++ [put (next s a)])) ∧ Ok (next s a)) {s : β} (hs : Ok s) :
    execute (as.map fun a => .call (call a)) (adding d c objkey (l ++ [put s])) =
      some (.success, adding d c objkey (l ++ [put (as.foldl next s)])) := by
  induction as generalizing s with
  | nil => rfl
  | cons a as ih =>
    obtain ⟨hcall, hok⟩ := h s hs a List.mem_cons_self
    rw [List.map_cons, execute_call hcall, List.foldl_cons]
    exact ih (fun s hs b hb => h s hs b (List.mem_cons_of_mem _ hb)) hok

end Adding

section Links

variable {d : Document} {c : ObjClass} {objkey : List Char} {l : List c.Obj} {directed : Bool} {g : ObjGraph}

theorem getD_append_cons (done rest : List (List Link)) (links : List Link) (i : Nat) :
    (done ++ links :: rest).getD i [] =
      if i < done.length then done.getD i [] else if i = done.length then links else
        rest.getD (i - done.length - 1) [] := by
  rw [List.getD_eq_getElem?_getD, List.getD_eq_getElem?_getD, List.getD_eq_getElem?_getD, List.getElem?_append]
  split
  · rfl
  · next hi =>
    split
    · next he =>
      rw [he, Nat.sub_self]
      rfl
    · next he =>
      obtain ⟨k, rfl⟩ : ∃ k, i = done.length + k + 1 := ⟨i - done.length - 1, by omega⟩
      rw [show done.length + k + 1 - done.length = k + 1 by omega, List.getElem?_cons_succ, Nat.add_sub_cancel]

theorem modify_append_cons {α : Type} (done rest : List α) (a : α) (f : α → α) :
    (done ++ a :: rest).modify done.length f = done ++ f a :: rest := by
  induction done with
  | nil => rfl
  | cons b done ih =>
    rw [List.cons_append, List.length_cons, List.modify_succ_cons, ih]
    rfl

/-- While the links are added again, each node has only links that it has in the end. -/
theorem addLink_again (hi : g.Inv directed) {done rest : List (List Link)} {part remaining : List Link} {l : Link}
    {n : Nat} (hn : IsNode l.node n) (hg : g.nodelinks = done ++ (part ++ l :: remaining) :: rest) :
    ({ g with nodelinks := done ++ part :: rest.map fun _ => [] } : ObjGraph).addLink directed done.length n
        l.description =
      (.success, { g with nodelinks := done ++ (part ++ [l]) :: rest.map fun _ => [] }) := by
  have hsub (i : Nat) : ∀ x ∈ ({ g with nodelinks := done ++ part :: rest.map fun _ => [] } : ObjGraph).linksOf i,
      x ∈ g.linksOf i := by
    intro x hx
    unfold ObjGraph.linksOf at hx ⊢
    rw [hg, getD_append_cons]
    rw [getD_append_cons] at hx
    split at hx
    · next hlt => rwa [if_pos hlt]
    · next hlt =>
      rw [if_neg hlt]
      split at hx
      · next he =>
        rw [if_pos he]
        exact List.mem_append_left _ hx
      · rw [List.getD_eq_getElem?_getD, List.getElem?_map] at hx
        cases hrest : rest[i - done.length - 1]? with
        | none =>
          rw [hrest] at hx
          cases hx
        | some links =>
          rw [hrest] at hx
          cases hx
  have hto (i m : Nat) (h : linksTo (g.linksOf i) m = false) :
      linksTo (({ g with nodelinks := done ++ part :: rest.map fun _ => [] } : ObjGraph).linksOf i) m = false := by
    refine List.any_eq_false.mpr fun x hx => ?_
    exact List.any_eq_false.mp h x (hsub i x hx)
  have hsource : g.linksOf done.length = part ++ l :: remaining := by
    unfold ObjGraph.linksOf
    rw [hg, getD_append_cons, if_neg (Nat.lt_irrefl _), if_pos rfl]
  have hmem : l ∈ g.linksOf done.length := by
    rw [hsource]
    exact List.mem_append_right _ List.mem_cons_self
  have hlink : linksTo (g.linksOf done.length) n = true :=
    List.any_eq_true.mpr ⟨l, hmem, decide_eq_true hn.1⟩
  obtain ⟨-, n', hlen, hne, hn'⟩ := hi.links _ _ hmem
  have hnn : n' = n := Int.ofNat_inj.mp (decimal_injective (hn'.1.symm.trans hn.1))
  subst hnn
  have hlength : (done ++ part :: rest.map fun _ => ([] : List Link)).length = g.nodelinks.length := by
    rw [hg]
    simp
  have hnodes : done.length ≠ n' ∧ done.length < (done ++ part :: rest.map fun _ => ([] : List Link)).length ∧
      n' < (done ++ part :: rest.map fun _ => ([] : List Link)).length :=
    ⟨hne.symm, by simp, hlength ▸ hlen⟩
  have hback : (!directed && linksTo (({ g with nodelinks := done ++ part :: rest.map fun _ => [] } :
      ObjGraph).linksOf n') done.length) = false := by
    cases hd : directed with
    | true => rfl
    | false => exact hto n' done.length (hi.oneway hd _ _ hlink)
  have hnew : linksTo (({ g with nodelinks := done ++ part :: rest.map fun _ => [] } :
      ObjGraph).linksOf done.length) n' = false := by
    have hpart : ({ g with nodelinks := done ++ part :: rest.map fun _ => [] } : ObjGraph).linksOf done.length =
        part := by
      unfold ObjGraph.linksOf
      rw [getD_append_cons, if_neg (Nat.lt_irrefl _), if_pos rfl]
    rw [hpart]
    refine List.any_eq_false.mpr fun x hx => ?_
    have honce := hi.once done.length
    rw [hsource, List.map_append, List.map_cons] at honce
    have hdisj := (List.nodup_append.mp honce).2.2 x.node (List.mem_map_of_mem hx) l.node List.mem_cons_self
    simpa [hn.1] using hdisj
  unfold ObjGraph.addLink
  rw [if_pos hnodes, hback, if_neg (by simp), hnew, if_neg (by simp)]
  have hmodify : (done ++ part :: rest.map fun _ => ([] : List Link)).modify done.length
      (· ++ [{ node := decimal n', description := l.description }]) =
      done ++ (part ++ [l]) :: rest.map fun _ => [] := by
    rw [modify_append_cons, ← hn.1]
  rw [hmodify]

variable (link : Int → Int → Option (List Char) → Call) (put : ObjGraph → c.Obj)

/-- The links of one node are added again in their order. -/
theorem execute_links (hi : g.Inv directed)
    (hlink : ∀ (g g' : ObjGraph) (source target : Nat) (description : Option (List Char)), toInt32 source = source →
      toInt32 target = target → g.addLink directed source target description = (.success, g') →
      (adding d c objkey (l ++ [put g])).call (link source target description) =
        some (.success, adding d c objkey (l ++ [put g']))) {done rest : List (List Link)} (part : List Link)
    {remaining : List Link} (hg : g.nodelinks = done ++ (part ++ remaining) :: rest) :
    execute (remaining.map fun l => .call (link done.length (readInt l.node) l.description))
        (adding d c objkey (l ++ [put { g with nodelinks := done ++ part :: rest.map fun _ => [] }])) =
      some (.success, adding d c objkey
        (l ++ [put { g with nodelinks := done ++ (part ++ remaining) :: rest.map fun _ => [] }])) := by
  induction remaining generalizing part with
  | nil =>
    rw [List.append_nil]
    rfl
  | cons x remaining ih =>
    have hmem : x ∈ g.linksOf done.length := by
      unfold ObjGraph.linksOf
      rw [hg, getD_append_cons, if_neg (Nat.lt_irrefl _), if_pos rfl]
      exact List.mem_append_right _ List.mem_cons_self
    obtain ⟨hsource, n, -, -, hn⟩ := hi.links _ _ hmem
    have hread : readInt x.node = n := by rw [hn.1, readInt_decimal hn.2]
    rw [List.map_cons, hread, execute_call (hlink _ _ _ _ _ hsource hn.2 (addLink_again hi hn hg)),
      ih (part ++ [x]) (by rw [hg, List.append_assoc]; rfl), List.append_assoc]
    rfl

/-- All the links are added again, node by node. -/
theorem execute_linkCalls (hi : g.Inv directed)
    (hlink : ∀ (g g' : ObjGraph) (source target : Nat) (description : Option (List Char)), toInt32 source = source →
      toInt32 target = target → g.addLink directed source target description = (.success, g') →
      (adding d c objkey (l ++ [put g])).call (link source target description) =
        some (.success, adding d c objkey (l ++ [put g']))) (done : List (List Link)) {rest : List (List Link)}
    (hg : g.nodelinks = done ++ rest) :
    execute (linkCalls link done.length rest)
        (adding d c objkey (l ++ [put { g with nodelinks := done ++ rest.map fun _ => [] }])) =
      some (.success, adding d c objkey (l ++ [put g])) := by
  induction rest generalizing done with
  | nil =>
    rw [List.map_nil, ← hg]
    rfl
  | cons links rest ih =>
    rw [linkCalls, List.map_cons,
      execute_append (execute_links link put hi hlink [] (by rw [hg, List.nil_append]))]
    have hlen : done.length + 1 = (done ++ [links]).length := by simp
    have hput : done ++ ([] ++ links) :: rest.map (fun _ => ([] : List Link)) =
        (done ++ [links]) ++ rest.map fun _ => [] := by simp
    rw [hlen, hput]
    exact ih (done ++ [links]) (by rw [hg]; simp)

end Links

section Objects

variable {d : Document} {objkey : List Char}

theorem newGrid_again {o : ObjGrid} (hi : o.Inv) (hw : o.Whole) :
    newGrid o.title o.description o.keys o.fieldtypes = (.success, { o with values := [] }) := by
  unfold newGrid
  rw [storeKeys_of_nodup hi.nodup, storeTypes_of_correct hi.types]
  simp [hw.1, hw.2]

theorem foldl_rows (rows values : List (List (List Char))) (o : ObjGrid) :
    rows.foldl (fun (g : ObjGrid) row => { g with values := g.values ++ [row] }) { o with values } =
      { o with values := values ++ rows } := by
  induction rows generalizing values with
  | nil => rw [List.foldl_nil, List.append_nil]
  | cons row rows ih => rw [List.foldl_cons, ih, List.append_assoc, List.singleton_append]

/-- A grid is read back as it was. -/
theorem execute_grid (hk : objkey ∉ d.objkeys) (hr : objkey ∉ d.responseKeyset) {o : ObjGrid} (hi : o.Inv)
    (hw : o.Whole) (l : List ObjGrid) :
    execute (objectActions objkey .grid o) (adding d .grid objkey l) =
      some (.success, adding d .grid objkey (l ++ [o])) := by
  have hne : ¬ (o.keys = [] ∨ o.fieldtypes = []) := by
    rintro (h | h)
    · exact hi.keys_ne_nil h
    · exact hi.keys_ne_nil (List.eq_nil_of_length_eq_zero (by rw [hw.1, h]; rfl))
  have hcreate : (adding d .grid objkey l).call (.grid objkey (some o.title) o.description o.keys o.fieldtypes) =
      some (.success, adding d .grid objkey (l ++ [{ o with values := [] }])) := by
    show (if _ then _ else Document.addObject _ _ _ _) = _
    rw [if_neg hne, newGrid_again hi hw]
    exact addObject_adding hk hr
  have hrow (g : ObjGrid) (hg : g.valuesNum2 = o.valuesNum2) (row : List (List Char)) (hrow : row ∈ o.values) :
      (adding d .grid objkey (l ++ [g])).call (.gridRow objkey row) =
        some (.success, adding d .grid objkey (l ++ [{ g with values := g.values ++ [row] }])) := by
    have hlen : g.valuesNum2 = row.length := hg.trans (hi.rows row hrow).symm
    refine onObject_adding (c := .grid) hk ?_
    rw [ObjGrid.addRow, hlen, if_neg (Nat.lt_irrefl _), List.take_length]
  show execute (.call _ :: _) _ = _
  rw [execute_call hcreate]
  have hrun := execute_map (c := .grid) id (fun (g : ObjGrid) row => { g with values := g.values ++ [row] })
    (fun g => g.valuesNum2 = o.valuesNum2) (fun g hg row hm => ⟨hrow g hg row hm, hg⟩)
    (s := { o with values := [] }) rfl
  rw [foldl_rows, List.nil_append] at hrun
  exact hrun

theorem execute_text (hk : objkey ∉ d.objkeys) (hr : objkey ∉ d.responseKeyset) (o : ObjText) (l : List ObjText) :
    execute (objectActions objkey .text o) (adding d .text objkey l) =
      some (.success, adding d .text objkey (l ++ [o])) := by
  have hcall : (adding d .text objkey l).call (.text objkey (some o.title) o.message) =
      some (.success, adding d .text objkey (l ++ [o])) := addObject_adding hk hr
  exact execute_call hcall

theorem newMultigrid_again {o : ObjMultigrid} (hi : o.Inv) (hw : o.Whole) {name type : List Char}
    (hname : o.measurename = some name) (htype : o.measuretype = some type) :
    newMultigrid o.title o.description o.rowkeys o.rowfieldtypes o.colkeys o.colfieldtypes o.colvalues name type =
      some (.success, { o with rowvalues := [], measurevalues := [] }) := by
  have hcolumns : ∀ row ∈ o.colvalues, row.length = o.colkeys.length := fun row hrow =>
    (hi.colrows row hrow).trans hw.colvalues
  have hlong : ¬ (o.colvalues.any fun values => values.length < o.colkeys.length) = true := by
    intro h
    obtain ⟨row, hrow, hlt⟩ := List.any_eq_true.mp h
    exact absurd (of_decide_eq_true hlt) (by rw [hcolumns row hrow]; exact Nat.lt_irrefl _)
  have htake : (o.colvalues.map fun values => values.take o.colkeys.length) = o.colvalues :=
    (List.map_congr_left fun row hrow => by rw [← hcolumns row hrow, List.take_length]; rfl).trans
      (List.map_id o.colvalues)
  unfold newMultigrid
  rw [storeKeys_of_nodup hi.rowkeys_nodup, storeTypes_of_correct hi.rowtypes, storeKeys_of_nodup hi.colkeys_nodup,
    storeTypes_of_correct hi.coltypes]
  dsimp only
  rw [if_neg hlong, htake]
  simp [hi.measuretype type htype, ← hname, ← htype, ← hw.measures, ← hw.rowvalues, ← hw.colvalues]

theorem foldl_measures (rows measures rowvalues measurevalues : List (List (List Char))) (o : ObjMultigrid)
    (h : measures.length = rows.length) :
    (rows.zip measures).foldl (fun (g : ObjMultigrid) row =>
      { g with measurevalues := g.measurevalues ++ [row.2], rowvalues := g.rowvalues ++ [row.1] })
      { o with rowvalues, measurevalues } =
      { o with rowvalues := rowvalues ++ rows, measurevalues := measurevalues ++ measures } := by
  induction rows generalizing measures rowvalues measurevalues with
  | nil =>
    cases List.eq_nil_of_length_eq_zero h
    rw [List.zip_nil_left, List.foldl_nil, List.append_nil, List.append_nil]
  | cons row rows ih =>
    cases measures with
    | nil => cases h
    | cons m measures =>
      rw [List.zip_cons_cons, List.foldl_cons, ih _ _ _ (Nat.succ.inj h), List.append_assoc, List.append_assoc,
        List.singleton_append, List.singleton_append]

/-- A grid with measures is read back as it was. -/
theorem execute_multigrid (hk : objkey ∉ d.objkeys) (hr : objkey ∉ d.responseKeyset) {o : ObjMultigrid} (hi : o.Inv)
    (hw : o.Whole) (l : List ObjMultigrid) :
    execute (objectActions objkey .multigrid o) (adding d .multigrid objkey l) =
      some (.success, adding d .multigrid objkey (l ++ [o])) := by
  obtain ⟨name, hname⟩ := Option.isSome_iff_exists.mp hw.measurename
  obtain ⟨type, htype⟩ := Option.isSome_iff_exists.mp hw.measuretype
  have hne : ¬ (o.rowkeys = [] ∨ o.rowfieldtypes = [] ∨ o.colkeys = [] ∨ o.colfieldtypes = [] ∨ o.colvalues = []) := by
    have hroom : o.rowvaluesNum2 ≠ 0 := fun h0 =>
      hi.rowkeys_ne_nil (List.eq_nil_of_length_eq_zero (hw.rowvalues ▸ h0))
    obtain ⟨-, -, -, -, -, hrf, hck, hcf, hcv⟩ := hi.complete hroom
    simp [hi.rowkeys_ne_nil, hrf, hck, hcf, hcv]
  have hcreate : (adding d .multigrid objkey l).call (.multigrid objkey (some o.title) o.description o.rowkeys
      o.rowfieldtypes o.colkeys o.colfieldtypes o.colvalues o.measurename o.measuretype) =
      some (.success, adding d .multigrid objkey (l ++ [{ o with rowvalues := [], measurevalues := [] }])) := by
    conv_lhs => rw [hname, htype]
    show (if _ then _ else Document.addObject _ _ _ _) = _
    rw [if_neg hne, newMultigrid_again hi hw hname htype]
    exact addObject_adding hk hr
  have hrow (g : ObjMultigrid) (hg : g.rowvaluesNum2 = o.rowvaluesNum2 ∧ g.measurevaluesNum2 = o.measurevaluesNum2)
      (row : List (List Char) × List (List Char)) (hrow : row ∈ o.rowvalues.zip o.measurevalues) :
      (adding d .multigrid objkey (l ++ [g])).call (.multigridRow objkey row.1 row.2) =
        some (.success, adding d .multigrid objkey (l ++ [{ g with
          measurevalues := g.measurevalues ++ [row.2], rowvalues := g.rowvalues ++ [row.1] }])) := by
    have hmem := List.of_mem_zip hrow
    have hlen : g.rowvaluesNum2 = row.1.length := hg.1.trans (hi.rows row.1 hmem.1).symm
    have hmlen : g.measurevaluesNum2 = row.2.length := hg.2.trans (hi.measurerows row.2 hmem.2).symm
    refine onObject_adding (c := .multigrid) hk ?_
    rw [ObjMultigrid.addRow, hlen, hmlen, if_neg (by simp), List.take_length, List.take_length]
  show execute (.call _ :: _) _ = _
  rw [execute_call hcreate]
  have hrun := execute_map (c := .multigrid) id (fun (g : ObjMultigrid) row =>
    { g with measurevalues := g.measurevalues ++ [row.2], rowvalues := g.rowvalues ++ [row.1] })
    (fun g => g.rowvaluesNum2 = o.rowvaluesNum2 ∧ g.measurevaluesNum2 = o.measurevaluesNum2)
    (fun g hg row hm => ⟨hrow g hg row hm, hg⟩) (s := { o with rowvalues := [], measurevalues := [] }) ⟨rfl, rfl⟩
  rw [foldl_measures _ _ _ _ _ hw.rows, List.nil_append, List.nil_append] at hrun
  exact hrun

section Graphs

variable {c : ObjClass} {l : List c.Obj} {directed : Bool} {g : ObjGraph}

theorem newGraph_again (hi : g.Inv directed) (hw : g.Whole) :
    newGraph g.title g.description (keysAgain g) = (.success, { g with nodevalues := [], nodelinks := [] }) := by
  unfold keysAgain
  by_cases hk : g.nodekeys = []
  · have hn : g.nodevaluesNum2 = 0 := hi.num2.elim id fun h => by rw [h, hk]; rfl
    rw [if_pos hk, newGraph, ← hk, ← hn]
  · rw [if_neg hk, newGraph, storeKeys_of_nodup hi.nodup, ← hw.1 hk]
    rfl

/-- The graph with one node more. -/
def withNode (g : ObjGraph) : Option (List (List Char)) → ObjGraph
  | some values => { g with nodevalues := g.nodevalues ++ [values], nodelinks := g.nodelinks ++ [[]] }
  | none => { g with nodelinks := g.nodelinks ++ [[]] }

theorem foldl_withNode (values : List (List (List Char))) (g : ObjGraph) :
    (values.map some).foldl withNode g =
      { g with nodevalues := g.nodevalues ++ values, nodelinks := g.nodelinks ++ values.map fun _ => [] } := by
  induction values generalizing g with
  | nil => rw [List.map_nil, List.foldl_nil, List.append_nil, List.map_nil, List.append_nil]
  | cons v values ih =>
    rw [List.map_cons, List.foldl_cons, ih, withNode, List.map_cons]
    simp

theorem foldl_withNode_none (links : List (List Link)) (g : ObjGraph) :
    (links.map fun _ => none).foldl withNode g = { g with nodelinks := g.nodelinks ++ links.map fun _ => [] } := by
  induction links generalizing g with
  | nil => rw [List.map_nil, List.foldl_nil, List.map_nil, List.append_nil]
  | cons v links ih =>
    rw [List.map_cons, List.foldl_cons, ih, withNode, List.map_cons]
    simp

/-- The nodes of a graph are added again, all without links. -/
theorem execute_nodesAgain (node : Option (List (List Char)) → Call) (put : ObjGraph → c.Obj) (hi : g.Inv directed)
    (hw : g.Whole)
    (hnode : ∀ (g g' : ObjGraph) (values : Option (List (List Char))), g.addNode values = some (.success, g') →
      (adding d c objkey (l ++ [put g])).call (node values) = some (.success, adding d c objkey (l ++ [put g']))) :
    execute ((nodesAgain g).map fun values => .call (node values))
        (adding d c objkey (l ++ [put { g with nodevalues := [], nodelinks := [] }])) =
      some (.success, adding d c objkey (l ++ [put { g with nodelinks := g.nodelinks.map fun _ => [] }])) := by
  have hstep (g' : ObjGraph) (hg : g'.nodevaluesNum2 = g.nodevaluesNum2) (values : Option (List (List Char)))
      (hv : values ∈ nodesAgain g) : g'.addNode values = some (.success, withNode g' values) := by
    unfold nodesAgain at hv
    split at hv
    · next hk =>
      have hn : g'.nodevaluesNum2 = 0 := hg.trans (hi.num2.elim id fun h => by rw [h, hk]; rfl)
      obtain ⟨links, -, rfl⟩ := List.mem_map.mp hv
      rw [ObjGraph.addNode, if_neg (not_not.mpr hn)]
      rfl
    · next hk =>
      obtain ⟨row, hrow, rfl⟩ := List.mem_map.mp hv
      have hlen : row.length = g'.nodevaluesNum2 := (hi.rows row hrow).trans hg.symm
      have hn : g'.nodevaluesNum2 ≠ 0 := fun h0 =>
        hk (List.eq_nil_of_length_eq_zero ((hw.1 hk).symm.trans (hg.symm.trans h0)))
      rw [ObjGraph.addNode, if_neg hn, if_neg (Nat.not_lt.mpr hlen.ge), List.take_of_length_le hlen.le]
      rfl
  have hroom (g' : ObjGraph) (values : Option (List (List Char))) :
      (withNode g' values).nodevaluesNum2 = g'.nodevaluesNum2 := by
    cases values <;> rfl
  have hrun := execute_map put withNode (fun g' => g'.nodevaluesNum2 = g.nodevaluesNum2)
    (fun g' hg values hv => ⟨hnode g' _ values (hstep g' hg values hv), (hroom g' values).trans hg⟩)
    (s := { g with nodevalues := [], nodelinks := [] }) rfl
  have hfold : (nodesAgain g).foldl withNode { g with nodevalues := [], nodelinks := [] } =
      { g with nodelinks := g.nodelinks.map fun _ => [] } := by
    unfold nodesAgain
    split
    · next hk =>
      have hn : g.nodevaluesNum2 = 0 := hi.num2.elim id fun h => by rw [h, hk]; rfl
      have hv : g.nodevalues = [] := List.eq_nil_of_length_eq_zero (by rw [hi.nodes, if_pos hn])
      rw [foldl_withNode_none, ← hv, List.nil_append]
    · next hk =>
      have hn : g.nodevaluesNum2 ≠ 0 := fun h0 => hk (List.eq_nil_of_length_eq_zero ((hw.1 hk).symm.trans h0))
      have hlen : g.nodevalues.length = g.nodelinks.length := by rw [hi.nodes, if_neg hn]
      have hempty : (g.nodevalues.map fun _ => ([] : List Link)) = g.nodelinks.map fun _ => [] := by
        rw [List.map_const', List.map_const', hlen]
      rw [foldl_withNode, List.nil_append, List.nil_append, hempty]
  rw [hfold] at hrun
  exact hrun

end Graphs

theorem int32_natCast {n : Nat} (h : toInt32 n = n) : ¬ toInt32 n < 0 ∧ (toInt32 n).toNat = n := by
  rw [h]
  exact ⟨Int.not_lt.mpr (Int.natCast_nonneg n), Int.toNat_natCast n⟩

theorem graphLink_call {d : Document} {l : List ObjGraph} (hk : objkey ∉ d.objkeys) {g g' : ObjGraph}
    {source target : Nat} {description : Option (List Char)} (hs : toInt32 source = source)
    (ht : toInt32 target = target) :
    (g.addLink true source target description = (.success, g') →
      (adding d .digraph objkey (l ++ [g])).call (.graphLink objkey source target description) =
        some (.success, adding d .digraph objkey (l ++ [g']))) ∧
    (g.addLink false source target description = (.success, g') →
      (adding d .graph objkey (l ++ [g])).call (.graphLink objkey source target description) =
        some (.success, adding d .graph objkey (l ++ [g']))) := by
  obtain ⟨hsn, hs⟩ := int32_natCast hs
  obtain ⟨htn, ht⟩ := int32_natCast ht
  have hne (c : ObjClass) (o : c.Obj) (l : List c.Obj) : (adding d c objkey (l ++ [o])).response ≠ [] := by
    rw [adding_append]
    exact List.append_ne_nil_of_right_ne_nil _ (List.cons_ne_nil _ _)
  constructor
  · intro h
    rw [Document.call, Document.addGraphLink,
      if_neg (by simp only [hsn, htn, hne .digraph g l, or_self, not_false_eq_true]), hs, ht]
    exact onDigraph_adding hk (congrArg some h)
  · intro h
    rw [Document.call, Document.addGraphLink,
      if_neg (by simp only [hsn, htn, hne .graph g l, or_self, not_false_eq_true]), hs, ht]
    exact onGraph_adding hk (congrArg some h)

theorem execute_digraph (hk : objkey ∉ d.objkeys) (hr : objkey ∉ d.responseKeyset) {g : ObjGraph} (hi : g.Inv true)
    (hw : g.Whole) (l : List ObjGraph) :
    execute (objectActions objkey .digraph g) (adding d .digraph objkey l) =
      some (.success, adding d .digraph objkey (l ++ [g])) := by
  have hcreate : (adding d .digraph objkey l).call (.graph objkey true (some g.title) g.description (keysAgain g)) =
      some (.success, adding d .digraph objkey (l ++ [{ g with nodevalues := [], nodelinks := [] }])) := by
    show Document.addObject _ _ _ _ = _
    rw [newGraph_again hi hw]
    exact addObject_adding hk hr
  show execute ((.call _ :: List.map _ _) ++ linkCalls _ _ _) _ = _
  rw [execute_append ((execute_call hcreate).trans (execute_nodesAgain (c := .digraph) (.graphNode objkey) id hi
    hw fun g g' values h => onDigraph_adding hk h))]
  exact execute_linkCalls (c := .digraph) (.graphLink objkey) id hi
    (fun g g' source target description hs ht h => (graphLink_call hk hs ht).1 h) [] (List.nil_append _).symm

theorem execute_graph (hk : objkey ∉ d.objkeys) (hr : objkey ∉ d.responseKeyset) {g : ObjGraph} (hi : g.Inv false)
    (hw : g.Whole) (l : List ObjGraph) :
    execute (objectActions objkey .graph g) (adding d .graph objkey l) =
      some (.success, adding d .graph objkey (l ++ [g])) := by
  have hcreate : (adding d .graph objkey l).call (.graph objkey false (some g.title) g.description (keysAgain g)) =
      some (.success, adding d .graph objkey (l ++ [{ g with nodevalues := [], nodelinks := [] }])) := by
    show Document.addObject _ _ _ _ = _
    rw [newGraph_again hi hw]
    exact addObject_adding hk hr
  show execute ((.call _ :: List.map _ _) ++ linkCalls _ _ _) _ = _
  rw [execute_append ((execute_call hcreate).trans (execute_nodesAgain (c := .graph) (.graphNode objkey) id hi
    hw fun g g' values h => onGraph_adding hk h))]
  exact execute_linkCalls (c := .graph) (.graphLink objkey) id hi
    (fun g g' source target description hs ht h => (graphLink_call hk hs ht).2 h) [] (List.nil_append _).symm

/-- A tree is read back as it was: its root comes after the nodes and before the links. -/
theorem execute_tree (hk : objkey ∉ d.objkeys) (hr : objkey ∉ d.responseKeyset) {t : ObjTree} (hi : t.Inv)
    (hroot : t.rootnode.isSome = true) (hw : t.toObjGraph.Whole) (l : List ObjTree) :
    execute (objectActions objkey .tree t) (adding d .tree objkey l) =
      some (.success, adding d .tree objkey (l ++ [t])) := by
  obtain ⟨root, hroot⟩ := Option.isSome_iff_exists.mp hroot
  obtain ⟨n, rfl, hn⟩ := hi.root root hroot
  obtain ⟨hneg, htoNat⟩ := int32_natCast hn
  have hcreate : (adding d .tree objkey l).call (.tree objkey (some t.title) t.description
      (keysAgain t.toObjGraph)) = some (.success, adding d .tree objkey
        (l ++ [{ toObjGraph := { t.toObjGraph with nodevalues := [], nodelinks := [] }, rootnode := none }])) := by
    rw [Document.call, Document.addTree, newTree, newGraph_again hi.graph hw]
    exact addObject_adding hk hr
  have hnodes := execute_nodesAgain (d := d) (c := .tree) (l := l) (.treeNode objkey)
    (fun g => { toObjGraph := g, rootnode := none }) hi.graph hw fun g g' values h =>
      onObject_adding (c := .tree) (f := fun t => t.addNode values) hk (by rw [ObjTree.addNode, h]; rfl)
  have hset (g : ObjGraph) : execute [.call (.treeRoot objkey (readInt (t.rootnode.getD [])))]
      (adding d .tree objkey (l ++ [{ toObjGraph := g, rootnode := none }])) =
      some (.success, adding d .tree objkey (l ++ [{ toObjGraph := g, rootnode := t.rootnode }])) := by
    have hcall : (adding d .tree objkey (l ++ [{ toObjGraph := g, rootnode := none }])).call
        (.treeRoot objkey n) =
        some (.success, adding d .tree objkey (l ++ [{ toObjGraph := g, rootnode := some (decimal n) }])) := by
      rw [Document.call, Document.setTreeRoot, if_neg hneg, htoNat]
      exact onObject_adding (c := .tree) hk rfl
    rw [hroot, Option.getD_some, readInt_decimal hn]
    exact execute_call hcall
  have hlinks := execute_linkCalls (d := d) (c := .tree) (l := l) (.treeLink objkey)
    (fun g => { toObjGraph := g, rootnode := t.rootnode }) hi.graph
    (fun g g' source target description hs ht h => by
      obtain ⟨hsn, hs⟩ := int32_natCast hs
      obtain ⟨htn, ht⟩ := int32_natCast ht
      rw [Document.call, Document.addTreeLink, if_neg (by simp only [hsn, htn, or_self, not_false_eq_true]), hs, ht]
      exact onObject_adding (c := .tree) hk (by rw [ObjTree.addLink, h]; rfl)) [] (List.nil_append _).symm
  show execute (((.call _ :: List.map _ _) ++ [_]) ++ linkCalls _ _ _) _ = _
  rw [execute_append ((execute_append ((execute_call hcreate).trans hnodes)).trans (hset _))]
  exact hlinks

theorem execute_object {c : ObjClass} {o : c.Obj} (hk : objkey ∉ d.objkeys) (hr : objkey ∉ d.responseKeyset)
    (hi : Inv c o) (hw : Whole c o) (l : List c.Obj) :
    execute (objectActions objkey c o) (adding d c objkey l) = some (.success, adding d c objkey (l ++ [o])) := by
  cases c with
  | text => exact execute_text hk hr o l
  | grid => exact execute_grid hk hr hi hw l
  | multigrid => exact execute_multigrid hk hr hi hw l
  | tree => exact execute_tree hk hr hi hw.1 hw.2 l
  | digraph => exact execute_digraph hk hr hi hw l
  | graph => exact execute_graph hk hr hi hw l

end Objects

end OphidiaWorkflow.Response
