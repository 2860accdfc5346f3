import OphidiaWorkflow.Server.Folders

/-!
The folder that a path names: `oph_odb_fs_path_parsing` against the tree of the folders.

A name with a quote or a backslash is not the one that the literal in the query stands for, so nothing is assumed of the
answers to such queries. A literal whose end is cut off is a syntax error.
-/
namespace OphidiaWorkflow.Folders

open Lib

/-- The name is what its literal stands for. -/
def Plain (name : List Char) : Prop := '\x27' ∉ name ∧ '\\' ∉ name

/-- The database answers the queries for the root and for the plain names with the rows of the tree. -/
structure SqlAnswers (T : FolderTree) (db : Ophidiadb) : Prop where
  connected : db.connected = true
  root : db.query rootQuery =
    some ⟨1, (T.rows.filter fun f => f.idparent = none).map fun f => [some (decimal f.idfolder)]⟩
  child : ∀ id name, Plain name → AnswersChild T db id name
  cut : ∀ id name, Plain name → mysqlBuflen ≤ (childQuery id name).length →
    db.query (printed (childQuery id name)) = none

/-- The path that is resolved. -/
def combined (cwd inpath : List Char) : List Char := if inpath.head? = some '/' then inpath else cwd ++ '/' :: inpath

/-- What a component does to the names from the root on. -/
def resolveToken (names : List (List Char)) (token : List Char) : Option (List (List Char)) :=
  if token = ['.'] then some names
  else if token = ['.', '.'] then if names = [] then none else some names.dropLast
  else some (names ++ [token])

/-- The names from the root on; `none` if there is no component, or the path climbs above the root. -/
def resolve (path : List Char) : Option (List (List Char)) :=
  if tokens '/' path = [] then none else (tokens '/' path).foldlM resolveToken []

/-- Following the names from the root leads to the folder. -/
def Leads (T : FolderTree) (names : List (List Char)) (id : Int) : Prop :=
  ∃ l, Descends T.rows id l ∧ l.map Prod.snd = names

/-- The function fails, without leaving a buffer. -/
def Fails (db : Ophidiadb) (cwd inpath : List Char) : Prop :=
  ∃ e, pathParsing db inpath cwd true = .error e ∧ e ≠ .undefined

/-- The path is resolved as its components say, and the answer is that of the tree. -/
def Resolves (T : FolderTree) (db : Ophidiadb) (cwd inpath : List Char) : Prop :=
  match resolve (combined cwd inpath) with
  | none => Fails db cwd inpath
  | some names =>
    (∀ name ∈ names, FolderName name) ∧
    (∀ id, Leads T names id → pathParsing db inpath cwd true = .ok (id, some (pathOf names))) ∧
    ((∀ id, ¬ Leads T names id) → Fails db cwd inpath)

/-- The name is looked up in a folder, to which the names before it lead. -/
def Asks (T : FolderTree) (names : List (List Char)) (p : Int) (name : List Char) : Prop :=
  ∃ l rest, Descends T.rows p l ∧ names = l.map Prod.snd ++ name :: rest

/-- The names that are looked up are plain, and if they lead to a folder no query is cut off. -/
def Clear (T : FolderTree) (names : List (List Char)) : Prop :=
  ∀ p name, Asks T names p name →
    Plain name ∧ ((∃ id, Leads T names id) → (childQuery p name).length < mysqlBuflen)

section Lexical

variable {names names' ts : List (List Char)} {name token path : List Char}

/-- The list of the code is that of the names, the last one first. -/
theorem pushToken_reverse (h : token.length < mysqlBuflen) (names : List (List Char)) :
    pushToken true names.reverse token =
      (resolveToken names token).elim (.error .error) fun names => .ok names.reverse := by
  unfold pushToken resolveToken
  split
  · rfl
  · split
    · induction names using List.reverseRecOn with
      | nil => rfl
      | append_singleton names name _ =>
        rw [if_pos rfl, List.reverse_concat, if_neg (by simp), List.dropLast_concat]
        rfl
    · rw [printed_eq h, Option.elim_some, List.reverse_concat]

theorem pushTokens_reverse (h : ∀ t ∈ ts, t.length < mysqlBuflen) (names : List (List Char)) :
    ts.foldlM (pushToken true) names.reverse =
      (ts.foldlM resolveToken names).elim (.error .error) fun names => .ok names.reverse := by
  induction ts generalizing names with
  | nil => rfl
  | cons t ts ih =>
    obtain ⟨ht, h⟩ := List.forall_mem_cons.mp h
    rw [List.foldlM_cons, List.foldlM_cons, pushToken_reverse ht]
    cases resolveToken names t with
    | none => rfl
    | some names => exact ih h names

theorem resolveToken_spec (hn : ∀ name ∈ names, FolderName name) (ht : token ≠ []) (hs : '/' ∉ token)
    (h : resolveToken names token = some names') :
    (∀ name ∈ names', FolderName name) ∧ joinedLength names' ≤ joinedLength names + (token.length + 1) := by
  unfold resolveToken at h
  split at h
  · cases h
    exact ⟨hn, Nat.le_add_right _ _⟩
  · next hdot =>
    split at h
    · split at h
      · cases h
      · next hne =>
        cases h
        refine ⟨fun name hm => hn name ((List.dropLast_sublist names).subset hm), ?_⟩
        have hlast := congrArg joinedLength (List.dropLast_append_getLast hne)
        rw [joinedLength_append] at hlast
        omega
    · next hdots =>
      cases h
      constructor
      · intro name hm
        rcases List.mem_append.mp hm with hm | hm
        · exact hn name hm
        · rw [List.mem_singleton.mp hm]
          exact ⟨ht, hs, hdot, hdots⟩
      · rw [joinedLength_append]
        exact Nat.le_refl _

theorem resolveTokens_spec (hn : ∀ name ∈ names, FolderName name) (ht : ∀ t ∈ ts, t ≠ [] ∧ '/' ∉ t)
    (h : ts.foldlM resolveToken names = some names') :
    (∀ name ∈ names', FolderName name) ∧ joinedLength names' ≤ joinedLength names + joinedLength ts := by
  induction ts generalizing names with
  | nil =>
    cases h
    exact ⟨hn, Nat.le_refl _⟩
  | cons t ts ih =>
    obtain ⟨⟨hne, hs⟩, ht⟩ := List.forall_mem_cons.mp ht
    rw [List.foldlM_cons] at h
    obtain ⟨m, hm, h⟩ := Option.bind_eq_some_iff.mp h
    obtain ⟨hnames, hlen⟩ := resolveToken_spec hn hne hs hm
    obtain ⟨hnames', hlen'⟩ := ih hnames ht h
    rw [joinedLength]
    exact ⟨hnames', by omega⟩

theorem length_pathOf (names : List (List Char)) : (pathOf names).length = joinedLength names + 1 := by
  rw [pathOf, List.length_cons, length_flatMap_separator]

/-- The names are proper ones, and their path is at most one character longer. -/
theorem resolve_spec (h : resolve path = some names) (hp : path.head? = some '/') :
    (∀ name ∈ names, FolderName name) ∧ (pathOf names).length ≤ path.length + 1 := by
  unfold resolve at h
  split at h
  · cases h
  · have hnil : ∀ name ∈ ([] : List (List Char)), FolderName name := fun name hm => absurd hm List.not_mem_nil
    obtain ⟨hnames, hlen⟩ := resolveTokens_spec hnil
      (fun t ht => ⟨ne_nil_of_mem_tokens ht, not_mem_of_mem_tokens ht⟩) h
    refine ⟨hnames, ?_⟩
    rw [length_pathOf]
    cases path with
    | nil => cases hp
    | cons c rest =>
      cases hp
      have hjoined := joinedLength_tokens '/' rest
      rw [tokens_cons_self] at hlen
      rw [List.length_cons]
      have hzero : joinedLength ([] : List (List Char)) = 0 := rfl
      omega

theorem joinedLength_tokens_le (path : List Char) : joinedLength (tokens '/' path) ≤ path.length + 1 := by
  have hjoined := joinedLength_tokens '/' path
  omega

theorem length_le_of_mem_tokens (h : token ∈ tokens '/' path) : token.length ≤ path.length := by
  have hpath := joinedLength_tokens_le path
  have hlt := length_lt_joinedLength h
  omega

/-- What the function asks the database for. -/
def lookUp (db : Ophidiadb) (names : List (List Char)) : Except OdbError Int :=
  match db.query rootQuery with
  | none => .error .mysqlError
  | some t =>
    match t.rows with
    | [row] =>
      match field row 0 with
      | some s => descend db (readInt s) names
      | none => .error .undefined
    | _ => .error .error

theorem head_combined {cwd : List Char} (hc : cwd.head? = some '/') (inpath : List Char) :
    (combined cwd inpath).head? = some '/' := by
  unfold combined
  split
  · next h => exact h
  · cases cwd with
    | nil => cases hc
    | cons c cwd => exact hc

theorem length_printed_le (path : List Char) : (printed path).length ≤ mysqlBuflen - 1 := List.length_take_le _ _

theorem head_printed (path : List Char) : (printed path).head? = path.head? := by
  cases path with
  | nil => rfl
  | cons c path => rfl

/-- No component of the buffer is cut. -/
theorem pushTokens_printed (path : List Char) :
    (tokens '/' (printed path)).foldlM (pushToken true) [] =
      ((tokens '/' (printed path)).foldlM resolveToken []).elim (.error .error) fun names => .ok names.reverse := by
  have hle := length_printed_le path
  refine pushTokens_reverse (fun t ht => Nat.lt_of_le_of_lt (length_le_of_mem_tokens ht) ?_) []
  unfold mysqlBuflen at hle ⊢
  omega

/-- The function looks up the names that the buffer resolves to, unless their path does not fit. -/
theorem pathParsing_printed {db : Ophidiadb} {cwd inpath : List Char} (hconn : db.connected = true)
    (hc : cwd.head? = some '/') :
    pathParsing db inpath cwd true = (resolve (printed (combined cwd inpath))).elim (.error .error) fun names =>
      if mysqlBuflen ≤ (pathOf names).length then .error .undefined
      else (lookUp db names).map fun id => (id, some (pathOf names)) := by
  have habs : (if inpath.head? = some '/' then inpath else cwd ++ '/' :: inpath) = combined cwd inpath := rfl
  have hpush := pushTokens_printed (combined cwd inpath)
  rw [pathParsing, hconn, if_neg (by decide), if_neg (fun hn => hn hc)]
  dsimp only
  rw [habs]
  generalize printed (combined cwd inpath) = buffer at hpush ⊢
  unfold resolve
  by_cases hnil : tokens '/' buffer = []
  · rw [if_pos (.inr hnil), if_pos hnil]
    rfl
  · have hslash : buffer ≠ ['/', '/'] := fun h => hnil (h ▸ rfl)
    rw [if_neg (not_or.mpr ⟨hslash, hnil⟩), if_neg hnil, hpush]
    cases (tokens '/' buffer).foldlM resolveToken [] with
    | none => rfl
    | some names =>
      dsimp only [Option.elim_some]
      rw [List.reverse_reverse, Bool.true_and, lookUp]
      by_cases hroom : mysqlBuflen ≤ (pathOf names).length
      · rw [if_pos (decide_eq_true hroom), if_pos hroom]
      · rw [if_neg (by simpa using hroom), if_neg hroom]
        rcases db.query rootQuery with _ | ⟨fieldCount, _ | ⟨row, _ | ⟨row', rows⟩⟩⟩
        · rfl
        · rfl
        · dsimp only
          cases field row 0 with
          | none => rfl
          | some s =>
            dsimp only
            cases descend db (readInt s) names with
            | error e => rfl
            | ok id => rfl
        · rfl

/-- The function looks up the names that a short path resolves to. -/
theorem pathParsing_eq {db : Ophidiadb} {cwd inpath : List Char} (hconn : db.connected = true)
    (hc : cwd.head? = some '/') (hlen : (combined cwd inpath).length < mysqlBuflen - 1) :
    pathParsing db inpath cwd true = (resolve (combined cwd inpath)).elim (.error .error) fun names =>
      (lookUp db names).map fun id => (id, some (pathOf names)) := by
  rw [pathParsing_printed hconn hc, printed_eq (Nat.lt_of_lt_of_le hlen (Nat.sub_le _ _))]
  cases hr : resolve (combined cwd inpath) with
  | none => rfl
  | some names =>
    obtain ⟨-, hfit⟩ := resolve_spec hr (head_combined hc inpath)
    have hroom : ¬ mysqlBuflen ≤ (pathOf names).length := by
      unfold mysqlBuflen at hlen ⊢
      omega
    rw [Option.elim_some, Option.elim_some, if_neg hroom]

end Lexical

section Tree

variable {T : FolderTree} {db : Ophidiadb} {f : Folder} {id id' p p' : Int} {l l' m : List (Int × List Char)}
  {names : List (List Char)} {name : List Char} {q : Int × List Char}

theorem Descends.init (h : Descends T.rows id (l ++ (p, name) :: m)) : Descends T.rows p l := by
  generalize hw : l ++ (p, name) :: m = w at h
  induction h generalizing m with
  | root h => simp at hw
  | @child id p' name' w h hp ih =>
    induction m using List.reverseRecOn with
    | nil =>
      obtain ⟨rfl, hlast⟩ := List.append_inj' hw rfl
      cases hlast
      exact hp
    | append_singleton m x _ =>
      rw [← List.cons_append, ← List.append_assoc] at hw
      exact ih (List.append_inj' hw rfl).1

/-- The names determine the way. -/
theorem Descends.eq_of_names (h : Descends T.rows id l) (h' : Descends T.rows id' l')
    (hn : l.map Prod.snd = l'.map Prod.snd) : id = id' ∧ l = l' := by
  induction h generalizing id' l' with
  | root h =>
    cases h' with
    | root h' =>
      cases T.root _ h _ h' rfl rfl
      exact ⟨rfl, rfl⟩
    | child h' hp' => simp at hn
  | child h hp ih =>
    cases h' with
    | root h' => simp at hn
    | child h' hp' =>
      rw [List.map_append, List.map_append] at hn
      obtain ⟨hinit, hlast⟩ := List.append_inj' hn rfl
      obtain ⟨rfl, rfl⟩ := ih hp' hinit
      cases hlast
      cases T.unique _ h _ h' rfl rfl
      exact ⟨rfl, rfl⟩

theorem asks_of_mem (h : Descends T.rows id l) (hq : q ∈ l) : Asks T (l.map Prod.snd) q.1 q.2 := by
  obtain ⟨a, b, rfl⟩ := List.append_of_mem hq
  exact ⟨a, b.map Prod.snd, h.init, by rw [List.map_append, List.map_cons]⟩

/-- What is looked up on the way to a folder stands on it. -/
theorem mem_of_asks (h : Descends T.rows id l) (ha : Asks T (l.map Prod.snd) p name) : (p, name) ∈ l := by
  obtain ⟨l₀, rest, h₀, hnames⟩ := ha
  obtain ⟨a, b, rfl, hinit, hb⟩ := List.map_eq_append_iff.mp hnames
  obtain ⟨⟨p', name'⟩, b, rfl, hname, -⟩ := List.map_eq_cons_iff.mp hb
  obtain ⟨rfl, -⟩ := h₀.eq_of_names h.init hinit.symm
  cases hname
  exact List.mem_append_right _ List.mem_cons_self

theorem lookUp_root (hroot : db.query rootQuery =
      some ⟨1, (T.rows.filter fun f => f.idparent = none).map fun f => [some (decimal f.idfolder)]⟩)
    (hf : f ∈ T.rows) (hr : f.idparent = none) (names : List (List Char)) :
    lookUp db names = descend db f.idfolder names := by
  rw [lookUp, hroot]
  dsimp only
  rw [FolderTree.filter_root hf hr]
  show descend db (readInt (decimal f.idfolder)) names = _
  rw [FolderTree.readInt_id hf]

/-- The way down stops at a name that is not in the tree. -/
theorem descend_missing (hdb : SqlAnswers T db) (h : Descends T.rows p l)
    (hmissing : ∀ id l', Descends T.rows id (l ++ l') → l'.map Prod.snd ≠ names)
    (hplain : ∀ p' l' name rest, Descends T.rows p' (l ++ l') → names = l'.map Prod.snd ++ name :: rest → Plain name) :
    ∃ e, descend db p names = .error e ∧ e ≠ .undefined := by
  induction names generalizing p l with
  | nil => exact absurd rfl (hmissing p [] (by rwa [List.append_nil]))
  | cons name names ih =>
    have hname : Plain name := hplain p [] name names (by rwa [List.append_nil]) rfl
    rw [descend]
    by_cases hfit : (childQuery p name).length < mysqlBuflen
    · rw [printed_eq hfit, hdb.child p name hname]
      dsimp only
      cases hrows : T.rows.filter fun f => f.idparent = some p ∧ f.foldername = name with
      | nil => exact ⟨_, rfl, by decide⟩
      | cons f fs =>
        cases fs with
        | cons f' fs => exact ⟨_, rfl, by decide⟩
        | nil =>
          obtain ⟨hf, hq⟩ := List.mem_filter.mp (hrows ▸ List.mem_cons_self : f ∈ T.rows.filter _)
          obtain ⟨hp, hfn⟩ := of_decide_eq_true hq
          have hrow : (⟨f.idfolder, some p, name⟩ : Folder) ∈ T.rows := by
            rw [← hp, ← hfn]
            exact hf
          have hnext : Descends T.rows f.idfolder (l ++ [(p, name)]) := .child hrow h
          have hrest : ∃ e, descend db f.idfolder names = .error e ∧ e ≠ .undefined := by
            refine ih hnext (fun id l' hd hn => ?_) fun p' l' name' rest hd hn => ?_
            · rw [List.append_assoc] at hd
              exact hmissing id _ hd (by rw [List.singleton_append, List.map_cons, hn])
            · rw [List.append_assoc] at hd
              exact hplain p' _ name' rest hd (by rw [List.singleton_append, List.map_cons, hn, List.cons_append])
          rw [← FolderTree.readInt_id hf] at hrest
          exact hrest
    · rw [hdb.cut p name hname (Nat.not_lt.mp hfit)]
      exact ⟨_, rfl, by decide⟩

theorem lookUp_leads (hdb : SqlAnswers T db) (hclear : Clear T names) (h : Leads T names id) :
    lookUp db names = .ok id := by
  obtain ⟨l, hl, rfl⟩ := h
  obtain ⟨f, hf, hr⟩ := hl.exists_root
  have hasks {q : Int × List Char} (hq : q ∈ l) := hclear q.1 q.2 (asks_of_mem hl hq)
  rw [lookUp_root hdb.root hf hr]
  exact descend_of_descends hl hf hr (fun q hq => hdb.child q.1 q.2 (hasks hq).1)
    fun q hq => (hasks hq).2 ⟨id, l, hl, rfl⟩

theorem lookUp_missing (hdb : SqlAnswers T db) (hclear : Clear T names) (h : ∀ id, ¬ Leads T names id) :
    ∃ e, lookUp db names = .error e ∧ e ≠ .undefined := by
  by_cases hroot : ∃ f ∈ T.rows, f.idparent = none
  · obtain ⟨f, hf, hr⟩ := hroot
    rw [lookUp_root hdb.root hf hr]
    exact descend_missing hdb (.of_root hf hr) (fun id l' hd hn => h id ⟨l', hd, hn⟩)
      fun p l' name rest hd hn => (hclear p name ⟨l', rest, hd, hn⟩).1
  · have hnone : (T.rows.filter fun f => f.idparent = none) = [] :=
      List.filter_eq_nil_iff.mpr fun f hf hr => hroot ⟨f, hf, of_decide_eq_true hr⟩
    rw [lookUp, hdb.root, hnone]
    exact ⟨_, rfl, by decide⟩

end Tree

section SqlDb

variable {T : FolderTree} {id p : Int} {name s : List Char}

/-- The text has one literal, which is closed and without a backslash. -/
def Closed (s : List Char) : Prop := s.count '\x27' = 2 ∧ '\\' ∉ s

instance (s : List Char) : Decidable (Closed s) := inferInstanceAs (Decidable (s.count '\x27' = 2 ∧ '\\' ∉ s))

/-- A database that takes the texts with one closed literal. -/
def sqlDb (T : FolderTree) : Ophidiadb where
  connected := true
  query s :=
    if s = rootQuery then some ⟨1, (T.rows.filter fun f => f.idparent = none).map fun f => [some (decimal f.idfolder)]⟩
    else if Closed s then
      some ⟨1, (T.rows.filter fun f => f.idparent.map (fun p => childQuery p f.foldername) = some s).map
        fun f => [some (decimal f.idfolder)]⟩
    else none

theorem sqlDb_child (T : FolderTree) (t : List Char) : (sqlDb T).query (childText ++ t) =
    if Closed (childText ++ t) then
      some ⟨1, (T.rows.filter fun f => f.idparent.map (fun p => childQuery p f.foldername) = some (childText ++ t)).map
        fun f => [some (decimal f.idfolder)]⟩
    else none := by
  have hroot : childText ++ t ≠ rootQuery := by
    intro h
    have hkind := queryKind_child t
    rw [h, queryKind_root] at hkind
    cases hkind
  unfold sqlDb
  dsimp only
  rw [if_neg hroot]

theorem closed_childQuery_iff (id : Int) (name : List Char) : Closed (childQuery id name) ↔ Plain name := by
  have hquote : '\x27' ∉ decimal id := not_mem_decimal id (by decide) (by decide)
  have hslash : '\\' ∉ decimal id := not_mem_decimal id (by decide) (by decide)
  have hcount : (childQuery id name).count '\x27' = name.count '\x27' + 2 := by
    have hchild : childText.count '\x27' = 0 := by decide
    have hname : nameText.count '\x27' = 1 := by decide
    rw [childQuery, List.count_append, List.count_append, List.count_append, List.count_append, hchild, hname,
      List.count_eq_zero.mpr hquote, List.count_singleton_self]
    omega
  have hmem : '\\' ∈ childQuery id name ↔ '\\' ∈ name := by
    have hchild : '\\' ∉ childText := by decide
    have hname : '\\' ∉ nameText := by decide
    have hlast : '\\' ∉ ['\x27'] := by decide
    rw [childQuery, List.mem_append, List.mem_append, List.mem_append, List.mem_append, or_iff_right hchild,
      or_iff_right hslash, or_iff_right hname, or_iff_left hlast]
  rw [Closed, Plain, hcount, hmem, Nat.add_eq_right, List.count_eq_zero]

theorem not_closed_cut (h : Plain name) (hlen : mysqlBuflen ≤ (childQuery id name).length) :
    ¬ Closed (printed (childQuery id name)) := by
  have hfull := ((closed_childQuery_iff id name).mpr h).1
  have hsplit : childQuery id name = childText ++ (decimal id ++ (nameText ++ name)) ++ ['\x27'] := by
    rw [childQuery]
    simp only [List.append_assoc]
  rintro ⟨hcount, -⟩
  rw [hsplit] at hfull hlen hcount
  generalize childText ++ (decimal id ++ (nameText ++ name)) = u at hfull hlen hcount
  rw [List.length_append, List.length_singleton] at hlen
  rw [printed, List.take_append_of_le_length (by unfold mysqlBuflen at hlen ⊢; omega)] at hcount
  have hle := (List.take_sublist (mysqlBuflen - 1) u).count_le '\x27'
  rw [List.count_append, List.count_singleton_self] at hfull
  omega

theorem sqlAnswers_sqlDb (T : FolderTree) : SqlAnswers T (sqlDb T) where
  connected := rfl
  root := by
    unfold sqlDb
    dsimp only
    rw [if_pos rfl]
  child id name h := by
    have hanswer := sqlDb_child T (decimal id ++ (nameText ++ (name ++ ['\x27'])))
    have hclosed : Closed (childQuery id name) := (closed_childQuery_iff id name).mpr h
    have hfilter := filter_childQuery T id name
    rw [AnswersChild, ← hfilter]
    exact hanswer.trans (if_pos hclosed)
  cut id name h hlen := by
    have hbase : childText.length ≤ mysqlBuflen - 1 := by decide
    have hopen := not_closed_cut h hlen
    rw [childQuery, printed, List.take_append, List.take_of_length_le hbase] at hopen ⊢
    rw [sqlDb_child, if_neg hopen]

end SqlDb

section Claim

variable {T : FolderTree} {names : List (List Char)} {id : Int} {cwd inpath : List Char}

theorem resolves_of_clear (hc : cwd.head? = some '/') (hlen : (combined cwd inpath).length < mysqlBuflen - 1)
    (hclear : ∀ names, resolve (combined cwd inpath) = some names → Clear T names) {db : Ophidiadb}
    (hdb : SqlAnswers T db) : Resolves T db cwd inpath := by
  have heq := pathParsing_eq hdb.connected hc hlen
  unfold Resolves
  cases hr : resolve (combined cwd inpath) with
  | none =>
    rw [hr] at heq
    exact ⟨_, heq, by decide⟩
  | some names =>
    rw [hr] at heq
    refine ⟨(resolve_spec hr (head_combined hc inpath)).1, fun id h => ?_, fun h => ?_⟩
    · rw [heq, Option.elim_some, lookUp_leads hdb (hclear names hr) h]
      rfl
    · obtain ⟨e, he, hne⟩ := lookUp_missing hdb (hclear names hr) h
      refine ⟨e, ?_, hne⟩
      rw [heq, Option.elim_some, he]
      rfl

/-- The database that takes closed literals only shows that the names were plain and no query was cut off. -/
theorem clear_of_resolves (hc : cwd.head? = some '/') (hlen : (combined cwd inpath).length < mysqlBuflen - 1)
    (hr : resolve (combined cwd inpath) = some names) (hleads : Leads T names id)
    (h : Resolves T (sqlDb T) cwd inpath) : Clear T names := by
  have hdb := sqlAnswers_sqlDb T
  have heq := pathParsing_eq hdb.connected hc hlen
  unfold Resolves at h
  rw [hr] at h heq
  have hok := h.2.1 id hleads
  obtain ⟨l, hl, rfl⟩ := hleads
  obtain ⟨f, hf, hroot⟩ := hl.exists_root
  rw [heq, Option.elim_some, lookUp_root hdb.root hf hroot] at hok
  have hanswered : Answered T (sqlDb T) Closed := by
    intro t r hr
    rw [sqlDb_child] at hr
    split at hr
    · next hclosed => exact ⟨hclosed, (Option.some.inj hr).symm⟩
    · cases hr
  cases hd : descend (sqlDb T) f.idfolder (l.map Prod.snd) with
  | error e =>
    rw [hd] at hok
    cases hok
  | ok id' =>
    rw [hd] at hok
    obtain rfl : id' = id := (Prod.mk.inj (Except.ok.inj hok)).1
    obtain ⟨l', hl', hall⟩ := descends_of_descend hanswered (.of_root hf hroot) hd
    obtain rfl : l = l' := hl.unique hl'
    rw [List.forall₂_map_right_iff, List.forall₂_same] at hall
    intro p name hasks
    obtain ⟨hprinted, hclosed⟩ := hall _ (mem_of_asks hl hasks)
    refine ⟨(closed_childQuery_iff p name).mp hclosed, fun _ => ?_⟩
    have hshort : (printed (childQuery p name)).length = (childQuery p name).length := congrArg List.length hprinted
    rw [printed, List.length_take, mysqlBuflen] at hshort
    rw [mysqlBuflen]
    omega

/-- If the names that are looked up are plain and no query for a folder that exists is cut off, the path is resolved
whatever the database answers to other queries; and only if, for the paths that lead to a folder or have plain names. -/
theorem resolves_iff (hc : cwd.head? = some '/') (hlen : (combined cwd inpath).length < mysqlBuflen - 1) :
    ((∀ names, resolve (combined cwd inpath) = some names → Clear T names) →
      ∀ db, SqlAnswers T db → Resolves T db cwd inpath) ∧
    ((∀ names, resolve (combined cwd inpath) = some names → (∃ id, Leads T names id) ∨ ∀ name ∈ names, Plain name) →
      (∀ db, SqlAnswers T db → Resolves T db cwd inpath) →
        ∀ names, resolve (combined cwd inpath) = some names → Clear T names) := by
  refine ⟨fun hclear db hdb => resolves_of_clear hc hlen hclear hdb, fun hknown h names hr => ?_⟩
  have hexists (id : Int) (hleads : Leads T names id) : Clear T names :=
    clear_of_resolves hc hlen hr hleads (h _ (sqlAnswers_sqlDb T))
  rcases hknown names hr with ⟨id, hleads⟩ | hplain
  · exact hexists id hleads
  · rintro p name ⟨l, rest, hl, rfl⟩
    refine ⟨hplain name (List.mem_append_right _ List.mem_cons_self), ?_⟩
    rintro ⟨id, hleads⟩
    exact (hexists id hleads p name ⟨l, rest, hl, rfl⟩).2 ⟨id, hleads⟩

end Claim

theorem clear_home : Clear home ["home".toList] := by
  intro p name hasks
  have hmem : (p, name) ∈ [((1 : Int), "home".toList)] := mem_of_asks (T := home) (descends_oneFolder _) hasks
  cases List.mem_singleton.mp hmem
  exact ⟨⟨by decide, by decide⟩, fun _ => by decide⟩

theorem resolves_home : Resolves home (sqlDb home) "/tmp".toList "..//./home/".toList := by
  refine (resolves_iff (by decide) (by decide)).1 (fun names hr => ?_) (sqlDb home) (sqlAnswers_sqlDb home)
  have hnames : resolve (combined "/tmp".toList "..//./home/".toList) = some ["home".toList] := by decide
  cases hnames.symm.trans hr
  exact clear_home

theorem resolve_singleton {name : List Char} (h : FolderName name) : resolve ('/' :: name) = some [name] := by
  have htokens : tokens '/' ('/' :: name) = [name] :=
    (tokens_cons_self _ _).trans (tokens_eq_singleton h.nonempty h.slash)
  rw [resolve, htokens, if_neg (List.cons_ne_nil _ _), List.foldlM_cons, resolveToken, if_neg h.dot, if_neg h.dots]
  rfl

theorem not_resolves_of_length {name : List Char} (hn : FolderName name) (hlen : name.length + 1 < mysqlBuflen - 1)
    (hlong : 1986 ≤ name.length) :
    ¬∀ db, SqlAnswers (oneFolder name hn) db → Resolves (oneFolder name hn) db ['/'] ('/' :: name) := by
  intro h
  have habs : combined ['/'] ('/' :: name) = '/' :: name := if_pos rfl
  have hway : Descends (oneFolder name hn).rows 2 [(1, name)] := descends_oneFolder name
  have hresolve : resolve (combined ['/'] ('/' :: name)) = some [name] := habs ▸ resolve_singleton hn
  have hleads : Leads (oneFolder name hn) [name] 2 := ⟨_, hway, rfl⟩
  have hclear := clear_of_resolves rfl (by rwa [habs]) hresolve hleads (h _ (sqlAnswers_sqlDb _))
  have hshort := (hclear 1 name (asks_of_mem hway (List.mem_singleton_self _))).2 ⟨2, hleads⟩
  have hone : (decimal 1).length = 1 := rfl
  rw [length_childQuery, hone, mysqlBuflen] at hshort
  omega

/-- The query for a folder with a name of 1990 characters is cut off. -/
theorem not_resolves_1990 : (combined ['/'] ('/' :: List.replicate 1990 'a')).length < mysqlBuflen - 1 ∧
    ¬∀ db, SqlAnswers (oneFolder _ (folderName_replicate (by decide : 3 ≤ 1990))) db →
      Resolves (oneFolder _ (folderName_replicate (by decide : 3 ≤ 1990))) db ['/']
        ('/' :: List.replicate 1990 'a') := by
  have habs : combined ['/'] ('/' :: List.replicate 1990 'a') = '/' :: List.replicate 1990 'a' := if_pos rfl
  have hlength : (List.replicate 1990 'a').length = 1990 := List.length_replicate
  refine ⟨?_, not_resolves_of_length _ ?_ ?_⟩
  · rw [habs, List.length_cons, hlength]
    decide
  · rw [hlength]
    decide
  · rw [hlength]
    decide

end OphidiaWorkflow.Folders
