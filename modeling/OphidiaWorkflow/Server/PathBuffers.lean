import OphidiaWorkflow.Lib.Block
import OphidiaWorkflow.Server.Paths

/-!
The paths that are written into buffers of `MYSQL_BUFLEN`: `*output_path` of `oph_odb_fs_path_parsing`, and the two
parts that `oph_odb_fs_str_last_token` makes of a path.

Both print the components one after the other at a growing offset, and every call is given the size of the whole
buffer.
-/
namespace OphidiaWorkflow.Folders

open Lib

/-- The zero at the end of a string. -/
def nul : Char := Char.ofNat 0

/-- The loop that writes the names to `*output_path`. -/
def printNames (names : List (List Char)) : Printing Char :=
  names.foldl (fun p name => p.print nul mysqlBuflen (name ++ ['/'])) (Printing.start.print nul mysqlBuflen ['/'])

/-- The block `*output_path` as `oph_odb_fs_path_parsing` writes it; `none` if it is not allocated. -/
def outputPath (db : Ophidiadb) (inpath cwd : List Char) (output : Bool) : Option (List (Option Char)) :=
  if !db.connected then none
  else if cwd.head? ≠ some '/' then none
  else
    let buffer := printed (combined cwd inpath)
    if buffer = ['/', '/'] ∨ tokens '/' buffer = [] then none
    else
      match (tokens '/' buffer).foldlM (pushToken output) [] with
      | .error _ => none
      | .ok list => if output then some (printNames list.reverse).block else none

/-- The first loop: the components are counted. -/
def countTokens (s : List Char) : Nat :=
  match _ : strtok '/' s with
  | none => 0
  | some (_, left) => countTokens left + 1
termination_by s.length
decreasing_by exact (tokens_of_strtok ‹_›).2

/-- The second loop: `ptr` and the components after it, of which there are `m` by the count. The last one goes to
`*last_token`, the other ones to `*first_part`. -/
def copyTokens : Nat → Printing Char → List Char → List Char →
    Except OdbError (List (Option Char) × List (Option Char))
  | 0, first, ptr, _ => .ok (first.block, (Printing.start.print nul mysqlBuflen ptr).block)
  | m + 1, first, ptr, left =>
    match strtok '/' left with
    | none => .error .undefined
    | some (next, left) => copyTokens m (first.print nul mysqlBuflen (ptr ++ ['/'])) next left

/-- `oph_odb_fs_str_last_token`: the blocks `*first_part` and `*last_token`. -/
def strLastToken (input : List Char) : Except OdbError (List (Option Char) × List (Option Char)) :=
  let buffer := printed input
  let tokenNum := countTokens buffer
  if tokenNum = 0 then .error .error
  else
    match strtok '/' buffer with
    | none => .error .undefined
    | some (ptr, left) =>
      if tokenNum = 1 then
        .ok ((Printing.start.print nul mysqlBuflen (if input.head? = some '/' then ['/'] else [])).block,
          (Printing.start.print nul mysqlBuflen ptr).block)
      else
        let first := if input.head? = some '/' then Printing.start.print nul mysqlBuflen ['/'] else Printing.start
        copyTokens (tokenNum - 1) first ptr left

/-- The separator that an absolute path begins with. -/
def rootPart (input : List Char) : List Char := if input.head? = some '/' then ['/'] else []

/-- The buffer is filled up with names. -/
structure Crowded (path : List Char) : Prop where
  full : mysqlBuflen - 1 ≤ path.length
  names : ∀ name ∈ ((printed path).splitOn '/').tail, FolderName name

/-- The last component of a path, and a path of the other ones. -/
structure Splits (input first last : List Char) : Prop where
  components : tokens '/' input = tokens '/' first ++ [last]
  absolute : first.head? = some '/' ↔ input.head? = some '/'
  single : tokens '/' first = [] → first = rootPart input

section Output

variable {names names' ts : List (List Char)} {token path cwd inpath : List Char} {db : Ophidiadb}
  {block : List (Option Char)}

theorem printNames_eq (h : ∀ name ∈ names, name.length + 1 < mysqlBuflen) :
    (printNames names).block = terminated nul (pathOf names) := by
  have hroot := (printed_start nul).print_eq (by decide : ['/'].length < mysqlBuflen)
  have hshort : ∀ t ∈ names.map (fun name => name ++ ['/']), t.length < mysqlBuflen := by
    intro t ht
    obtain ⟨name, hm, rfl⟩ := List.mem_map.mp ht
    rw [List.length_append, List.length_singleton]
    exact h name hm
  rw [printNames, hroot, ← List.foldl_map (f := fun name : List Char => name ++ ['/']), foldl_print_terminated hshort,
    pathOf, List.flatMap_def]
  rfl

/-- A name that does not change the path leaves room in the buffer. -/
theorem resolveToken_proper (h : resolveToken names token = some names')
    (hlen : joinedLength names + (token.length + 1) ≤ joinedLength names') : token ≠ ['.'] ∧ token ≠ ['.', '.'] := by
  unfold resolveToken at h
  split at h
  · cases h
    omega
  · next hdot =>
    split at h
    · split at h
      · cases h
      · next hne =>
        cases h
        have hlast := congrArg joinedLength (List.dropLast_append_getLast hne)
        rw [joinedLength_append] at hlast
        omega
    · next hdots => exact ⟨hdot, hdots⟩

theorem resolveTokens_proper (hn : ∀ name ∈ names, FolderName name) (ht : ∀ t ∈ ts, t ≠ [] ∧ '/' ∉ t)
    (h : ts.foldlM resolveToken names = some names') (hlen : joinedLength names + joinedLength ts ≤ joinedLength names') :
    ∀ t ∈ ts, FolderName t := by
  induction ts generalizing names with
  | nil => exact fun t hm => absurd hm List.not_mem_nil
  | cons t ts ih =>
    obtain ⟨⟨hne, hs⟩, ht⟩ := List.forall_mem_cons.mp ht
    rw [List.foldlM_cons] at h
    rw [joinedLength] at hlen
    obtain ⟨m, hm, h⟩ := Option.bind_eq_some_iff.mp h
    obtain ⟨hnames, hstep⟩ := resolveToken_spec hn hne hs hm
    have hrest := (resolveTokens_spec hnames ht h).2
    obtain ⟨hdot, hdots⟩ := resolveToken_proper hm (by omega)
    exact List.forall_mem_cons.mpr ⟨⟨hne, hs, hdot, hdots⟩, ih hnames ht h (by omega)⟩

theorem resolveTokens_names (h : ∀ t ∈ ts, FolderName t) : ts.foldlM resolveToken names = some (names ++ ts) := by
  induction ts generalizing names with
  | nil => rw [List.append_nil]; rfl
  | cons t ts ih =>
    obtain ⟨ht, h⟩ := List.forall_mem_cons.mp h
    rw [List.foldlM_cons, resolveToken, if_neg ht.dot, if_neg ht.dots]
    refine (ih h).trans ?_
    rw [List.append_assoc, List.singleton_append]

/-- What is written is the path of the names to which the buffer resolves. -/
theorem outputPath_eq (hconn : db.connected = true) (hc : cwd.head? = some '/') :
    outputPath db inpath cwd true =
      (resolve (printed (combined cwd inpath))).map fun names => terminated nul (pathOf names) := by
  have habs : (printed (combined cwd inpath)).head? = some '/' := (head_printed _).trans (head_combined hc inpath)
  have hle := length_printed_le (combined cwd inpath)
  have hpush := pushTokens_printed (combined cwd inpath)
  rw [outputPath, hconn, if_neg (by decide), if_neg (fun hn => hn hc)]
  dsimp only
  generalize printed (combined cwd inpath) = buffer at habs hle hpush ⊢
  by_cases hnil : tokens '/' buffer = []
  · rw [if_pos (.inr hnil), resolve, if_pos hnil]
    rfl
  · have hslash : buffer ≠ ['/', '/'] := fun h => hnil (h ▸ rfl)
    rw [if_neg (not_or.mpr ⟨hslash, hnil⟩), hpush]
    have hresolve : resolve buffer = (tokens '/' buffer).foldlM resolveToken [] := if_neg hnil
    rw [← hresolve]
    cases hr : resolve buffer with
    | none => rfl
    | some names =>
      have hfit := (resolve_spec hr habs).2
      rw [length_pathOf] at hfit
      have hshort : ∀ name ∈ names, name.length + 1 < mysqlBuflen := by
        intro name hm
        have hlt := length_lt_joinedLength hm
        unfold mysqlBuflen at hle ⊢
        omega
      dsimp only [Option.elim_some]
      rw [if_pos rfl, List.reverse_reverse, Option.map_some, printNames_eq hshort]

theorem written_of_outputPath {output : Bool} (h : outputPath db inpath cwd output = some block) :
    output = true ∧ db.connected = true ∧ cwd.head? = some '/' := by
  unfold outputPath at h
  split at h
  · cases h
  · next hconn =>
    split at h
    · cases h
    · next hc =>
      dsimp only at h
      split at h
      · cases h
      · split at h
        · cases h
        · split at h
          · next houtput => exact ⟨houtput, by simpa using hconn, not_not.mp hc⟩
          · cases h

/-- A path that is returned is the text of the block; when the block is too small, the function has left it. -/
theorem pathParsing_outputPath (hconn : db.connected = true) (hc : cwd.head? = some '/')
    (h : outputPath db inpath cwd true = some block) :
    ∃ names, resolve (printed (combined cwd inpath)) = some names ∧ block = terminated nul (pathOf names) ∧
      pathParsing db inpath cwd true =
        if block.length ≤ mysqlBuflen then (lookUp db names).map fun id => (id, some (pathOf names))
        else .error .undefined := by
  rw [outputPath_eq hconn hc] at h
  obtain ⟨names, hr, rfl⟩ := Option.map_eq_some_iff.mp h
  refine ⟨names, hr, rfl, ?_⟩
  rw [pathParsing_printed hconn hc, hr, Option.elim_some, length_terminated]
  by_cases hroom : mysqlBuflen ≤ (pathOf names).length
  · rw [if_pos hroom, if_neg (by omega)]
  · rw [if_neg hroom, if_pos (by omega)]

/-- A buffer full of names resolves to them, and their path is longer by the separator at its end. -/
theorem Crowded.resolves (h : Crowded path) (habs : path.head? = some '/') :
    ∃ names, resolve (printed path) = some names ∧ (pathOf names).length = mysqlBuflen := by
  have hfull : (printed path).length = mysqlBuflen - 1 := List.length_take_of_le h.full
  have hnames := h.names
  obtain ⟨rest, hb⟩ := List.head?_eq_some_iff.mp ((head_printed path).trans habs)
  rw [hb, tail_splitOn_cons_self] at hnames
  rw [hb, List.length_cons] at hfull
  have htokens : tokens '/' rest = rest.splitOn '/' :=
    List.filter_eq_self.mpr fun name hm => by simpa using (hnames name hm).nonempty
  refine ⟨rest.splitOn '/', ?_, ?_⟩
  · rw [hb, resolve, tokens_cons_self, htokens, if_neg (List.splitOn_ne_nil _ _), resolveTokens_names hnames,
      List.nil_append]
  · rw [length_pathOf, joinedLength_splitOn, hfull]
    rfl

/-- A path that does not fit is made of the names of a full buffer. -/
theorem crowded_of_resolves (habs : path.head? = some '/') (h : resolve (printed path) = some names)
    (hlen : mysqlBuflen ≤ (pathOf names).length) : Crowded path := by
  have hle := length_printed_le path
  have hpath : (printed path).length ≤ path.length := List.length_take_le' _ _
  obtain ⟨rest, hb⟩ := List.head?_eq_some_iff.mp ((head_printed path).trans habs)
  rw [hb, resolve, tokens_cons_self] at h
  rw [hb, List.length_cons] at hle hpath
  rw [length_pathOf] at hlen
  split at h
  · cases h
  · have hnil : ∀ name ∈ ([] : List (List Char)), FolderName name := fun name hm => absurd hm List.not_mem_nil
    have htokens : ∀ t ∈ tokens '/' rest, t ≠ [] ∧ '/' ∉ t := fun t ht =>
      ⟨ne_nil_of_mem_tokens ht, not_mem_of_mem_tokens ht⟩
    have hroom := (resolveTokens_spec hnil htokens h).2
    have hpieces := joinedLength_tokens '/' rest
    have hzero : joinedLength ([] : List (List Char)) = 0 := rfl
    unfold mysqlBuflen at hle hlen
    -- nothing of the buffer is lost: no piece is empty, and no component is a dot or two
    have hproper := resolveTokens_proper hnil htokens h (by omega)
    have hcount : (rest.splitOn '/').count [] = 0 := by omega
    refine ⟨by unfold mysqlBuflen; omega, ?_⟩
    rw [hb, tail_splitOn_cons_self]
    intro name hm
    have hne : name ≠ [] := fun he => List.count_eq_zero.mp hcount (he ▸ hm)
    exact hproper name (List.mem_filter.mpr ⟨hm, by simpa using hne⟩)

/-- The separator at the end and the zero need two bytes, and one is left. -/
theorem outputPath_crowded (hconn : db.connected = true) (hc : cwd.head? = some '/')
    (h : Crowded (combined cwd inpath)) :
    ∃ block, outputPath db inpath cwd true = some block ∧ block.length = mysqlBuflen + 1 := by
  obtain ⟨names, hr, hlen⟩ := h.resolves (head_combined hc inpath)
  refine ⟨terminated nul (pathOf names), ?_, by rw [length_terminated, hlen]⟩
  rw [outputPath_eq hconn hc, hr, Option.map_some]

/-- No byte is written after the block exactly if the path does not fill the buffer with names. -/
theorem outputPath_fits_iff (db : Ophidiadb) (inpath cwd : List Char) (output : Bool) :
    (∀ block, outputPath db inpath cwd output = some block → block.length ≤ mysqlBuflen) ↔
      (output = true → db.connected = true → cwd.head? = some '/' → ¬ Crowded (combined cwd inpath)) := by
  constructor
  · rintro h rfl hconn hc hcrowded
    obtain ⟨block, hblock, hlen⟩ := outputPath_crowded hconn hc hcrowded
    have hfit := h block hblock
    rw [hlen] at hfit
    exact Nat.not_succ_le_self _ hfit
  · intro h block hblock
    obtain ⟨rfl, hconn, hc⟩ := written_of_outputPath hblock
    rw [outputPath_eq hconn hc] at hblock
    obtain ⟨names, hr, rfl⟩ := Option.map_eq_some_iff.mp hblock
    rw [length_terminated]
    by_contra hlong
    exact h rfl hconn hc (crowded_of_resolves (head_combined hc inpath) hr (by omega))

theorem crowded_replicate : Crowded ('/' :: List.replicate 2046 'a') where
  full := by
    rw [List.length_cons, List.length_replicate]
    decide
  names := by
    have hname := folderName_replicate (by decide : 3 ≤ 2046)
    have hlen : ('/' :: List.replicate 2046 'a').length < mysqlBuflen := by
      rw [List.length_cons, List.length_replicate]
      decide
    rw [printed_eq hlen, tail_splitOn_cons_self, List.splitOn_eq_singleton hname.slash]
    exact fun name hm => List.mem_singleton.mp hm ▸ hname

/-- The path of a name of 2046 characters is written with 2049 bytes. -/
theorem not_fits_2046 : ∃ block,
    outputPath (sqlDb home) ('/' :: List.replicate 2046 'a') ['/'] true = some block ∧ mysqlBuflen < block.length := by
  have habs : combined ['/'] ('/' :: List.replicate 2046 'a') = '/' :: List.replicate 2046 'a' := if_pos rfl
  have hconn : (sqlDb home).connected = true := rfl
  obtain ⟨block, hblock, hlen⟩ := outputPath_crowded hconn rfl (habs ▸ crowded_replicate)
  exact ⟨block, hblock, hlen ▸ Nat.lt_succ_self _⟩

end Output

section LastToken

variable {s input : List Char} {ptr left : List Char} {first : Printing Char} {m : Nat}

theorem countTokens_eq (s : List Char) : countTokens s = (tokens '/' s).length := by
  induction s using countTokens.induct with
  | case1 s h =>
    rw [countTokens, tokens_of_strtok_none h]
    split
    · rfl
    · next h' => cases h.symm.trans h'
  | case2 s t left h ih =>
    rw [countTokens, (tokens_of_strtok h).1, List.length_cons, ← ih]
    split
    · next h' => cases h.symm.trans h'
    · next h' =>
      cases h.symm.trans h'
      rfl

/-- With the count of the components that are left no null pointer is printed, and the last one is reached. -/
theorem copyTokens_eq (hm : (tokens '/' left).length = m) :
    copyTokens m first ptr left =
      .ok (((ptr :: tokens '/' left).dropLast.foldl (fun p t => p.print nul mysqlBuflen (t ++ ['/'])) first).block,
        (Printing.start.print nul mysqlBuflen ((ptr :: tokens '/' left).getLast (List.cons_ne_nil _ _))).block) := by
  induction m generalizing first ptr left with
  | zero =>
    have hnil := List.length_eq_zero_iff.mp hm
    simp only [hnil]
    rfl
  | succ m ih =>
    rw [copyTokens]
    cases hs : strtok '/' left with
    | none =>
      rw [tokens_of_strtok_none hs] at hm
      cases hm
    | some p =>
      obtain ⟨next, rest⟩ := p
      have htokens := (tokens_of_strtok hs).1
      rw [htokens, List.length_cons] at hm
      simp only [htokens]
      exact ih (Nat.succ.inj hm)

theorem tokens_rootPart (input s : List Char) : tokens '/' (rootPart input ++ s) = tokens '/' s := by
  unfold rootPart
  split
  · exact tokens_cons_self '/' s
  · rfl

theorem length_rootPart_le (s : List Char) : (rootPart s).length + joinedLength (tokens '/' s) ≤ s.length + 1 := by
  unfold rootPart
  split
  · next h =>
    obtain ⟨rest, rfl⟩ := List.head?_eq_some_iff.mp h
    have hrest := joinedLength_tokens '/' rest
    rw [tokens_cons_self, List.length_cons, List.length_cons, List.length_nil]
    omega
  · have hs := joinedLength_tokens '/' s
    rw [List.length_nil]
    omega

theorem print_start (h : s.length < mysqlBuflen) :
    (Printing.start.print nul mysqlBuflen s).block = terminated nul s :=
  congrArg Printing.block ((printed_start nul).print_eq h)

/-- Before the loop the block holds what an absolute path begins with. -/
theorem printed_rootPart (input : List Char) :
    Printed nul (if input.head? = some '/' then Printing.start.print nul mysqlBuflen ['/'] else Printing.start)
      (rootPart input) := by
  unfold rootPart
  split
  · rw [(printed_start nul).print_eq (by decide : ['/'].length < mysqlBuflen)]
    exact printed_terminated nul ['/']
  · exact printed_start nul

/-- The parts are not longer than the buffer that is cut. -/
theorem length_parts_le (h : tokens '/' (printed input) ≠ []) :
    (rootPart input).length + joinedLength (tokens '/' (printed input)).dropLast +
      ((tokens '/' (printed input)).getLast h).length ≤ mysqlBuflen - 1 := by
  have hle := length_printed_le input
  have hroot : rootPart (printed input) = rootPart input := by rw [rootPart, rootPart, head_printed]
  have hroom := length_rootPart_le (printed input)
  have hlast := congrArg joinedLength (List.dropLast_append_getLast h)
  have hzero : joinedLength ([] : List (List Char)) = 0 := rfl
  rw [joinedLength_append, joinedLength, hzero] at hlast
  rw [hroot] at hroom
  omega

/-- For every input the blocks hold the components of the buffer: all but the last one, and the last one. -/
theorem strLastToken_eq (h : tokens '/' (printed input) ≠ []) :
    strLastToken input =
      .ok (terminated nul (rootPart input ++ (tokens '/' (printed input)).dropLast.flatMap fun t => t ++ ['/']),
        terminated nul ((tokens '/' (printed input)).getLast h)) := by
  have hparts := length_parts_le h
  have hsize : mysqlBuflen - 1 < mysqlBuflen := by decide
  have hlast : ((tokens '/' (printed input)).getLast h).length < mysqlBuflen := by omega
  have hshort : ∀ t ∈ (tokens '/' (printed input)).dropLast.map (fun t => t ++ ['/']), t.length < mysqlBuflen := by
    intro t ht
    obtain ⟨name, hm, rfl⟩ := List.mem_map.mp ht
    have hlt := length_lt_joinedLength hm
    rw [List.length_append, List.length_singleton]
    omega
  rw [strLastToken]
  dsimp only
  rw [countTokens_eq]
  cases hs : strtok '/' (printed input) with
  | none => exact absurd (tokens_of_strtok_none hs) h
  | some p =>
    obtain ⟨ptr, left⟩ := p
    have htokens := (tokens_of_strtok hs).1
    simp only [htokens] at hlast hshort ⊢
    rw [List.length_cons, if_neg (Nat.succ_ne_zero _)]
    by_cases hleft : tokens '/' left = []
    · have hroot : (rootPart input).length < mysqlBuflen := by omega
      simp only [hleft] at hlast ⊢
      rw [List.length_nil, if_pos rfl]
      refine congrArg Except.ok (Prod.ext ?_ (print_start hlast))
      exact (print_start hroot).trans (congrArg (terminated nul) (List.append_nil _).symm)
    · have hpos := List.length_pos_iff.mpr hleft
      have hne : (ptr :: tokens '/' left).dropLast.map (fun t => t ++ ['/']) ≠ [] := by
        rw [List.dropLast_cons_of_ne_nil hleft, List.map_cons]
        exact List.cons_ne_nil _ _
      have hfirst := (printed_rootPart input).foldl_print hne hshort
      rw [List.foldl_map, ← List.flatMap_def] at hfirst
      rw [if_neg (by omega), Nat.add_sub_cancel, copyTokens_eq rfl, hfirst, print_start hlast]

theorem strLastToken_of_nil (h : tokens '/' (printed input) = []) : strLastToken input = .error .error := by
  rw [strLastToken]
  dsimp only
  rw [countTokens_eq, h, List.length_nil, if_pos rfl]

/-- Whatever the input, the blocks are large enough. -/
theorem strLastToken_fits {blocks : List (Option Char) × List (Option Char)} (h : strLastToken input = .ok blocks) :
    blocks.1.length ≤ mysqlBuflen ∧ blocks.2.length ≤ mysqlBuflen := by
  by_cases hnil : tokens '/' (printed input) = []
  · cases (strLastToken_of_nil hnil).symm.trans h
  · have hparts := length_parts_le hnil
    have hsize : mysqlBuflen - 1 < mysqlBuflen := by decide
    cases (strLastToken_eq hnil).symm.trans h
    rw [length_terminated, length_terminated, List.length_append, length_flatMap_separator]
    omega

/-- The parts that are written split the buffer. -/
theorem splits_printed (h : tokens '/' (printed input) ≠ []) :
    Splits (printed input)
      (rootPart input ++ (tokens '/' (printed input)).dropLast.flatMap fun t => t ++ ['/'])
      ((tokens '/' (printed input)).getLast h) := by
  have hinit : ∀ t ∈ (tokens '/' (printed input)).dropLast, t ≠ [] ∧ '/' ∉ t := fun t ht =>
    have hm := (List.dropLast_sublist _).subset ht
    ⟨ne_nil_of_mem_tokens hm, not_mem_of_mem_tokens hm⟩
  have hfirst : tokens '/' (rootPart input ++ (tokens '/' (printed input)).dropLast.flatMap fun t => t ++ ['/']) =
      (tokens '/' (printed input)).dropLast := by rw [tokens_rootPart, tokens_flatMap hinit]
  refine ⟨?_, ?_, fun hnil => ?_⟩
  · rw [hfirst, List.dropLast_append_getLast h]
  · rw [head_printed, rootPart]
    split
    · next habs => exact iff_of_true rfl habs
    · next hrel =>
      refine iff_of_false (fun hhead => ?_) hrel
      -- a relative path begins with a component, which has no separator
      cases hdrop : (tokens '/' (printed input)).dropLast with
      | nil =>
        rw [hdrop] at hhead
        cases hhead
      | cons t ts =>
        obtain ⟨hne, hslash⟩ := hinit t (hdrop ▸ List.mem_cons_self)
        obtain ⟨c, t, rfl⟩ := List.exists_cons_of_ne_nil hne
        rw [hdrop] at hhead
        cases hhead
        exact hslash List.mem_cons_self
  · rw [hfirst] at hnil
    rw [hnil, List.flatMap_nil, List.append_nil, rootPart, rootPart, head_printed]

/-- A path is split at its last component; one without components is refused. -/
theorem strLastToken_splits (input : List Char) :
    (tokens '/' input = [] → strLastToken input = .error .error) ∧
    (input.length < mysqlBuflen - 1 → tokens '/' input ≠ [] → ∃ first last,
      strLastToken input = .ok (terminated nul first, terminated nul last) ∧ Splits input first last) := by
  constructor
  · intro h
    refine strLastToken_of_nil (tokens_eq_nil_iff.mpr fun x hx => ?_)
    exact tokens_eq_nil_iff.mp h x (List.mem_of_mem_take hx)
  · intro hlen h
    have hprinted : printed input = input := printed_eq (Nat.lt_of_lt_of_le hlen (Nat.sub_le _ _))
    have hne : tokens '/' (printed input) ≠ [] := hprinted.symm ▸ h
    have heq := strLastToken_eq hne
    have hsplits := splits_printed hne
    simp only [hprinted] at heq hsplits
    exact ⟨_, _, heq, hsplits⟩

theorem strLastToken_splits_slashes : ∃ first last,
    strLastToken "//a//b/".toList = .ok (terminated nul first, terminated nul last) ∧
      Splits "//a//b/".toList first last :=
  (strLastToken_splits _).2 (by decide) (by decide)

end LastToken

end OphidiaWorkflow.Folders
