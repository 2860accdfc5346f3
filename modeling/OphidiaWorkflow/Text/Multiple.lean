import OphidiaWorkflow.Text.TaskString

/-!
Lists of values separated by `|`: `oph_tp_parse_multiple_value_param` and `oph_tp_match_value_in_xml_value_list`.

An item is stored in a buffer whose size comes from a first pass over the text. A result `undefined` stands for a write
past the end of a buffer or of the list.
-/
namespace OphidiaWorkflow.TaskString

open Lib

section Parse

/-- The counters of the first pass. -/
structure ItemCount where
  paramNum : Nat := 1
  msize : Nat := 0
  csize : Nat := 0
  deriving DecidableEq, Repr

def ItemCount.step (k : ItemCount) (c : Char) : ItemCount :=
  if c = '|' then ⟨k.paramNum + 1, max k.msize (k.csize + 1), 0⟩ else { k with csize := k.csize + 1 }

/-- The first pass, with the last item counted in. -/
def countItems (values : List Char) : ItemCount :=
  let k := values.foldl ItemCount.step {}
  { k with msize := max k.msize k.csize }

/-- An item and its end are copied to the buffer `j` of `size` characters. -/
def writeItem (size : Nat) (list : List (Option (List Char))) (j : Nat) (item : List Char) :
    Except Failure (List (Option (List Char))) :=
  if j < list.length ∧ item.length < size then .ok (list.set j (some item)) else .error .undefined

/-- The second pass from `ptr_begin` on, at most `fuel` rounds of it. -/
def fillItems (size : Nat) :
    Nat → List (Option (List Char)) → Nat → List Char → Except Failure (List (Option (List Char)))
  | 0, _, _, _ => .error .undefined
  | fuel + 1, list, j, s =>
    match cutAt '|' s with
    | some (item, rest) => (writeItem size list j item).bind fun list => fillItems size fuel list (j + 1) rest
    | none => writeItem size list j s

/-- `oph_tp_parse_multiple_value_param`: the buffers with what has been written to them. -/
def parseMultipleValueParam (values : List Char) : Except Failure (List (Option (List Char))) :=
  if values = [] then .ok []
  else if values.any fun c => c = '=' || c = ';' then .error .parserError
  else
    let k := countItems values
    fillItems (1 + k.msize) (values.length + 1) (List.replicate k.paramNum none) 0 values

variable {values s : List Char} {k : ItemCount}

theorem paramNum_step (k : ItemCount) (c : Char) :
    (k.step c).paramNum = k.paramNum + if c = '|' then 1 else 0 := by
  rw [ItemCount.step]
  split <;> rfl

theorem paramNum_foldl (s : List Char) (k : ItemCount) :
    (s.foldl ItemCount.step k).paramNum = k.paramNum + s.count '|' := by
  induction s generalizing k with
  | nil => rfl
  | cons c s ih =>
    rw [List.foldl_cons, ih, paramNum_step, List.count_cons]
    simp only [beq_iff_eq]
    omega

/-- The buffers have room for the current item with what is left of it, and for every later one. -/
theorem le_msize_foldl {u : List Char} {us : List (List Char)} (h : s.splitOn '|' = u :: us) (k : ItemCount) :
    k.msize ≤ max (s.foldl ItemCount.step k).msize (s.foldl ItemCount.step k).csize ∧
      k.csize + u.length ≤ max (s.foldl ItemCount.step k).msize (s.foldl ItemCount.step k).csize ∧
      ∀ t ∈ us, t.length ≤ max (s.foldl ItemCount.step k).msize (s.foldl ItemCount.step k).csize := by
  induction s generalizing k u us with
  | nil =>
    cases h
    exact ⟨Nat.le_max_left _ _, Nat.le_max_right _ _, List.forall_mem_nil _⟩
  | cons c s ih =>
    rw [List.splitOn_cons_eq_if_modifyHead] at h
    obtain ⟨v, vs, hv⟩ := List.exists_cons_of_ne_nil (List.splitOn_ne_nil '|' s)
    obtain ⟨hmax, hitem, hitems⟩ := ih hv (k.step c)
    rw [hv] at h
    rw [List.foldl_cons]
    split at h
    case isTrue hc =>
      -- the size that is kept counts the separator too, so that it is one too large for the item
      have hstep : k.step c = ⟨k.paramNum + 1, max k.msize (k.csize + 1), 0⟩ := if_pos (by simpa using hc)
      rw [hstep] at hmax hitem hitems ⊢
      dsimp only at hmax hitem
      cases h
      exact ⟨by omega, by rw [List.length_nil]; omega, List.forall_mem_cons.mpr ⟨by omega, hitems⟩⟩
    case isFalse hc =>
      have hstep : k.step c = { k with csize := k.csize + 1 } := if_neg (by simpa using hc)
      rw [hstep] at hmax hitem hitems ⊢
      dsimp only at hmax hitem
      cases h
      exact ⟨hmax, by rw [List.length_cons]; omega, hitems⟩

theorem length_le_msize {item : List Char} (h : item ∈ values.splitOn '|') :
    item.length ≤ (countItems values).msize := by
  obtain ⟨u, us, hu⟩ := List.exists_cons_of_ne_nil (List.splitOn_ne_nil '|' values)
  obtain ⟨-, hitem, hitems⟩ := le_msize_foldl hu {}
  rw [hu] at h
  rcases List.mem_cons.mp h with rfl | h
  · rwa [Nat.zero_add] at hitem
  · exact hitems item h

theorem paramNum_countItems (values : List Char) : (countItems values).paramNum = (values.splitOn '|').length := by
  show (values.foldl ItemCount.step {}).paramNum = _
  rw [paramNum_foldl, length_splitOn, Nat.add_comm]

theorem writeItem_eq {size : Nat} {done rest : List (Option (List Char))} {slot : Option (List Char)} {item : List Char}
    (h : item.length < size) :
    writeItem size (done ++ slot :: rest) done.length item = .ok (done ++ some item :: rest) := by
  rw [writeItem, if_pos ⟨by simp, h⟩, List.set_append_right _ _ (Nat.le_refl _), Nat.sub_self, List.set_cons_zero]

/-- With a buffer for each piece, and room in it, the pieces are stored one after the other. -/
theorem fillItems_eq {size fuel : Nat} (hroom : ∀ item ∈ s.splitOn '|', item.length < size) (hfuel : s.length < fuel)
    (done : List (Option (List Char))) :
    fillItems size fuel (done ++ List.replicate (s.splitOn '|').length none) done.length s =
      .ok (done ++ (s.splitOn '|').map some) := by
  induction fuel generalizing s done with
  | zero => exact absurd hfuel (Nat.not_lt_zero _)
  | succ fuel ih =>
    rw [fillItems]
    cases hcut : cutAt '|' s with
    | none =>
      have hs := splitOn_of_cutAt_none hcut
      rw [hs] at hroom ⊢
      exact writeItem_eq (hroom s List.mem_cons_self)
    | some p =>
      have hs := splitOn_of_cutAt (b := p.1) (a := p.2) hcut
      have hlt := length_lt_of_cutAt (b := p.1) (a := p.2) hcut
      rw [hs] at hroom ⊢
      obtain ⟨hitem, hrest⟩ := List.forall_mem_cons.mp hroom
      have hnext := ih hrest (by omega) (done ++ [some p.1])
      rw [List.length_append, List.length_singleton, List.append_assoc, List.append_assoc] at hnext
      rw [List.length_cons, List.replicate_succ]
      dsimp only
      rw [writeItem_eq hitem]
      exact hnext

/-- The items are as many as the separators and one more, none of an empty text; joined again they are the text; and
each of them is stored with its end in its buffer. -/
theorem parseMultipleValueParam_items (hequal : '=' ∉ values) (hend : ';' ∉ values) :
    ∃ items : List (List Char), parseMultipleValueParam values = .ok (items.map some) ∧
      items.length = (if values = [] then 0 else values.count '|' + 1) ∧ ['|'].intercalate items = values ∧
      ∀ item ∈ items, item.length < 1 + (countItems values).msize := by
  by_cases hv : values = []
  · subst hv
    exact ⟨[], rfl, rfl, rfl, List.forall_mem_nil _⟩
  · have hplain : ¬ (values.any fun c => c = '=' || c = ';') = true := by
      rw [List.any_eq_true]
      rintro ⟨c, hc, h⟩
      rcases Bool.or_eq_true_iff.mp h with h | h
      · exact hequal (of_decide_eq_true h ▸ hc)
      · exact hend (of_decide_eq_true h ▸ hc)
    have hroom : ∀ item ∈ values.splitOn '|', item.length < 1 + (countItems values).msize := fun item hi =>
      Nat.lt_one_add_iff.mpr (length_le_msize hi)
    refine ⟨values.splitOn '|', ?_, ?_, List.intercalate_splitOn '|', hroom⟩
    · rw [parseMultipleValueParam, if_neg hv, if_neg hplain]
      dsimp only
      rw [paramNum_countItems]
      exact fillItems_eq hroom (Nat.lt_succ_self _) []
    · rw [if_neg hv, length_splitOn]

theorem parseMultipleValueParam_items_empty : ∃ items : List (List Char),
    parseMultipleValueParam ['|', 'a', 'b', '|'] = .ok (items.map some) ∧ items.length = 3 ∧
      ['|'].intercalate items = ['|', 'a', 'b', '|'] ∧
      ∀ item ∈ items, item.length < 1 + (countItems ['|', 'a', 'b', '|']).msize :=
  parseMultipleValueParam_items (by decide) (by decide)

end Parse

section Match

/-- `!strncmp(a, b, n)` -/
def agree (n : Nat) (a b : List Char) : Bool := a.take n = b.take n

/-- The loop of `oph_tp_match_value_in_xml_value_list` from `ptr_begin` on, at most `fuel` rounds of it. The value is
compared with the whole rest of the list. -/
def matchItems (value : List Char) : Nat → List Char → Bool
  | 0, _ => false
  | fuel + 1, s =>
    match cutAt '|' s with
    | some (item, rest) => (agree item.length s value && agree value.length s value) || matchItems value fuel rest
    | none => agree s.length s value && agree value.length s value

/-- `oph_tp_match_value_in_xml_value_list`, with its success. -/
def matchValueInXmlValueList (value values : List Char) : Bool := matchItems value (values.length + 1) values

/-- The value is a beginning of what stands in the list from some item on. -/
def Begins (value values : List Char) : Prop :=
  ∃ items, items <:+ values.splitOn '|' ∧ items ≠ [] ∧ value <+: ['|'].intercalate items

variable {value values s : List Char}

theorem agree_left_iff {item rest : List Char} : agree item.length (item ++ rest) value = true ↔ item <+: value := by
  rw [agree, decide_eq_true_iff, List.take_left, List.prefix_iff_eq_take]

theorem agree_value_iff : agree value.length s value = true ↔ value <+: s := by
  rw [agree, decide_eq_true_iff, List.take_length, List.prefix_iff_eq_take, eq_comm]

/-- The two comparisons of an item that is followed by others. -/
theorem agree_item_iff {item rest : List Char} (hitem : '|' ∉ item) :
    (agree item.length (item ++ '|' :: rest) value && agree value.length (item ++ '|' :: rest) value) = true ↔
      value = item ∨ '|' ∈ value ∧ value <+: item ++ '|' :: rest := by
  rw [Bool.and_eq_true, agree_left_iff, agree_value_iff]
  constructor
  · rintro ⟨⟨t, rfl⟩, hvalue⟩
    cases t with
    | nil => exact .inl (List.append_nil item)
    | cons c t =>
      obtain rfl : c = '|' := (List.cons_prefix_cons.mp ((List.prefix_append_right_inj item).mp hvalue)).1
      exact .inr ⟨List.mem_append_right _ List.mem_cons_self, hvalue⟩
  · rintro (rfl | ⟨hbar, hvalue⟩)
    · exact ⟨List.prefix_refl _, List.prefix_append _ _⟩
    · refine ⟨?_, hvalue⟩
      rcases List.prefix_or_prefix_of_prefix hvalue (List.prefix_append item ('|' :: rest)) with h | h
      · exact absurd (h.subset hbar) hitem
      · exact h

/-- The two comparisons of the last item. -/
theorem agree_last_iff : (agree s.length s value && agree value.length s value) = true ↔ value = s := by
  rw [Bool.and_eq_true, agree_value_iff, agree, decide_eq_true_iff, List.take_length, ← List.prefix_iff_eq_take]
  constructor
  · rintro ⟨hs, hvalue⟩
    exact hvalue.eq_of_length_le hs.length_le
  · rintro rfl
    exact ⟨List.prefix_refl _, List.prefix_refl _⟩

theorem begins_of_cutAt {item rest : List Char} (h : cutAt '|' s = some (item, rest)) :
    Begins value s ↔ value <+: s ∨ Begins value rest := by
  have hsplit := splitOn_of_cutAt h
  constructor
  · rintro ⟨items, hsuffix, hne, hvalue⟩
    rw [hsplit, List.suffix_cons_iff] at hsuffix
    rcases hsuffix with rfl | hsuffix
    · rw [← hsplit, List.intercalate_splitOn] at hvalue
      exact .inl hvalue
    · exact .inr ⟨items, hsuffix, hne, hvalue⟩
  · rintro (hvalue | ⟨items, hsuffix, hne, hvalue⟩)
    · exact ⟨s.splitOn '|', List.suffix_refl _, List.splitOn_ne_nil _ _, by rwa [List.intercalate_splitOn]⟩
    · exact ⟨items, hsplit ▸ List.suffix_cons_iff.mpr (.inr hsuffix), hne, hvalue⟩

theorem not_begins_of_bar (hs : cutAt '|' s = none) (hbar : '|' ∈ value) : ¬ Begins value s := by
  rintro ⟨items, hsuffix, hne, hvalue⟩
  rw [splitOn_of_cutAt_none hs, List.suffix_cons_iff, List.suffix_nil] at hsuffix
  rcases hsuffix with rfl | rfl
  · rw [List.intercalate_singleton] at hvalue
    exact not_mem_of_cutAt_none hs (hvalue.subset hbar)
  · exact hne rfl

theorem matchItems_iff {fuel : Nat} (hfuel : s.length < fuel) :
    matchItems value fuel s = true ↔ value ∈ s.splitOn '|' ∨ '|' ∈ value ∧ Begins value s := by
  induction fuel generalizing s with
  | zero => exact absurd hfuel (Nat.not_lt_zero _)
  | succ fuel ih =>
    rw [matchItems]
    cases hcut : cutAt '|' s with
    | none =>
      dsimp only
      rw [agree_last_iff, splitOn_of_cutAt_none hcut, List.mem_singleton]
      exact (or_iff_left fun h => not_begins_of_bar hcut h.1 h.2).symm
    | some p =>
      -- the comparisons are made against the item with all that follows it
      obtain ⟨item, rest⟩ := p
      obtain ⟨hs, hitem⟩ := eq_of_cutAt hcut
      have hlt := length_lt_of_cutAt hcut
      dsimp only
      rw [Bool.or_eq_true, ih (by omega), begins_of_cutAt hcut, splitOn_of_cutAt hcut, List.mem_cons, hs,
        agree_item_iff hitem, and_or_left]
      exact or_or_or_comm

/-- Success is equality with an item exactly if no value that holds a separator begins the list at one of its items. -/
theorem matchValueInXmlValueList_iff (value values : List Char) :
    (matchValueInXmlValueList value values = true ↔ value ∈ values.splitOn '|') ↔
      ¬ ('|' ∈ value ∧ Begins value values) := by
  rw [matchValueInXmlValueList, matchItems_iff (Nat.lt_succ_self _)]
  constructor
  · rintro h ⟨hbar, hbegins⟩
    exact not_mem_of_mem_splitOn (h.mp (.inr ⟨hbar, hbegins⟩)) hbar
  · intro h
    exact or_iff_left h

/-- Two values in a row are taken for one of them. -/
theorem matchValueInXmlValueList_two : ¬ (matchValueInXmlValueList "0|1".toList "0|1|2".toList = true ↔
    "0|1".toList ∈ "0|1|2".toList.splitOn '|') := by
  decide

end Match

end OphidiaWorkflow.TaskString
