import OphidiaWorkflow.Text.TaskString

/-!
What `oph_tp_validate_task_string` promises about the segments of a task string.

The character before the first one is not a separator for the validator, so that it lets through an empty key there.
-/
namespace OphidiaWorkflow.TaskString

open Lib

/-- The string that a buffer holds. -/
def cString (buffer : List Char) : List Char := buffer.takeWhile (· ≠ skipSeparator)

/-- `oph_tp_validate_task_string` on a buffer, read up to its end. -/
def validateTaskString (buffer : List Char) : Bool := validate (cString buffer)

/-- The segments that end with `;` outside skip separators; `seg` is what has been read of the current one. -/
def terminated (skip : Bool) (seg : List Char) : List Char → List (List Char)
  | [] => []
  | c :: s =>
    if c = skipSeparator then terminated (!skip) (seg ++ [c]) s
    else if c = ';' ∧ skip = false then seg :: terminated false [] s
    else terminated skip (seg ++ [c]) s

/-- A list of items that are not empty, or one text in skip separators. -/
def ValidValue (value : List Char) : Prop :=
  (∀ item ∈ value.splitOn '|', item ≠ []) ∨
    ∃ text, skipSeparator ∉ text ∧ value = skipSeparator :: (text ++ [skipSeparator])

/-- A key and a value. -/
def WellFormed (seg : List Char) : Prop :=
  ∃ key value, seg = key ++ '=' :: value ∧ key ≠ [] ∧ '=' ∉ key ∧ value ≠ [] ∧ ValidValue value

/-- The items up to a separator each, and the one that is being read. -/
def joinItems (done : List (List Char)) (last : List Char) : List Char := done.flatMap (· ++ ['|']) ++ last

/-- What the variables of the validator say about the part of a segment that has been read. In the first segment the key
may be empty. -/
inductive Scanned (first : Bool) (st : Validator) : List Char → Prop
  | key (seg : List Char) (hlast : st.lastChar = ';') (hequal : '=' ∉ seg)
      (hempty : seg = [] → first = true ∨ st.previousChar = ';') : Scanned first st seg
  | value (key : List Char) (done : List (List Char)) (last : List Char) (hlast : st.lastChar ≠ ';')
      (hequal : '=' ∉ key) (hempty : key = [] → first = true) (hitems : ∀ item ∈ done, item ≠ [] ∧ '|' ∉ item)
      (hbar : '|' ∉ last) (hprev : last = [] → st.previousChar = '=' ∨ st.previousChar = '|') :
      Scanned first st (key ++ '=' :: joinItems done last)

section Steps

variable {first : Bool} {st st' : Validator} {c : Char} {seg s : List Char}

/-- The validator is outside skip separators. -/
def Outside (st : Validator) : Prop := st.skipFlag = false ∧ st.skipCheck = false

/-- What a round does outside skip separators, at a character that is not one. -/
theorem step_outside (hout : Outside st) (hc : c ≠ skipSeparator) (h : st.step c = some st') :
    Outside st' ∧ st'.previousChar = c ∧
      (c = '=' ∧ st.barred = false ∧ (st.lastChar = ';' ∨ st.lastChar = '=') ∧ st'.lastChar = '=' ∨
        c = ';' ∧ st.barred = false ∧ st.lastChar ≠ ';' ∧ st'.lastChar = ';' ∨
        c = '|' ∧ st.barred = false ∧ st.lastChar ≠ ';' ∧ st'.lastChar = '|' ∨
        c ≠ '=' ∧ c ≠ ';' ∧ c ≠ '|' ∧ st'.lastChar = st.lastChar) := by
  obtain ⟨hflag, hcheck⟩ := hout
  rw [Validator.step, if_neg (by simp [hflag]), if_neg (by simp [hcheck])] at h
  dsimp only at h
  rw [if_neg hc] at h
  split at h
  case isTrue hequal =>
    split at h
    case isTrue => cases h
    case isFalse hn =>
      obtain rfl := Option.some.inj h
      rw [not_or, Bool.not_eq_true] at hn
      exact ⟨⟨hflag, rfl⟩, rfl, .inl ⟨hequal, hn.2, by tauto, rfl⟩⟩
  case isFalse hequal =>
    split at h
    case isTrue hend =>
      split at h
      case isTrue => cases h
      case isFalse hn =>
        obtain rfl := Option.some.inj h
        rw [not_or, not_or, Bool.not_eq_true st.barred] at hn
        exact ⟨⟨hflag, rfl⟩, rfl, .inr (.inl ⟨hend, hn.2.2, hn.2.1, rfl⟩)⟩
    case isFalse hend =>
      split at h
      case isTrue hbar =>
        split at h
        case isTrue => cases h
        case isFalse hn =>
          obtain rfl := Option.some.inj h
          rw [not_or, not_or, Bool.not_eq_true st.barred] at hn
          exact ⟨⟨hflag, rfl⟩, rfl, .inr (.inr (.inl ⟨hbar, hn.2.2, hn.2.1, rfl⟩))⟩
      case isFalse hbar =>
        obtain rfl := Option.some.inj h
        exact ⟨⟨hflag, rfl⟩, rfl, .inr (.inr (.inr ⟨hequal, hend, hbar, rfl⟩))⟩

theorem barred_eq_false_iff : st.barred = false ↔
    st.previousChar ≠ '=' ∧ st.previousChar ≠ '|' ∧ st.previousChar ≠ ';' := by
  simp [Validator.barred, and_assoc]

theorem joinItems_concat (done : List (List Char)) (last : List Char) (c : Char) :
    joinItems done last ++ [c] = joinItems done (last ++ [c]) := List.append_assoc ..

theorem joinItems_bar (done : List (List Char)) (last : List Char) :
    joinItems done last ++ ['|'] = joinItems (done ++ [last]) [] := by
  simp [joinItems]

theorem splitOn_joinItems {done : List (List Char)} {last : List Char} (hdone : ∀ item ∈ done, '|' ∉ item)
    (hlast : '|' ∉ last) : (joinItems done last).splitOn '|' = done ++ [last] := by
  induction done with
  | nil => exact List.splitOn_eq_singleton hlast
  | cons item done ih =>
    obtain ⟨hitem, hdone⟩ := List.forall_mem_cons.mp hdone
    have hcons : joinItems (item :: done) last = item ++ '|' :: joinItems done last := by simp [joinItems]
    rw [hcons, List.splitOn_append_cons_self_of_not_mem hitem, ih hdone]
    rfl

/-- A segment that has been closed, whose key may be empty if it is the first one. -/
def Closed (first : Bool) (seg : List Char) : Prop :=
  ∃ key value, seg = key ++ '=' :: value ∧ (key = [] → first = true) ∧ '=' ∉ key ∧ value ≠ [] ∧
    ∀ item ∈ value.splitOn '|', item ≠ []

/-- A `;` closes the segment, and any other character belongs to it. -/
theorem Scanned.step (h : Scanned first st seg) (hout : Outside st) (hc : c ≠ skipSeparator)
    (hs : st.step c = some st') :
    (c ≠ ';' → Scanned first st' (seg ++ [c])) ∧ (c = ';' → Closed first seg ∧ Scanned false st' []) := by
  obtain ⟨-, hprevious, hcases⟩ := step_outside hout hc hs
  cases h with
  | key seg hlast hequal hempty =>
    -- before the `=` only this one or a character of the key is let through
    rcases hcases with ⟨rfl, hbarred, -, hlast'⟩ | ⟨-, -, hn, -⟩ | ⟨-, -, hn, -⟩ | ⟨he, hend, -, hlast'⟩
    · refine ⟨fun _ => ?_, fun h => absurd h (by decide)⟩
      refine .value seg [] [] (by rw [hlast']; decide) hequal (fun hnil => ?_) (List.forall_mem_nil _) List.not_mem_nil
        fun _ => .inl hprevious
      exact (hempty hnil).resolve_right (barred_eq_false_iff.mp hbarred).2.2
    · exact absurd hlast hn
    · exact absurd hlast hn
    · refine ⟨fun _ => .key _ (hlast'.trans hlast) ?_ fun h => absurd h (by simp), fun h => absurd h hend⟩
      rw [List.mem_append, List.mem_singleton, not_or]
      exact ⟨hequal, Ne.symm he⟩
  | value key done last hlast hequal hempty hitems hbar hprev =>
    -- a separator is let through only after a character of an item
    have hitem (hbarred : st.barred = false) : last ≠ [] := by
      intro hnil
      obtain ⟨h1, h2, -⟩ := barred_eq_false_iff.mp hbarred
      exact (hprev hnil).elim h1 h2
    have hconcat (hne : c ≠ '|') (hl : st'.lastChar ≠ ';') :
        Scanned first st' (key ++ '=' :: joinItems done last ++ [c]) := by
      rw [List.append_assoc, List.cons_append, joinItems_concat]
      refine .value key done (last ++ [c]) hl hequal hempty hitems ?_ fun h => absurd h (by simp)
      rw [List.mem_append, List.mem_singleton, not_or]
      exact ⟨hbar, Ne.symm hne⟩
    rcases hcases with ⟨rfl, -, -, hlast'⟩ | ⟨rfl, hbarred, -, hlast'⟩ | ⟨rfl, hbarred, -, hlast'⟩ |
      ⟨-, hend, hne, hlast'⟩
    · exact ⟨fun _ => hconcat (by decide) (by rw [hlast']; decide), fun h => absurd h (by decide)⟩
    · refine ⟨fun h => absurd rfl h, fun _ => ⟨⟨key, _, rfl, hempty, hequal, ?_, ?_⟩, ?_⟩⟩
      · intro hnil
        exact hitem hbarred (List.append_eq_nil_iff.mp hnil).2
      · rw [splitOn_joinItems (fun item hi => (hitems item hi).2) hbar]
        intro item hi
        rcases List.mem_append.mp hi with hi | hi
        · exact (hitems item hi).1
        · rw [List.mem_singleton.mp hi]
          exact hitem hbarred
      · exact .key [] hlast' List.not_mem_nil fun _ => .inr hprevious
    · refine ⟨fun _ => ?_, fun h => absurd h (by decide)⟩
      rw [List.append_assoc, List.cons_append, joinItems_bar]
      refine .value key _ [] (by rw [hlast']; decide) hequal hempty (fun item hi => ?_) List.not_mem_nil
        fun _ => .inr hprevious
      rcases List.mem_append.mp hi with hi | hi
      · exact hitems item hi
      · rw [List.mem_singleton.mp hi]
        exact ⟨hitem hbarred, hbar⟩
    · exact ⟨fun _ => hconcat hne (by rw [hlast']; exact hlast), fun h => absurd h hend⟩

theorem Closed.wellFormed (h : Closed first seg) (hkey : first = true → seg.head? ≠ some '=') : WellFormed seg := by
  obtain ⟨key, value, rfl, hempty, hequal, hvalue, hitems⟩ := h
  refine ⟨key, value, rfl, ?_, hequal, hvalue, .inl hitems⟩
  rintro rfl
  exact hkey (hempty rfl) rfl

/-- In an accepted string the segments are closed, the first one of them perhaps with an empty key. -/
theorem closed_of_run (hz : skipSeparator ∉ s) (hout : Outside st) (hseg : Scanned first st seg)
    (h : s.foldlM Validator.step st = some st') :
    (∀ t ∈ (terminated false seg s).head?, Closed first t) ∧ ∀ t ∈ (terminated false seg s).tail, Closed false t := by
  induction s generalizing first st seg with
  | nil => exact ⟨fun t ht => (Option.not_mem_none t ht).elim, List.forall_mem_nil _⟩
  | cons c s ih =>
    obtain ⟨hc, hz⟩ := not_or.mp fun hm => hz (List.mem_cons.mpr hm)
    rw [List.foldlM_cons] at h
    obtain ⟨st₁, hstep, hrun⟩ := Option.bind_eq_some_iff.mp h
    have hout₁ := (step_outside hout (Ne.symm hc) hstep).1
    obtain ⟨hinside, hclose⟩ := hseg.step hout (Ne.symm hc) hstep
    rw [terminated, if_neg (Ne.symm hc)]
    by_cases hend : c = ';'
    · obtain ⟨hclosed, hnext⟩ := hclose hend
      obtain ⟨hhead, htail⟩ := ih hz hout₁ hnext hrun
      rw [if_pos ⟨hend, rfl⟩]
      refine ⟨fun t ht => Option.some.inj ht ▸ hclosed, fun t ht => ?_⟩
      rw [List.tail_cons] at ht
      cases hl : terminated false [] s with
      | nil =>
        rw [hl] at ht
        cases ht
      | cons u us =>
        rw [hl] at ht hhead htail
        rcases List.mem_cons.mp ht with rfl | ht
        · exact hhead _ rfl
        · exact htail t ht
    · rw [if_neg fun h => hend h.1]
      exact ih hz hout₁ (hinside hend) hrun

theorem terminated_append {t r : List Char} (hz : skipSeparator ∉ t) (ht : ';' ∉ t) (seg : List Char) :
    terminated false seg (t ++ ';' :: r) = (seg ++ t) :: terminated false [] r := by
  induction t generalizing seg with
  | nil => rw [List.nil_append, terminated, if_neg (by decide), if_pos ⟨rfl, rfl⟩, List.append_nil]
  | cons c t ih =>
    obtain ⟨hc, hz⟩ := not_or.mp fun hm => hz (List.mem_cons.mpr hm)
    obtain ⟨hend, ht⟩ := not_or.mp fun hm => ht (List.mem_cons.mpr hm)
    rw [List.cons_append, terminated, if_neg (Ne.symm hc), if_neg fun h => hend h.1.symm, ih hz ht, List.append_assoc,
      List.singleton_append]

theorem terminated_eq_nil (hz : skipSeparator ∉ s) (hs : ';' ∉ s) (seg : List Char) : terminated false seg s = [] := by
  induction s generalizing seg with
  | nil => rfl
  | cons c s ih =>
    obtain ⟨hc, hz⟩ := not_or.mp fun hm => hz (List.mem_cons.mpr hm)
    obtain ⟨hend, hs⟩ := not_or.mp fun hm => hs (List.mem_cons.mpr hm)
    rw [terminated, if_neg (Ne.symm hc), if_neg fun h => hend h.1.symm]
    exact ih hz hs _

end Steps

/-- In an accepted string all segments are a key and a value, unless the first of them begins with its `=`. -/
theorem validateTaskString_wellFormed_iff {buffer : List Char} (h : validateTaskString buffer = true) :
    (∀ seg ∈ terminated false [] (cString buffer), WellFormed seg) ↔
      ¬ ((cString buffer).head? = some '=' ∧ ';' ∈ cString buffer) := by
  have hz : skipSeparator ∉ cString buffer := fun hm => by simpa using List.mem_takeWhile_imp hm
  obtain ⟨st, hrun, -⟩ := (Option.any_eq_true _ _).mp h
  have hclosed := closed_of_run hz ⟨rfl, rfl⟩ (.key [] rfl List.not_mem_nil fun _ => .inl rfl) hrun
  by_cases hend : ';' ∈ cString buffer
  · obtain ⟨t, r, hs, ht⟩ := List.eq_append_cons_of_mem hend
    have hzt : skipSeparator ∉ t := fun hm => hz (hs ▸ List.mem_append_left _ hm)
    rw [hs, terminated_append hzt ht [], List.nil_append] at hclosed ⊢
    obtain ⟨hfirst, hrest⟩ := hclosed
    rw [List.forall_mem_cons, and_iff_left (List.mem_append_right _ List.mem_cons_self)]
    constructor
    · rintro ⟨⟨key, value, rfl, hkey, hequal, -⟩, -⟩ hhead
      cases key with
      | nil => exact hkey rfl
      | cons c key => exact hequal (Option.some.inj hhead ▸ List.mem_cons_self)
    · intro hhead
      refine ⟨(hfirst t rfl).wellFormed fun _ he => hhead ?_,
        fun seg hseg => (hrest seg hseg).wellFormed fun hf => by cases hf⟩
      rw [List.head?_append, he]
      rfl
  · rw [terminated_eq_nil hz hend]
    exact iff_of_true (List.forall_mem_nil _) fun hn => hend hn.2

theorem validateTaskString_wellFormed_two :
    (∀ seg ∈ terminated false [] (cString "a=1|2;b=x=2;".toList), WellFormed seg) ↔
      ¬ ((cString "a=1|2;b=x=2;".toList).head? = some '=' ∧ ';' ∈ cString "a=1|2;b=x=2;".toList) :=
  validateTaskString_wellFormed_iff (by decide +kernel)

/-- The key of the first segment may be empty. -/
theorem not_wellFormed_first : ¬ (validateTaskString "=v;".toList = true →
    ∀ seg ∈ terminated false [] (cString "=v;".toList), WellFormed seg) := by
  intro h
  obtain ⟨key, value, hseg, hkey, hequal, -⟩ := h (by decide) ['=', 'v'] (by decide)
  cases key with
  | nil => exact hkey rfl
  | cons c key => exact hequal ((List.cons.inj hseg).1 ▸ List.mem_cons_self)

end OphidiaWorkflow.TaskString
