import Mathlib.Algebra.Order.BigOperators.Group.List
import Mathlib.Algebra.Order.Group.Nat
import Mathlib.Algebra.Ring.Nat
import Mathlib.Data.List.Dedup
import OphidiaWorkflow.Lib.Cut
import OphidiaWorkflow.Lib.Loops

/-!
The roles of a user in a session, as a number and as a text: `oph_code_role`, `oph_code_role_string`,
`oph_string_to_role` and `oph_role_to_string`.

The number is a sum that is not bounded here. Beyond the range of `int` it is undefined, and no role.
-/
namespace OphidiaWorkflow.Auth

open Lib

/-- `OPH_ROLE_*` -/
inductive Role
  | read | write | execute | admin | owner
  deriving DecidableEq, Repr

namespace Role

def all : List Role := [read, write, execute, admin, owner]

def value : Role → Nat
  | read => 1
  | write => 2
  | execute => 4
  | admin => 8
  | owner => 16

/-- `OPH_ROLE_*_STR` -/
def text : Role → List Char
  | read => "read".toList
  | write => "write".toList
  | execute => "execute".toList
  | admin => "admin".toList
  | owner => "owner".toList

/-- The first character of the text. -/
def letter : Role → Char
  | read => 'r'
  | write => 'w'
  | execute => 'e'
  | admin => 'a'
  | owner => 'o'

/-- Where the letter stands in a text of all the roles. -/
def place : Role → Nat
  | read => 0
  | write => 1
  | execute => 2
  | admin => 3
  | owner => 4

/-- The role with all that it implies. -/
def implied : Role → List Role
  | read => [read]
  | write => [write, read]
  | execute => [execute]
  | admin => [admin, execute, write, read]
  | owner => [owner, admin, execute, write, read]

end Role

/-- `OPH_ROLE_NULL_STR` -/
def nullRoles : List Char := "-----".toList

/-- `owner`, `admin` and `writer` -/
structure Flags where
  owner : Bool := false
  admin : Bool := false
  writer : Bool := false
  deriving DecidableEq, Repr

/-- The comparisons of a name with each of the roles: the flags, `found`, and the roles that are granted. -/
def Flags.compare (f : Flags) (is : Role → Bool) : Flags × Bool × List Role :=
  let owner := f.owner || is .owner
  let isAdmin := owner || is .admin
  let admin := f.admin || isAdmin
  let isExecute := admin || is .execute
  let isWrite := admin || is .write
  let writer := f.writer || isWrite
  let isRead := writer || is .read
  (⟨owner, admin, writer⟩,
    is .owner || (isAdmin && !owner) || (isExecute && !admin) || (isWrite && !admin) || (isRead && !writer),
    (if is .owner then [.owner] else []) ++ (if isAdmin then [.admin] else []) ++
      (if isExecute then [.execute] else []) ++ (if isWrite then [.write] else []) ++ if isRead then [.read] else [])

section Code

variable {α : Type} (add : α → Role → α)

/-- The loop over the letters of a name; the flags are reset for each of them. -/
def codeLetters : List Char → Flags × α → Option (Flags × α)
  | [], p => some p
  | c :: cs, p =>
    let g := Flags.compare {} fun r => c = r.letter
    if g.2.1 then codeLetters cs (g.1, g.2.2.foldl add p.2) else none

/-- One round of the loop over the names; the flags are those that the name before has left. -/
def codeToken (p : Flags × α) (name : List Char) : Option (Flags × α) :=
  let g := p.1.compare fun r => name = r.text
  if g.2.1 then some (g.1, g.2.2.foldl add p.2) else codeLetters add name (g.1, g.2.2.foldl add p.2)

/-- What `oph_code_role` and `oph_code_role_string` have in common. -/
def codeRoles (start : α) (s : List Char) : Option α :=
  ((tokens '|' s).foldlM (codeToken add) ({}, start)).map Prod.snd

end Code

/-- `oph_code_role` -/
def codeRole (s : List Char) : Nat := (codeRoles (fun n r => n + r.value) 0 s).getD 0

/-- `oph_code_role_string` -/
def codeRoleString (s : List Char) : Option (List Char) :=
  codeRoles (fun t r => t.set r.place r.letter) nullRoles s

/-- `oph_string_to_role`, on a text of five characters. -/
def stringToRole (t : List Char) : Nat :=
  let has (r : Role) : Bool := t[r.place]? = some r.letter
  let owner := has .owner
  let admin := owner || has .admin
  let writer := admin || has .write
  (if owner then Role.owner.value else 0) + (if admin then Role.admin.value else 0) +
    (if admin || has .execute then Role.execute.value else 0) + (if writer then Role.write.value else 0) +
    if writer || has .read then Role.read.value else 0

/-- `oph_role_to_string` -/
def roleToString (role : Nat) : List Char :=
  let has (r : Role) : Bool := role &&& r.value ≠ 0
  let owner := has .owner
  let admin := owner || has .admin
  let writer := admin || has .write
  [if writer || has .read then 'r' else '-', if writer then 'w' else '-',
    if admin || has .execute then 'e' else '-', if admin then 'a' else '-', if owner then 'o' else '-']

/-- The roles that a name stands for, one after the other. -/
def rolesOf (name : List Char) : Option (List Role) :=
  match Role.all.find? fun r => name = r.text with
  | some r => some [r]
  | none => name.mapM fun c => Role.all.find? fun r => c = r.letter

/-- The number of a set of roles. -/
def roleSum (p : Role → Bool) : Nat := ((Role.all.filter p).map Role.value).sum

/-- The roles that the names of a text stand for, none if a name is unknown. -/
def names (s : List Char) : Option (List (List Role)) := (tokens '|' s).mapM rolesOf

/-- The union of the roles that are named, with all that they imply. -/
def union (s : List Char) : Nat := (names s).elim 0 fun ns => roleSum (· ∈ ns.flatten.flatMap Role.implied)

/-- The names do not overlap: no role is named twice or implied by another one, and `write` ends none but the last. -/
def Separate (ns : List (List Role)) : Prop :=
  (ns.flatten.flatMap Role.implied).Nodup ∧ ∀ rs ∈ ns.dropLast, rs.getLast? ≠ some .write

example : codeRole "read|read".toList = Role.write.value := by decide
example : codeRole "execute|write".toList = union "execute|write".toList := by decide
example : codeRole "write|execute".toList = Role.admin.value := by decide
example : codeRole "owner|admin".toList = 0 := by decide


variable {f : Flags} {r : Role} {name : List Char} {l : List Role}

namespace Role

theorem mem_all (r : Role) : r ∈ all := by cases r <;> decide

theorem text_inj {r r' : Role} (h : r.text = r'.text) : r = r' := by
  cases r <;> cases r' <;> first | rfl | exact absurd h (by decide)

theorem letter_inj {r r' : Role} (h : r.letter = r'.letter) : r = r' := by
  cases r <;> cases r' <;> first | rfl | exact absurd h (by decide)

theorem find?_eq_some_iff {β : Type*} [DecidableEq β] {g : Role → β} (hg : ∀ r r', g r = g r' → r = r') {x : β} :
    (all.find? fun r => x = g r) = some r ↔ x = g r := by
  constructor
  · intro h
    simpa using List.find?_some h
  · rintro rfl
    obtain ⟨r', hr'⟩ := Option.isSome_iff_exists.mp (List.find?_isSome.mpr ⟨r, mem_all r, by simp⟩ :
      (all.find? fun r' => g r = g r').isSome)
    rw [hr', hg r r' (by simpa using List.find?_some hr')]

theorem decide_eq_of_find? {β : Type*} [DecidableEq β] {g : Role → β} (hg : ∀ r r', g r = g r' → r = r') {x : β}
    (h : (all.find? fun r => x = g r) = some r) : (fun r' => decide (x = g r')) = (decide <| r = ·) := by
  funext r'
  rw [(find?_eq_some_iff hg).mp h, decide_eq_decide]
  exact ⟨hg r r', congrArg g⟩

theorem find?_eq_none_iff {β : Type*} [DecidableEq β] {g : Role → β} {x : β} :
    (all.find? fun r => x = g r) = none ↔ (fun r => decide (x = g r)) = fun _ => false := by
  rw [List.find?_eq_none]
  constructor
  · intro h
    funext r
    simpa using h r (mem_all r)
  · intro h r _
    rw [congrFun h r]
    exact Bool.false_ne_true

end Role

/-- The flags after a role. -/
def Flags.of (r : Role) : Flags := (Flags.compare {} (decide <| r = ·)).1

theorem compare_clear (r : Role) : Flags.compare {} (decide <| r = ·) = (.of r, true, r.implied) := by
  cases r <;> rfl

theorem compare_false (f : Flags) : (f.compare fun _ => false).2.1 = false := by
  rcases f with ⟨_ | _, _ | _, _ | _⟩ <;> rfl

theorem implied_sublist_compare (f : Flags) (r : Role) : r.implied.Sublist (f.compare (decide <| r = ·)).2.2 := by
  rcases f with ⟨_ | _, _ | _, _ | _⟩ <;> cases r <;> decide

theorem read_mem_compare (is : Role → Bool) (h : f.writer = true) : .read ∈ (f.compare is).2.2 := by
  simp [Flags.compare, h]

theorem writer_compare_write (f : Flags) : (f.compare (decide <| Role.write = ·)).1.writer = true := by
  simp [Flags.compare]

/-- The flags after the letters of a name. -/
def Flags.last (f : Flags) (rs : List Role) : Flags := rs.getLast?.elim f .of

theorem foldl_push (l k : List Role) : k.foldl (fun l r => l ++ [r]) l = l ++ k := by
  induction k generalizing l with
  | nil => exact (List.append_nil l).symm
  | cons r k ih => rw [List.foldl_cons, ih, List.append_assoc, List.singleton_append]

theorem codeLetters_eq (f : Flags) (l : List Role) (cs : List Char) :
    codeLetters (fun l r => l ++ [r]) cs (f, l) =
      (cs.mapM fun c => Role.all.find? fun r => c = r.letter).map
        fun rs => (f.last rs, l ++ rs.flatMap Role.implied) := by
  induction cs generalizing f l with
  | nil => simp [codeLetters, Flags.last]
  | cons c cs ih =>
    rw [List.mapM_cons]
    cases hc : Role.all.find? fun r => c = r.letter with
    | none =>
      simp only [codeLetters, Role.find?_eq_none_iff.mp hc, compare_false]
      rfl
    | some r =>
      have he := Role.decide_eq_of_find? (fun _ _ => Role.letter_inj) hc
      simp only [codeLetters, he, compare_clear, if_true, ih, foldl_push, List.append_assoc]
      cases cs.mapM fun c => Role.all.find? fun r => c = r.letter with
      | none => rfl
      | some rs =>
        -- the letters that follow decide on the flags, if there is any
        cases rs with
        | nil => rfl
        | cons r' rs => simp [Flags.last, List.getLast?_cons]

theorem rolesOf_text (r : Role) : rolesOf r.text = some [r] := by
  rw [rolesOf, (Role.find?_eq_some_iff fun _ _ => Role.text_inj).mpr rfl]

theorem mapM_text (r : Role) : (r.text.mapM fun c => Role.all.find? fun r => c = r.letter) = none := by
  cases r <;> decide

theorem codeToken_eq_some {p : Flags × List Role} (h : codeToken (fun l r => l ++ [r]) (f, l) name = some p) :
    ∃ rs k, rolesOf name = some rs ∧ p.2 = l ++ k ∧ (rs.flatMap Role.implied).Sublist k ∧
      (f.writer = true → .read ∈ k) ∧ (rs.getLast? = some .write → p.1.writer = true) := by
  unfold codeToken at h
  simp only [foldl_push] at h
  cases hn : Role.all.find? fun r => name = r.text with
  | some r =>
    -- a role that the flags hide is read letter by letter, and no text of a role consists of letters of roles
    have he := Role.decide_eq_of_find? (fun _ _ => Role.text_inj) hn
    obtain rfl := (Role.find?_eq_some_iff fun _ _ => Role.text_inj).mp hn
    simp only [he, codeLetters_eq, mapM_text, Option.map_none, Option.ite_none_right_eq_some] at h
    obtain ⟨-, hp⟩ := h
    cases hp
    refine ⟨[r], _, rolesOf_text r, rfl, ?_, read_mem_compare _, ?_⟩
    · rw [List.flatMap_singleton]
      exact implied_sublist_compare f r
    · intro hr
      obtain rfl : r = .write := Option.some.inj hr
      exact writer_compare_write f
  | none =>
    simp only [Role.find?_eq_none_iff.mp hn, compare_false, codeLetters_eq, Bool.false_eq_true, if_false,
      Option.map_eq_some_iff] at h
    obtain ⟨rs, hrs, rfl⟩ := h
    refine ⟨rs, _, ?_, (List.append_assoc _ _ _), List.sublist_append_right _ _, ?_, ?_⟩
    · rw [rolesOf, hn]
      exact hrs
    · intro hf
      exact List.mem_append_left _ (read_mem_compare _ hf)
    · intro hr
      simp only [Flags.last, hr, Option.elim_some]
      decide

theorem codeToken_clear {rs : List Role} (h : rolesOf name = some rs) :
    codeToken (fun l r => l ++ [r]) ({}, l) name = some (Flags.last {} rs, l ++ rs.flatMap Role.implied) := by
  unfold codeToken
  cases hn : Role.all.find? fun r => name = r.text with
  | some r =>
    have he := Role.decide_eq_of_find? (fun _ _ => Role.text_inj) hn
    rw [rolesOf, hn] at h
    obtain rfl := Option.some.inj h
    simp only [he, compare_clear, if_true, foldl_push, List.flatMap_singleton]
    rfl
  | none =>
    rw [rolesOf, hn] at h
    simp only [Role.find?_eq_none_iff.mp hn, compare_false, codeLetters_eq, Bool.false_eq_true, if_false, h,
      Option.map_some, foldl_push]
    exact congrArg (fun k => some (Flags.last {} rs, k ++ rs.flatMap Role.implied)) (List.append_nil l)

/-- The roles that are granted, in order. -/
def grants (s : List Char) : Option (List Role) := codeRoles (fun l r => l ++ [r]) [] s

section Add

variable {α : Type} (add : α → Role → α) (a : α)

theorem codeLetters_foldl (f : Flags) (l : List Role) (cs : List Char) :
    codeLetters add cs (f, l.foldl add a) =
      (codeLetters (fun l r => l ++ [r]) cs (f, l)).map fun p => (p.1, p.2.foldl add a) := by
  induction cs generalizing f l with
  | nil => rfl
  | cons c cs ih =>
    simp only [codeLetters, foldl_push, ← List.foldl_append, ih]
    split <;> rfl

theorem codeToken_foldl (f : Flags) (l : List Role) (name : List Char) :
    codeToken add (f, l.foldl add a) name =
      (codeToken (fun l r => l ++ [r]) (f, l) name).map fun p => (p.1, p.2.foldl add a) := by
  simp only [codeToken, foldl_push, ← List.foldl_append, codeLetters_foldl]
  split <;> rfl

theorem codeRoles_eq (s : List Char) : codeRoles add a s = (grants s).map (List.foldl add a) := by
  have key : ∀ (ts : List (List Char)) f l, ts.foldlM (codeToken add) (f, l.foldl add a) =
      (ts.foldlM (codeToken fun l r => l ++ [r]) (f, l)).map fun p => (p.1, p.2.foldl add a) := by
    intro ts
    induction ts with
    | nil => exact fun _ _ => rfl
    | cons t ts ih =>
      intro f l
      rw [List.foldlM_cons, List.foldlM_cons, codeToken_foldl]
      cases codeToken (fun l r => l ++ [r]) (f, l) t with
      | none => rfl
      | some p => exact ih p.1 p.2
  have h := key (tokens '|' s) {} []
  rw [List.foldl_nil] at h
  rw [codeRoles, h, grants, codeRoles, Option.map_map, Option.map_map]
  rfl

end Add

theorem codeRole_eq (s : List Char) : codeRole s = (grants s).elim 0 fun l => (l.map Role.value).sum := by
  have h : ∀ (l : List Role) n, l.foldl (fun n r => n + r.value) n = n + (l.map Role.value).sum := by
    intro l
    induction l with
    | nil => exact fun _ => rfl
    | cons r l ih =>
      intro n
      rw [List.foldl_cons, ih, List.map_cons, List.sum_cons, Nat.add_assoc]
  rw [codeRole, codeRoles_eq]
  cases grants s with
  | none => rfl
  | some l => exact (h l 0).trans (Nat.zero_add _)

/-- What the loop over the names grants when it ends well: at least what they stand for, and `read` after each
`write`. -/
theorem foldlM_eq_some {ts : List (List Char)} {p : Flags × List Role}
    (h : ts.foldlM (codeToken fun l r => l ++ [r]) (f, l) = some p) :
    ∃ ns k, List.Forall₂ (rolesOf · = some ·) ts ns ∧ p.2 = l ++ k ∧ (ns.flatten.flatMap Role.implied).Sublist k ∧
      (f.writer = true → ts ≠ [] → .read ∈ k) ∧ (k.Nodup → ∀ rs ∈ ns.dropLast, rs.getLast? ≠ some .write) := by
  induction ts generalizing f l with
  | nil =>
    cases h
    exact ⟨[], [], .nil, (List.append_nil l).symm, List.Sublist.refl _, fun _ h => absurd rfl h,
      fun _ _ h => by cases h⟩
  | cons t ts ih =>
    rw [List.foldlM_cons] at h
    obtain ⟨⟨f', l'⟩, ht, h⟩ := Option.bind_eq_some_iff.mp h
    obtain ⟨rs, k, hrs, rfl, hk, hread, hwrite⟩ := codeToken_eq_some ht
    obtain ⟨ns, k', hns, hp, hk', hread', hnodup⟩ := ih h
    refine ⟨rs :: ns, k ++ k', .cons hrs hns, ?_, ?_, ?_, ?_⟩
    · rw [hp, List.append_assoc]
    · rw [List.flatten_cons, List.flatMap_append]
      exact hk.append hk'
    · intro hf _
      exact List.mem_append_left k' (hread hf)
    · intro hn
      cases hns with
      | nil => exact fun _ h => by cases h
      | cons _ _ =>
        rw [List.nodup_append] at hn
        intro us hus
        rw [List.dropLast_cons_cons] at hus
        rcases List.mem_cons.mp hus with rfl | hus
        · -- `read` is granted with `write` and again with the next name
          intro hw
          have h1 : Role.read ∈ k := hk.subset (List.mem_flatMap.mpr ⟨_, List.mem_of_getLast? hw, by decide⟩)
          exact hn.2.2 _ h1 _ (hread' (hwrite hw) (List.cons_ne_nil _ _)) rfl
        · exact hnodup hn.2.1 us hus

theorem ne_nil_of_rolesOf {rs : List Role} (h : rolesOf name = some rs) (hn : name ≠ []) : rs ≠ [] := by
  rintro rfl
  unfold rolesOf at h
  split at h
  · cases h
  · rw [mapM_eq_some_iff, List.forall₂_nil_right_iff] at h
    exact hn h

/-- No flag is left when another name that does not overlap follows. -/
theorem last_eq_clear {rs rs' : List Role} (hn : rs ≠ []) (hn' : rs' ≠ []) (hw : rs.getLast? ≠ some .write)
    (hd : List.Disjoint (rs.flatMap Role.implied) (rs'.flatMap Role.implied)) : Flags.last {} rs = {} := by
  have hl := List.getLast?_eq_some_getLast hn
  have hm := List.getLast_mem hn
  have hadmin : ∀ r : Role, .admin ∈ r.implied → r ∉ rs := by
    intro r hr hrs
    obtain ⟨r', rs', rfl⟩ := List.exists_cons_of_ne_nil hn'
    have hx : ∃ x ∈ r.implied, x ∈ r'.implied := by
      cases r <;> cases r' <;> first | exact absurd hr (by decide) | exact ⟨.admin, by decide⟩ | exact ⟨.read, by decide⟩ | exact ⟨.execute, by decide⟩
    obtain ⟨x, hx, hx'⟩ := hx
    exact hd (List.mem_flatMap.mpr ⟨r, hrs, hx⟩) (List.mem_flatMap.mpr ⟨r', List.mem_cons_self, hx'⟩)
  rw [Flags.last, hl, Option.elim_some]
  cases hr : rs.getLast hn with
  | read => rfl
  | execute => rfl
  | write => exact absurd (hr ▸ hl) hw
  | admin => exact absurd (hr ▸ hm) (hadmin .admin (by decide))
  | owner => exact absurd (hr ▸ hm) (hadmin .owner (by decide))

theorem Separate.tail {rs : List Role} {ns : List (List Role)} (h : Separate (rs :: ns)) : Separate ns := by
  constructor
  · have hn := h.1
    rw [List.flatten_cons, List.flatMap_append] at hn
    exact (List.nodup_append.mp hn).2.1
  · intro us hus
    cases ns with
    | nil => cases hus
    | cons rs' ns =>
      apply h.2
      rw [List.dropLast_cons_cons]
      exact List.mem_cons_of_mem _ hus

theorem foldlM_separate {ts : List (List Char)} {ns : List (List Role)} (h : List.Forall₂ (rolesOf · = some ·) ts ns)
    (hts : ∀ t ∈ ts, t ≠ []) (hn : Separate ns) :
    (ts.foldlM (codeToken fun l r => l ++ [r]) ({}, l)).map Prod.snd = some (l ++ ns.flatten.flatMap Role.implied) := by
  induction h generalizing l with
  | nil => exact congrArg some (List.append_nil l).symm
  | @cons t rs ts ns hrs hns ih =>
    rw [List.foldlM_cons, codeToken_clear hrs, List.flatten_cons, List.flatMap_append, ← List.append_assoc]
    have ht := fun u hu => hts u (List.mem_cons_of_mem t hu)
    cases hns with
    | nil => simp
    | @cons t' rs' ts ns hrs' hns =>
      have hd := hn.1
      rw [List.flatten_cons, List.flatMap_append, List.flatten_cons, List.flatMap_append] at hd
      have hclear := last_eq_clear (ne_nil_of_rolesOf hrs (hts t List.mem_cons_self))
        (ne_nil_of_rolesOf hrs' (ht t' List.mem_cons_self)) (hn.2 rs (by simp))
        fun x hx hx' => List.disjoint_of_nodup_append hd hx (List.mem_append_left _ hx')
      rw [hclear]
      exact ih ht hn.tail

theorem roleSum_of_nodup (h : l.Nodup) : roleSum (· ∈ l) = (l.map Role.value).sum := by
  apply List.Perm.sum_eq
  apply List.Perm.map
  refine (List.perm_ext_iff_of_nodup (List.Nodup.filter _ (by decide)) h).mpr fun r => ?_
  rw [List.mem_filter, decide_eq_true_iff]
  exact and_iff_right (Role.mem_all r)

theorem eq_of_sublist_of_sum {l' : List Role} (h : l'.Sublist l)
    (hs : (l.map Role.value).sum = (l'.map Role.value).sum) :
    l' = l := by
  induction h with
  | slnil => rfl
  | @cons l' l r h ih =>
    have hle := (h.map Role.value).sum_le_sum fun _ _ => Nat.zero_le _
    have hpos : 0 < r.value := by cases r <;> decide
    rw [List.map_cons, List.sum_cons] at hs
    omega
  | @cons_cons l' l r h ih =>
    rw [List.map_cons, List.sum_cons, List.map_cons, List.sum_cons] at hs
    rw [ih (Nat.add_left_cancel hs)]

/-- Roles that are granted more than once do not sum up to a set of roles. -/
theorem nodup_of_sum {l' : List Role} (h : l'.Sublist l) (hs : (l.map Role.value).sum = roleSum (· ∈ l')) :
    l.Nodup := by
  have hd := roleSum_of_nodup l'.nodup_dedup
  have he : roleSum (· ∈ l'.dedup) = roleSum (· ∈ l') := by simp only [List.mem_dedup]
  rw [← eq_of_sublist_of_sum ((List.dedup_sublist l').trans h) (by rw [hs, ← he, hd])]
  exact l'.nodup_dedup

theorem place_inj {r r' : Role} (h : r.place = r'.place) : r = r' := by
  cases r <;> cases r' <;> first | rfl | exact absurd h (by decide)

theorem getElem?_foldl_set (t : List Char) (ht : t.length = 5) :
    (l.foldl (fun t r => t.set r.place r.letter) t)[r.place]? = some r.letter ↔ r ∈ l ∨ t[r.place]? = some r.letter := by
  induction l generalizing t with
  | nil => simp
  | cons r' l ih =>
    rw [List.foldl_cons, ih _ (by rw [List.length_set, ht]), List.mem_cons, List.getElem?_set]
    by_cases hr : r = r'
    · have hp : r'.place < t.length := by
        rw [ht]
        cases r' <;> decide
      simp [hr, hp]
    · rw [if_neg fun hp => hr (place_inj hp).symm]
      simp [hr]

theorem getElem?_nullRoles (r : Role) : nullRoles[r.place]? ≠ some r.letter := by cases r <;> decide

theorem stringToRole_foldl_set (ns : List Role) :
    stringToRole ((ns.flatMap Role.implied).foldl (fun t r => t.set r.place r.letter) nullRoles) =
      roleSum (· ∈ ns.flatMap Role.implied) := by
  have hc : ∀ r r' : Role, r' ∈ r.implied → r ∈ ns.flatMap Role.implied → r' ∈ ns.flatMap Role.implied := by
    intro r r' hr h
    obtain ⟨u, hu, hru⟩ := List.mem_flatMap.mp h
    refine List.mem_flatMap.mpr ⟨u, hu, ?_⟩
    revert hr hru
    cases u <;> cases r <;> cases r' <;> decide
  have h1 := hc .owner .admin (by decide)
  have h2 := hc .admin .execute (by decide)
  have h3 := hc .admin .write (by decide)
  have h4 := hc .write .read (by decide)
  simp only [stringToRole, getElem?_foldl_set nullRoles rfl, getElem?_nullRoles, or_false, roleSum, Role.all]
  generalize ns.flatMap Role.implied = g at *
  by_cases ho : Role.owner ∈ g <;> by_cases ha : Role.admin ∈ g <;> by_cases he : Role.execute ∈ g <;>
    by_cases hw : Role.write ∈ g <;> by_cases hr : Role.read ∈ g <;> simp_all <;> decide

theorem grants_eq_some {s : List Char} (h : grants s = some l) :
    ∃ ns, names s = some ns ∧ (ns.flatten.flatMap Role.implied).Sublist l ∧
      (l.Nodup → ∀ rs ∈ ns.dropLast, rs.getLast? ≠ some .write) := by
  obtain ⟨p, hp, rfl⟩ := Option.map_eq_some_iff.mp h
  obtain ⟨ns, k, hns, hk, hsub, -, hw⟩ := foldlM_eq_some hp
  rw [List.nil_append] at hk
  exact ⟨ns, mapM_eq_some_iff.mpr hns, hk ▸ hsub, hk ▸ hw⟩

theorem grants_eq_none {s : List Char} (h : names s = none) : grants s = none := by
  cases hg : grants s with
  | none => rfl
  | some l =>
    obtain ⟨ns, hns, -⟩ := grants_eq_some hg
    rw [h] at hns
    cases hns

theorem grants_of_separate {s : List Char} {ns : List (List Role)} (h : names s = some ns) (hn : Separate ns) :
    grants s = some (ns.flatten.flatMap Role.implied) := by
  have hg := foldlM_separate (l := []) (mapM_eq_some_iff.mp h) (fun _ => ne_nil_of_mem_tokens) hn
  rwa [List.nil_append] at hg

theorem separate_of_codeRole {s : List Char} {ns : List (List Role)} (h : names s = some ns)
    (hu : codeRole s = roleSum (· ∈ ns.flatten.flatMap Role.implied)) : Separate ns := by
  rw [codeRole_eq] at hu
  cases hg : grants s with
  | none =>
    -- no role is granted, so no role is named
    rw [hg, Option.elim_none] at hu
    have hnil := eq_of_sublist_of_sum (List.nil_sublist (ns.flatten.flatMap Role.implied).dedup) (by
      rw [← roleSum_of_nodup (List.nodup_dedup _)]
      simp only [List.mem_dedup]
      exact hu.symm)
    have hflat : ns.flatten.flatMap Role.implied = [] := by
      rw [← List.dedup_eq_nil]
      exact hnil.symm
    have hempty : ∀ rs ∈ ns, rs = [] := by
      apply List.flatten_eq_nil_iff.mp
      by_contra hne
      obtain ⟨r, rs, hr⟩ := List.exists_cons_of_ne_nil hne
      rw [hr, List.flatMap_cons, List.append_eq_nil_iff] at hflat
      cases r <;> cases hflat.1
    refine ⟨hflat ▸ List.nodup_nil, fun rs hrs => ?_⟩
    rw [hempty rs (List.dropLast_subset ns hrs)]
    exact fun h => by cases h
  | some l =>
    rw [hg, Option.elim_some] at hu
    obtain ⟨ns', hns', hsub, hw⟩ := grants_eq_some hg
    obtain rfl := Option.some.inj (h.symm.trans hns')
    have hl := nodup_of_sum hsub hu
    exact ⟨hsub.nodup hl, hw hl⟩

/-- The two codes of a text agree with the union of the roles it names unless the names overlap. -/
theorem codeRole_eq_union_iff (s : List Char) :
    (codeRole s = (codeRoleString s).elim 0 stringToRole ∧ codeRole s = union s) ↔
      ∀ ns, names s = some ns → Separate ns := by
  cases hn : names s with
  | none =>
    have hg := grants_eq_none hn
    simp [codeRole_eq, codeRoleString, codeRoles_eq, hg, union, hn]
  | some ns =>
    have hu : union s = roleSum (· ∈ ns.flatten.flatMap Role.implied) := by rw [union, hn, Option.elim_some]
    constructor
    · rintro ⟨-, h⟩ ns' hns'
      obtain rfl := Option.some.inj hns'
      exact separate_of_codeRole hn (h.trans hu)
    · intro h
      have hs := h ns rfl
      have hg := grants_of_separate hn hs
      rw [codeRole_eq, codeRoleString, codeRoles_eq, hg, hu, Option.elim_some, Option.map_some, Option.elim_some,
        stringToRole_foldl_set, roleSum_of_nodup hs.1]
      exact ⟨rfl, rfl⟩

theorem not_codeRole_eq_union_read_read :
    ¬∀ s, codeRole s = (codeRoleString s).elim 0 stringToRole ∧ codeRole s = union s :=
  fun h => absurd (h "read|read".toList).1 (by decide)

end OphidiaWorkflow.Auth
