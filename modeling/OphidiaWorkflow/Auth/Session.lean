import OphidiaWorkflow.Auth.Roles
import OphidiaWorkflow.Lib.Occurrence

/-! The role of a user in a session: `oph_check_role_of` reads it in the list of users of the session. -/
namespace OphidiaWorkflow.Auth

open Lib

/-- `OPH_SERVER_OK` and `OPH_SERVER_SYSTEM_ERROR` -/
inductive Code
  | ok | systemError
  deriving DecidableEq, Repr

/-- The characters that are not kept in the name of a user. -/
def blank (c : Char) : Char := if c = '/' ∨ c = ' ' ∨ c = '=' ∨ c = ':' then '_' else c

/-- `oph_check_role_of`: the code and `role`. -/
def checkRoleOf (userid userString : List Char) : Code × Nat :=
  match (occurrence userid userString).or (occurrence userid (userString.map blank)) with
  | none => (.ok, 0)
  | some upointer =>
    match cutAt ':' upointer with
    | none => (.systemError, 0)
    | some (_, rpointer) =>
      let role := stringToRole (rpointer.takeWhile (· ≠ ','))
      if role = 0 then (.systemError, role) else (.ok, role)

/-- The name of a user of a session. -/
structure UserId where
  text : List Char
  ne_nil : text ≠ []
  comma : ',' ∉ text
  colon : ':' ∉ text
  deriving DecidableEq

/-- The roles as the server writes them. -/
def Written (t : List Char) : Prop := (∃ n, t = roleToString n) ∨ ∃ s, codeRoleString s = some t

structure Entry where
  user : UserId
  roles : List Char
  written : Written roles

def Entry.text (e : Entry) : List Char := e.user.text ++ ':' :: e.roles

/-- The list of the users, as it stands in the file of a session. -/
def userString (users : List Entry) : List Char := [','].intercalate (users.map Entry.text)

/-- The role that the list gives to a user, none if there is no entry. -/
def roleOf (q : UserId) (users : List Entry) : Nat := (users.find? (·.user = q)).elim 0 (stringToRole ·.roles)

/-- The first entry that mentions a user, in its name or in its roles, is the one of the user, or the role that is read
there happens to be the same. What is read after roles that mention the user is the role of the next entry. -/
def Clear (q : UserId) : List Entry → Prop
  | [] => True
  | e :: users =>
    if e.user = q then True
    else if q.text <:+: e.user.text then stringToRole e.roles = roleOf q users
    else if q.text <:+: e.roles then users.head?.elim 0 (stringToRole ·.roles) = roleOf q users
    else Clear q users

variable {t : List Char} {q : UserId}

theorem mem_roleToString {n : Nat} {c : Char} (h : c ∈ roleToString n) : c = '-' ∨ ∃ r : Role, c = r.letter := by
  have key : ∀ (b : Prop) [Decidable b] (r : Role), c = (if b then r.letter else '-') →
      c = '-' ∨ ∃ r : Role, c = r.letter := by
    intro b _ r hc
    split at hc
    · exact Or.inr ⟨r, hc⟩
    · exact Or.inl hc
  simp only [roleToString, List.mem_cons, List.not_mem_nil, or_false] at h
  rcases h with h | h | h | h | h
  · exact key _ .read h
  · exact key _ .write h
  · exact key _ .execute h
  · exact key _ .admin h
  · exact key _ .owner h

theorem mem_foldl_set {l : List Role} {c : Char} (h : c ∈ l.foldl (fun t r => t.set r.place r.letter) t) :
    c ∈ t ∨ ∃ r : Role, c = r.letter := by
  induction l generalizing t with
  | nil => exact Or.inl h
  | cons r l ih =>
    rcases ih h with h | h
    · rcases List.mem_or_eq_of_mem_set h with h | h
      · exact Or.inl h
      · exact Or.inr ⟨r, h⟩
    · exact Or.inr h

theorem Written.mem {c : Char} (h : Written t) (hc : c ∈ t) : c = '-' ∨ ∃ r : Role, c = r.letter := by
  rcases h with ⟨n, rfl⟩ | ⟨s, hs⟩
  · exact mem_roleToString hc
  · rw [codeRoleString, codeRoles_eq, Option.map_eq_some_iff] at hs
    obtain ⟨l, -, rfl⟩ := hs
    rcases mem_foldl_set hc with hc | hc
    · exact Or.inl (List.eq_of_mem_replicate (n := 5) hc)
    · exact Or.inr hc

theorem Written.comma (h : Written t) : ',' ∉ t := by
  intro hc
  rcases h.mem hc with hc | ⟨r, hc⟩
  · exact absurd hc (by decide)
  · cases r <;> exact absurd hc (by decide)

theorem Written.colon (h : Written t) : ':' ∉ t := by
  intro hc
  rcases h.mem hc with hc | ⟨r, hc⟩
  · exact absurd hc (by decide)
  · cases r <;> exact absurd hc (by decide)

/-- The role that is read from an occurrence on. -/
def roleAt (upointer : List Char) : Nat :=
  (cutAt ':' upointer).elim 0 fun p => stringToRole (p.2.takeWhile (· ≠ ','))

theorem colon_not_mem_map_blank (s : List Char) : ':' ∉ s.map blank := by
  intro h
  obtain ⟨c, -, hc⟩ := List.mem_map.mp h
  unfold blank at hc
  split at hc
  · exact absurd hc (by decide)
  · next hn => exact hn (Or.inr (Or.inr (Or.inr hc)))

/-- The second search never leads to a role. -/
theorem checkRoleOf_role (userid s : List Char) : (checkRoleOf userid s).2 = (occurrence userid s).elim 0 roleAt := by
  unfold checkRoleOf
  cases h : occurrence userid s with
  | some u =>
    rw [Option.some_or, Option.elim_some, roleAt]
    cases hu : cutAt ':' u with
    | none => simp [hu]
    | some p =>
      simp only [hu, Option.elim_some]
      split <;> rfl
  | none =>
    rw [Option.none_or, Option.elim_none]
    cases h' : occurrence userid (s.map blank) with
    | none => rfl
    | some u =>
      have hu := cutAt_eq_none fun hc => colon_not_mem_map_blank s ((suffix_of_occurrence h').subset hc)
      simp only [hu]

theorem roleAt_entry {a r b : List Char} (ha : ':' ∉ a) (hr : ',' ∉ r) (hb : b = [] ∨ ∃ b', b = ',' :: b') :
    roleAt (a ++ ':' :: (r ++ b)) = stringToRole r := by
  rw [roleAt, cutAt_append_cons _ ha, Option.elim_some]
  have hw : (r ++ b).takeWhile (fun c => decide (c ≠ ',')) = r := by
    have hne : ∀ c ∈ r, decide (c ≠ ',') = true := by
      intro c hc
      rw [decide_eq_true_iff]
      exact fun he => hr (he ▸ hc)
    rw [List.takeWhile_append_of_pos hne]
    rcases hb with rfl | ⟨b', rfl⟩
    · simp
    · simp
  rw [hw]

theorem userString_cons (e : Entry) (users : List Entry) :
    userString (e :: users) = e.text ++ if users = [] then [] else ',' :: userString users := by
  cases users with
  | nil => simp [userString]
  | cons e' users => simp [userString]

theorem roleAt_next {a : List Char} (ha : ':' ∉ a) (users : List Entry) :
    roleAt (a ++ if users = [] then [] else ',' :: userString users) = users.head?.elim 0 (stringToRole ·.roles) := by
  cases users with
  | nil =>
    rw [if_pos rfl, List.append_nil, roleAt, cutAt_eq_none ha]
    rfl
  | cons e users =>
    rw [if_neg (List.cons_ne_nil _ _), userString_cons, Entry.text]
    have h : ':' ∉ a ++ ',' :: e.user.text := by
      rw [List.mem_append, List.mem_cons]
      rintro (h | h | h)
      · exact ha h
      · exact absurd h (by decide)
      · exact e.user.colon h
    have hr := roleAt_entry (b := if users = [] then [] else ',' :: userString users) h e.written.comma (by
      split
      · exact Or.inl rfl
      · exact Or.inr ⟨_, rfl⟩)
    rw [List.head?_cons, Option.elim_some, ← hr]
    simp

theorem roleOf_cons_of_ne {e : Entry} (h : e.user ≠ q) (users : List Entry) :
    roleOf q (e :: users) = roleOf q users := by
  rw [roleOf, List.find?_cons_of_neg (by simpa using h), roleOf]

/-- The role of a user is read right exactly if the list is clear. -/
theorem roleAt_occurrence_iff (q : UserId) (users : List Entry) :
    (occurrence q.text (userString users)).elim 0 roleAt = roleOf q users ↔ Clear q users := by
  induction users with
  | nil =>
    have h : occurrence q.text (userString []) = none :=
      occurrence_eq_none_iff.mpr fun h => q.ne_nil (List.infix_nil.mp h)
    rw [h]
    exact iff_of_true rfl trivial
  | cons e users ih =>
    rw [userString_cons, Entry.text, List.append_assoc, List.cons_append, Clear]
    by_cases hu : q.text <:+: e.user.text
    · obtain ⟨u, ho, hs⟩ := exists_occurrence hu
      have hrole := roleAt_entry (b := if users = [] then [] else ',' :: userString users)
        (fun h => e.user.colon (hs.subset h)) e.written.comma (by
          split
          · exact Or.inl rfl
          · exact Or.inr ⟨_, rfl⟩)
      rw [occurrence_append_left hu, ho, Option.map_some, Option.elim_some, hrole, if_pos hu]
      by_cases he : e.user = q
      · rw [if_pos he, roleOf, List.find?_cons_of_pos (by simpa using he)]
        exact iff_of_true rfl trivial
      · rw [if_neg he, roleOf_cons_of_ne he]
    · have he : e.user ≠ q := fun he => hu (he ▸ List.infix_refl _)
      rw [occurrence_append_cons q.ne_nil q.colon hu, roleOf_cons_of_ne he, if_neg he, if_neg hu]
      by_cases hr : q.text <:+: e.roles
      · obtain ⟨t, ho, hs⟩ := exists_occurrence hr
        rw [occurrence_append_left hr, ho, Option.map_some, Option.elim_some,
          roleAt_next fun h => e.written.colon (hs.subset h), if_pos hr]
      · rw [if_neg hr, ← ih]
        cases users with
        | nil => rw [if_pos rfl, List.append_nil, occurrence_eq_none_iff.mpr hr, userString, List.map_nil,
            List.intercalate_nil, occurrence_eq_none_iff.mpr fun h => q.ne_nil (List.infix_nil.mp h)]
        | cons e' users => rw [if_neg (List.cons_ne_nil _ _), occurrence_append_cons q.ne_nil q.comma hr]

/-- A user gets the role of the list exactly if no other entry is taken for the one of the user. -/
theorem checkRoleOf_eq_roleOf_iff (q : UserId) (users : List Entry) :
    (checkRoleOf q.text (userString users)).2 = roleOf q users ↔ Clear q users := by
  rw [checkRoleOf_role, roleAt_occurrence_iff]

def bob : UserId := ⟨"bob".toList, by decide, by decide, by decide⟩

/-- The name of another user contains the one of `bob`. -/
def bobby : UserId := ⟨"bobby".toList, by decide, by decide, by decide⟩

theorem not_checkRoleOf_bob : ¬∀ (q : UserId) (users : List Entry), (users.map Entry.user).Nodup →
    (checkRoleOf q.text (userString users)).2 = roleOf q users := by
  intro h
  have hb := h bob [⟨bobby, "rweao".toList, Or.inl ⟨16, by decide⟩⟩, ⟨bob, "r----".toList, Or.inl ⟨1, by decide⟩⟩] (by decide)
  exact absurd hb (by decide)

end OphidiaWorkflow.Auth
