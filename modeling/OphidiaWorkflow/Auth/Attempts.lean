import Mathlib.Data.Int.Basic
import OphidiaWorkflow.Lib.Cut
import OphidiaWorkflow.Lib.Runs

/-!
The attempts of access: `oph_auth_user` with the list of the users that are blocked, `bl_head`.

The clock is read whenever the list is touched.
-/
namespace OphidiaWorkflow.Auth

open Lib

/-- `OPH_AUTH_MAX_COUNT` -/
def maxCount : Int := 5

/-- `oph_auth_user_bl`, without the fields that only tokens use. -/
structure Item where
  userid : List Char
  host : List Char
  count : Int
  timestamp : Nat
  deriving DecidableEq, Repr

/-- The conversion to `short`. -/
def short (n : Int) : Int := n.bmod 65536

/-- `INTERFACE_TYPE_IS_*` -/
inductive Interface
  | gsi | ssl | other
  deriving DecidableEq, Repr

/-- What does not change from one attempt to the next: `oph_server_timeout`, `oph_sha` and the lines of `OPH_AUTH_FILE`,
none if the file cannot be opened. -/
structure Config where
  interface : Interface
  sha : List Char → List Char
  timeout : Nat
  file : Option (List (List Char))

/-- `OPH_SERVER_*` -/
inductive Outcome
  | ok | error | ioError | authError
  deriving DecidableEq, Repr

/-- The result of `oph_auth_user` with `actual_userid` and `userid_exist`. -/
structure Answer where
  result : Outcome := .error
  actualUserid : Option (List Char) := none
  useridExist : Bool := false
  deriving DecidableEq, Repr

/-- The arguments of `oph_auth_user`, and the clock at the search in the list and at the change that may follow. -/
structure Attempt where
  userid : List Char
  passwd : Option (List Char)
  host : List Char
  now : Nat
  later : Nat
  deriving DecidableEq, Repr

section Code

variable (cfg : Config)

/-- The deadline is over. -/
def Item.expired (now : Nat) (i : Item) : Bool := now > i.timestamp + cfg.timeout

/-- `oph_add_to_bl` -/
def addToBl (now : Nat) (userid host : List Char) (bl : List Item) : List Item := ⟨userid, host, 1, now⟩ :: bl

/-- `oph_is_in_bl`: the list and the count. -/
def isInBl (now : Nat) (userid host : List Char) : List Item → List Item × Int
  | [] => ([], 0)
  | i :: bl =>
    if i.expired cfg now then isInBl now userid host bl
    else if i.userid = userid ∧ i.host = host then
      let i' := { i with count := short (i.count + 1) }
      (i' :: bl, i'.count)
    else
      let p := isInBl now userid host bl
      (i :: p.1, p.2)

/-- `oph_drop_from_bl` -/
def dropFromBl (now : Nat) (userid host : List Char) : List Item → List Item
  | [] => []
  | i :: bl =>
    if i.userid = userid ∧ i.host = host then bl
    else if i.expired cfg now then dropFromBl now userid host bl
    else i :: dropFromBl now userid host bl

/-- The loop over the lines of the file: what follows the name on the line of the user. -/
def findUser (userid : List Char) : List (List Char) → Except Outcome (List (List Char))
  | [] => .error .error
  | line :: file =>
    if line = [] then findUser userid file
    else
      match tokens ':' line with
      | [] => .error .ioError
      | username :: rest => if userid = username then .ok rest else findUser userid file

/-- The line of the user in the file. -/
def userLine (userid : List Char) : Except Outcome (List (List Char)) :=
  match cfg.file with
  | none => .error .ioError
  | some file => findUser userid file

/-- The password is not needed, or it is the one of the file, or its code is. -/
def accepts (passwd : Option (List Char)) (password : List Char) : Bool :=
  match passwd with
  | none => cfg.interface ≠ .gsi
  | some p => p = password || (cfg.interface = .ssl && cfg.sha p = password)

/-- What `oph_auth_user` does with the line of the user. -/
def authLine (a : Attempt) (line : List (List Char)) (bl : List Item) : Answer × List Item :=
  let p := isInBl cfg a.now a.userid a.host bl
  if p.2 > maxCount then ({ result := .authError }, p.1)
  else
    match line with
    | [] => ({ result := .ioError, useridExist := true }, p.1)
    | password :: rest =>
      if accepts cfg a.passwd password then
        ({ result := .ok, actualUserid := rest.head?, useridExist := true }, dropFromBl cfg a.later a.userid a.host p.1)
      else ({ useridExist := true }, if p.2 = 0 then addToBl a.later a.userid a.host p.1 else p.1)

/-- `oph_auth_user` -/
def authUser (a : Attempt) (bl : List Item) : Answer × List Item :=
  match userLine cfg a.userid with
  | .error e => ({ result := e }, bl)
  | .ok line => authLine cfg a line bl

end Code

/-- The user and the host of an attempt. -/
def Attempt.pair (a : Attempt) : List Char × List Char := (a.userid, a.host)

def Item.pair (i : Item) : List Char × List Char := (i.userid, i.host)

/-- The attempts with their results. -/
def record (cfg : Config) : List Item → List Attempt → List (Attempt × Answer)
  | _, [] => []
  | bl, a :: as => (a, (authUser cfg a bl).1) :: record cfg (authUser cfg a bl).2 as

/-- The deadline and the number of the failed attempts in a row, since the first one that is not over its deadline. -/
abbrev Series := Option (Nat × Nat)

def Series.next (cfg : Config) (s : Series) (a : Attempt) (result : Outcome) : Series :=
  if result = .ok then none
  else
    match s.filter fun q => a.now ≤ q.1 with
    | none => some (a.later + cfg.timeout, 1)
    | some (deadline, n) => some (deadline, n + 1)

/-- The failed attempts of a user from a host. -/
def series (cfg : Config) (p : List Char × List Char) (es : List (Attempt × Answer)) : Series :=
  (es.filter (·.1.pair = p)).foldl (fun s e => s.next cfg e.1 e.2.result) none

/-- Too many failed attempts in a row block the user on the host until the deadline, and nobody else. -/
structure Protected (cfg : Config) (as : List Attempt) : Prop where
  blocked : ∀ es a r es', record cfg [] as = es ++ (a, r) :: es' → ∀ deadline n, series cfg a.pair es = some (deadline, n) →
    a.now ≤ deadline → maxCount ≤ n → r.result ≠ .ok
  separate : ∀ p, (record cfg [] as).filter (·.1.pair = p) = record cfg [] (as.filter (·.pair = p))

/-- The attempts come one after the other. -/
def Ordered (as : List Attempt) : Prop := as.Pairwise (fun a b => a.later ≤ b.now) ∧ ∀ a ∈ as, a.now ≤ a.later

/-- The counter of the attempts is not at its limit. -/
def Counts (cfg : Config) (bl : List Item) (a : Attempt) : Prop :=
  ∀ i ∈ bl, i.pair = a.pair → i.expired cfg a.now = false → i.count < 32767

/-- The items of a user and a host whose deadline is not over. -/
def live (cfg : Config) (t : Nat) (p : List Char × List Char) (bl : List Item) : List Item :=
  bl.filter fun i => i.pair = p && !i.expired cfg t

section Live

variable {cfg : Config} {now later t : Nat} {userid host : List Char} {p : List Char × List Char} {bl : List Item}

theorem expired_mono {i : Item} (h : now ≤ t) (hi : i.expired cfg now = true) : i.expired cfg t = true := by
  simp only [Item.expired, decide_eq_true_eq] at hi ⊢
  omega

theorem live_live (h : now ≤ t) (bl : List Item) : live cfg t p (live cfg now p bl) = live cfg t p bl := by
  rw [live, live, List.filter_filter, live]
  apply List.filter_congr
  intro i _
  by_cases hi : i.expired cfg now = true
  · simp [hi, expired_mono h hi]
  · simp only [hi]
    cases i.expired cfg t <;> simp

theorem pair_eq_iff {i : Item} : i.pair = (userid, host) ↔ i.userid = userid ∧ i.host = host := Prod.ext_iff

theorem live_cons_of_not {i : Item} (h : i.pair = p → i.expired cfg t = true) :
    live cfg t p (i :: bl) = live cfg t p bl := by
  apply List.filter_cons_of_neg
  by_cases hi : i.pair = p
  · simp [h hi]
  · simp [hi]

theorem live_cons_of_pos {i : Item} (h : i.pair = p) (hi : i.expired cfg t = false) :
    live cfg t p (i :: bl) = i :: live cfg t p bl := by
  apply List.filter_cons_of_pos
  simp [h, hi]

theorem live_cons_congr {bl' : List Item} (i : Item) (h : live cfg t p bl = live cfg t p bl') :
    live cfg t p (i :: bl) = live cfg t p (i :: bl') := by
  unfold live at h ⊢
  rw [List.filter_cons, List.filter_cons, h]

/-- One more attempt. -/
def Item.count1 (i : Item) : Item := { i with count := short (i.count + 1) }

theorem isInBl_found {i : Item} (he : ¬i.expired cfg now = true) (hp : i.userid = userid ∧ i.host = host) :
    isInBl cfg now userid host (i :: bl) = (i.count1 :: bl, i.count1.count) := by
  rw [isInBl, if_neg he, if_pos hp]
  rfl

/-- The search only depends on the items of the user that are live, and so do they after it. -/
theorem isInBl_live (cfg : Config) (now : Nat) (userid host : List Char) (bl : List Item) :
    (isInBl cfg now userid host bl).2 = (isInBl cfg now userid host (live cfg now (userid, host) bl)).2 ∧
      ∀ t, now ≤ t → live cfg t (userid, host) (isInBl cfg now userid host bl).1 =
        live cfg t (userid, host) (isInBl cfg now userid host (live cfg now (userid, host) bl)).1 := by
  induction bl with
  | nil => exact ⟨rfl, fun _ _ => rfl⟩
  | cons i bl ih =>
    by_cases he : i.expired cfg now = true
    · rw [live_cons_of_not fun _ => he, isInBl, if_pos he]
      exact ih
    · by_cases hp : i.userid = userid ∧ i.host = host
      · have he' : i.expired cfg now = false := by simpa using he
        rw [live_cons_of_pos (pair_eq_iff.mpr hp) he', isInBl_found he hp, isInBl_found he hp]
        exact ⟨rfl, fun t ht => live_cons_congr _ (live_live ht bl).symm⟩
      · have hn : ¬i.pair = (userid, host) := fun h => hp (pair_eq_iff.mp h)
        rw [live_cons_of_not fun h => absurd h hn, isInBl, if_neg he, if_neg hp]
        refine ⟨ih.1, fun t ht => ?_⟩
        rw [live_cons_of_not fun h => absurd h hn]
        exact ih.2 t ht

theorem dropFromBl_isInBl_live (cfg : Config) (now later : Nat) (userid host : List Char) (bl : List Item) (t : Nat)
    (ht : now ≤ t) :
    live cfg t (userid, host) (dropFromBl cfg later userid host (isInBl cfg now userid host bl).1) =
      live cfg t (userid, host)
        (dropFromBl cfg later userid host (isInBl cfg now userid host (live cfg now (userid, host) bl)).1) := by
  induction bl with
  | nil => rfl
  | cons i bl ih =>
    by_cases he : i.expired cfg now = true
    · rw [live_cons_of_not fun _ => he, isInBl, if_pos he]
      exact ih
    · by_cases hp : i.userid = userid ∧ i.host = host
      · have he' : i.expired cfg now = false := by simpa using he
        rw [live_cons_of_pos (pair_eq_iff.mpr hp) he', isInBl_found he hp, isInBl_found he hp, dropFromBl, dropFromBl,
          if_pos (show i.count1.userid = userid ∧ i.count1.host = host from hp),
          if_pos (show i.count1.userid = userid ∧ i.count1.host = host from hp)]
        exact (live_live ht bl).symm
      · have hn : ¬i.pair = (userid, host) := fun h => hp (pair_eq_iff.mp h)
        rw [live_cons_of_not fun h => absurd h hn, isInBl, if_neg he, if_neg hp, dropFromBl, if_neg hp]
        split
        · exact ih
        · rw [live_cons_of_not fun h => absurd h hn]
          exact ih

theorem isInBl_live_of_ne (h : p ≠ (userid, host)) (ht : now ≤ t) :
    live cfg t p (isInBl cfg now userid host bl).1 = live cfg t p bl := by
  induction bl with
  | nil => rfl
  | cons i bl ih =>
    by_cases he : i.expired cfg now = true
    · rw [isInBl, if_pos he, ih, live_cons_of_not fun _ => expired_mono ht he]
    · by_cases hp : i.userid = userid ∧ i.host = host
      · have hn : ¬i.pair = p := fun hip => h (hip.symm.trans (pair_eq_iff.mpr hp))
        rw [isInBl_found he hp, live_cons_of_not fun hip => absurd hip hn]
        exact live_cons_of_not fun hip => absurd hip hn
      · rw [isInBl, if_neg he, if_neg hp]
        exact live_cons_congr i ih

theorem dropFromBl_live_of_ne (h : p ≠ (userid, host)) (ht : later ≤ t) :
    live cfg t p (dropFromBl cfg later userid host bl) = live cfg t p bl := by
  induction bl with
  | nil => rfl
  | cons i bl ih =>
    rw [dropFromBl]
    split
    · next hp =>
      have hn : ¬i.pair = p := fun hip => h (hip.symm.trans (pair_eq_iff.mpr hp))
      rw [live_cons_of_not fun hip => absurd hip hn]
    · split
      · next he => rw [ih, live_cons_of_not fun _ => expired_mono ht he]
      · exact live_cons_congr i ih

end Live

section Users

variable {cfg : Config} {a : Attempt} {t : Nat} {p : List Char × List Char} {bl bl' : List Item}

/-- An attempt only depends on the live items of its user, and so do they after it. -/
theorem authUser_live (cfg : Config) (a : Attempt) (bl : List Item) :
    (authUser cfg a bl).1 = (authUser cfg a (live cfg a.now a.pair bl)).1 ∧
      ∀ t, a.now ≤ t → live cfg t a.pair (authUser cfg a bl).2 =
        live cfg t a.pair (authUser cfg a (live cfg a.now a.pair bl)).2 := by
  unfold authUser
  cases userLine cfg a.userid with
  | error e => exact ⟨rfl, fun t ht => (live_live ht bl).symm⟩
  | ok line =>
    obtain ⟨hcount, hlive⟩ := isInBl_live cfg a.now a.userid a.host bl
    have hdrop := dropFromBl_isInBl_live cfg a.now a.later a.userid a.host bl
    unfold authLine Attempt.pair
    by_cases hb : (isInBl cfg a.now a.userid a.host bl).2 > maxCount
    · simp only [← hcount, if_pos hb]
      exact ⟨trivial, hlive⟩
    · simp only [← hcount, if_neg hb]
      cases line with
      | nil => exact ⟨rfl, hlive⟩
      | cons password rest =>
        by_cases hp : accepts cfg a.passwd password = true
        · simp only [if_pos hp]
          exact ⟨trivial, hdrop⟩
        · simp only [if_neg hp]
          split
          · exact ⟨trivial, fun t ht => live_cons_congr _ (hlive t ht)⟩
          · exact ⟨trivial, hlive⟩

theorem authUser_live_of_ne (h : p ≠ a.pair) (ha : a.now ≤ a.later) (ht : a.later ≤ t) :
    live cfg t p (authUser cfg a bl).2 = live cfg t p bl := by
  have hi : live cfg t p (isInBl cfg a.now a.userid a.host bl).1 = live cfg t p bl :=
    isInBl_live_of_ne h (Nat.le_trans ha ht)
  unfold authUser
  cases userLine cfg a.userid with
  | error e => rfl
  | ok line =>
    unfold authLine
    by_cases hb : (isInBl cfg a.now a.userid a.host bl).2 > maxCount
    · simp only [if_pos hb]
      exact hi
    · simp only [if_neg hb]
      cases line with
      | nil => exact hi
      | cons password rest =>
        by_cases hp : accepts cfg a.passwd password = true
        · simp only [if_pos hp]
          exact (dropFromBl_live_of_ne h ht).trans hi
        · simp only [if_neg hp]
          split
          · exact (live_cons_of_not fun hp => absurd hp.symm h).trans hi
          · exact hi

theorem authUser_congr (h : live cfg a.now a.pair bl = live cfg a.now a.pair bl') :
    (authUser cfg a bl).1 = (authUser cfg a bl').1 ∧
      ∀ t, a.now ≤ t → live cfg t a.pair (authUser cfg a bl).2 = live cfg t a.pair (authUser cfg a bl').2 := by
  obtain ⟨h1, h2⟩ := authUser_live cfg a bl
  obtain ⟨h1', h2'⟩ := authUser_live cfg a bl'
  rw [h1, h1', h]
  refine ⟨rfl, fun t ht => ?_⟩
  rw [h2 t ht, h2' t ht, h]

theorem record_filter {as : List Attempt} (ho : Ordered as) (ht : ∀ a ∈ as, t ≤ a.now)
    (h : live cfg t p bl = live cfg t p bl') :
    (record cfg bl as).filter (·.1.pair = p) = record cfg bl' (as.filter (·.pair = p)) := by
  induction as generalizing t bl bl' with
  | nil => rfl
  | cons a as ih =>
    obtain ⟨ho, hl⟩ := ho
    obtain ⟨ho1, ho2⟩ := List.pairwise_cons.mp ho
    have ha := hl a List.mem_cons_self
    have hnow := ht a List.mem_cons_self
    have ih' : ∀ bl bl', live cfg a.later p bl = live cfg a.later p bl' →
        (record cfg bl as).filter (·.1.pair = p) = record cfg bl' (as.filter (·.pair = p)) :=
      fun bl bl' h => ih ⟨ho2, fun b hb => hl b (List.mem_cons_of_mem a hb)⟩ ho1 h
    have hlive : live cfg a.now p bl = live cfg a.now p bl' := by rw [← live_live hnow, h, live_live hnow]
    by_cases hp : a.pair = p
    · subst hp
      obtain ⟨h1, h2⟩ := authUser_congr hlive
      rw [record, List.filter_cons_of_pos (by simp), List.filter_cons_of_pos (by simp), record, h1, ih' _ _ (h2 _ ha)]
    · rw [record, List.filter_cons_of_neg (by simpa using hp), List.filter_cons_of_neg (by simpa using hp)]
      apply ih'
      rw [authUser_live_of_ne (Ne.symm hp) ha (Nat.le_refl _), ← live_live ha, hlive, live_live ha]

/-- The failed attempts of a user are counted in one item until the deadline. -/
def Counted (cfg : Config) (t : Nat) (p : List Char × List Char) (bl : List Item) (s : Series) : Prop :=
  (live cfg t p bl = [] ∧ ∀ deadline n, s = some (deadline, n) → deadline < t) ∨
    ∃ (i : Item) (n : Nat), live cfg t p bl = [i] ∧ i.count = n ∧ 0 < n ∧ s = some (i.timestamp + cfg.timeout, n)

theorem expired_eq_false_iff {i : Item} : i.expired cfg t = false ↔ t ≤ i.timestamp + cfg.timeout := by
  rw [Item.expired, decide_eq_false_iff_not, Nat.not_lt]

theorem live_nil : live cfg t p [] = [] := rfl

theorem mem_live {i : Item} : i ∈ live cfg t p bl ↔ i ∈ bl ∧ i.pair = p ∧ i.expired cfg t = false := by
  simp [live]

/-- An item that is over its deadline counts nothing any more. -/
theorem counted_singleton {i : Item} {n : Nat} (h : i.pair = p) (hn : i.count = n) (hpos : 0 < n) (t : Nat) :
    Counted cfg t p [i] (some (i.timestamp + cfg.timeout, n)) := by
  by_cases he : i.expired cfg t = true
  · refine Or.inl ⟨live_cons_of_not fun _ => he, fun d m h => ?_⟩
    obtain ⟨rfl, -⟩ := Prod.mk.inj (Option.some.inj h)
    simpa [Item.expired] using he
  · exact Or.inr ⟨i, n, live_cons_of_pos h (by simpa using he), hn, hpos, rfl⟩

theorem Counted.mono {t' : Nat} {s : Series} (h : Counted cfg t p bl s) (ht : t ≤ t') : Counted cfg t' p bl s := by
  rcases h with ⟨hl, hs⟩ | ⟨i, n, hl, hn, hpos, rfl⟩
  · refine Or.inl ⟨?_, fun d n h => Nat.lt_of_lt_of_le (hs d n h) ht⟩
    rw [← live_live ht, hl, live_nil]
  · have hi : Counted cfg t' p [i] (some (i.timestamp + cfg.timeout, n)) :=
      counted_singleton (mem_live.mp (hl ▸ List.mem_cons_self)).2.1 hn hpos t'
    unfold Counted at hi ⊢
    rwa [← live_live ht, hl]

theorem short_eq {n : Int} (h : 0 ≤ n) (hn : n ≤ 32767) : short n = n := by
  rw [short, Int.bmod_def]
  omega

theorem authUser_nil {password : List Char} {rest : List (List Char)}
    (hline : userLine cfg a.userid = .ok (password :: rest)) :
    authUser cfg a [] =
      if accepts cfg a.passwd password then (⟨.ok, rest.head?, true⟩, [])
      else (⟨.error, none, true⟩, [⟨a.userid, a.host, 1, a.later⟩]) := by
  rw [authUser, hline]
  rfl

theorem authUser_singleton {i : Item} {password : List Char} {rest : List (List Char)} {n : Nat}
    (hline : userLine cfg a.userid = .ok (password :: rest)) (hp : i.pair = a.pair) (he : i.expired cfg a.now = false)
    (hn : i.count = n) (hlt : n < 32767) :
    authUser cfg a [i] =
      if maxCount ≤ n then (⟨.authError, none, false⟩, [{ i with count := n + 1 }])
      else if accepts cfg a.passwd password then (⟨.ok, rest.head?, true⟩, [])
      else (⟨.error, none, true⟩, [{ i with count := n + 1 }]) := by
  have hfound : isInBl cfg a.now a.userid a.host [i] = ([i.count1], i.count1.count) :=
    isInBl_found (by simp [he]) (pair_eq_iff.mp hp)
  have hcount : i.count1 = { i with count := n + 1 } := by
    rw [Item.count1, hn, short_eq (by omega) (by omega)]
  have hpair : i.userid = a.userid ∧ i.host = a.host := pair_eq_iff.mp hp
  rw [authUser, hline]
  simp only [authLine, hfound, hcount]
  by_cases hm : maxCount ≤ (n : Int)
  · rw [if_pos (by omega), if_pos hm]
  · rw [if_neg (by omega), if_neg hm]
    split
    · simp [dropFromBl, hpair]
    · rw [if_neg (by omega)]

theorem authUser_counted {s : Series} {password : List Char} {rest : List (List Char)}
    (hline : userLine cfg a.userid = .ok (password :: rest)) (ha : a.now ≤ a.later) (hs : Counted cfg a.now a.pair bl s)
    (hc : Counts cfg bl a) :
    Counted cfg a.later a.pair (authUser cfg a bl).2 (s.next cfg a (authUser cfg a bl).1.result) ∧
      ∀ deadline n, s = some (deadline, n) → a.now ≤ deadline → maxCount ≤ n → (authUser cfg a bl).1.result ≠ .ok := by
  obtain ⟨hans, hlive⟩ := authUser_live cfg a bl
  unfold Counted
  rw [hans, hlive a.later ha]
  rcases hs with ⟨hl, hs⟩ | ⟨i, n, hl, hn, hpos, rfl⟩
  · have hnone : Option.filter (fun q => decide (a.now ≤ q.1)) s = none := by
      rw [Option.filter_eq_none_iff]
      intro q hq
      simpa using hs q.1 q.2 hq
    have hnot : ∀ deadline n, s = some (deadline, n) → a.now ≤ deadline → maxCount ≤ n →
        (authUser cfg a []).1.result ≠ .ok := fun d n h hd => absurd (hs d n h) (Nat.not_lt.mpr hd)
    rw [hl]
    refine ⟨?_, hnot⟩
    rw [authUser_nil hline]
    split
    · exact Or.inl ⟨rfl, fun _ _ h => by cases h⟩
    · rw [Series.next, if_neg (show Outcome.error ≠ .ok by decide), hnone]
      exact counted_singleton rfl rfl Nat.one_pos a.later
  · have hmem := mem_live.mp (hl ▸ List.mem_cons_self : i ∈ live cfg a.now a.pair bl)
    have hlt : n < 32767 := by
      have h := hc i hmem.1 hmem.2.1 hmem.2.2
      omega
    have hd := expired_eq_false_iff.mp hmem.2.2
    have hnext : ∀ r, r ≠ Outcome.ok → Series.next cfg (some (i.timestamp + cfg.timeout, n)) a r =
        some (i.timestamp + cfg.timeout, n + 1) := by
      intro r hr
      rw [Series.next, if_neg hr, Option.filter_some_pos (by simpa using hd)]
    have hi : i.pair = a.pair := hmem.2.1
    rw [hl, authUser_singleton hline hmem.2.1 hmem.2.2 hn hlt]
    by_cases hm : maxCount ≤ (n : Int)
    · rw [if_pos hm, hnext .authError (by decide)]
      exact ⟨counted_singleton (i := { i with count := n + 1 }) hi rfl n.succ_pos a.later,
        fun _ _ _ _ _ h => by cases h⟩
    · rw [if_neg hm]
      refine ⟨?_, ?_⟩
      · split
        · exact Or.inl ⟨rfl, fun _ _ h => by cases h⟩
        · rw [hnext .error (by decide)]
          exact counted_singleton (i := { i with count := n + 1 }) hi rfl n.succ_pos a.later
      · intro d m h _ hm'
        obtain ⟨-, rfl⟩ := Prod.mk.inj (Option.some.inj h)
        exact absurd hm' hm

theorem ne_ok_of_findUser {userid : List Char} {file : List (List Char)} {e : Outcome}
    (h : findUser userid file = .error e) :
    e ≠ .ok := by
  induction file with
  | nil =>
    cases h
    decide
  | cons line file ih =>
    rw [findUser] at h
    split at h
    · exact ih h
    · split at h
      · cases h
        decide
      · split at h
        · cases h
        · exact ih h

theorem authUser_ne_ok (h : ∀ password rest, userLine cfg a.userid ≠ .ok (password :: rest)) :
    (authUser cfg a bl).1.result ≠ .ok := by
  unfold authUser
  cases hl : userLine cfg a.userid with
  | error e =>
    unfold userLine at hl
    split at hl
    · cases hl
      exact fun h => by cases h
    · exact ne_ok_of_findUser hl
  | ok line =>
    cases line with
    | nil =>
      simp only [authLine]
      split <;> exact fun h => by cases h
    | cons password rest => exact absurd hl (h password rest)

theorem Counted.of_ne {s : Series} (h : Counted cfg t p bl s) (ht : t ≤ a.now) (ha : a.now ≤ a.later)
    (hp : p ≠ a.pair) :
    Counted cfg a.later p (authUser cfg a bl).2 s := by
  have hc := h.mono (Nat.le_trans ht ha)
  unfold Counted at hc ⊢
  rwa [authUser_live_of_ne hp ha (Nat.le_refl _)]

/-- The list counts the failed attempts of a user over a whole run. -/
theorem blocked_of_counted {as : List Attempt} {s : Series} {password : List Char} {rest : List (List Char)}
    (hline : userLine cfg p.1 = .ok (password :: rest)) (ho : Ordered as) (ht : ∀ a ∈ as, t ≤ a.now)
    (hs : Counted cfg t p bl s) (hc : Along (fun bl a => (authUser cfg a bl).2) (Counts cfg) bl as)
    {es es' : List (Attempt × Answer)} {r : Answer} (hr : record cfg bl as = es ++ (a, r) :: es') (ha : a.pair = p)
    {deadline n : Nat}
    (hn : (es.filter (·.1.pair = p)).foldl (fun s e => s.next cfg e.1 e.2.result) s = some (deadline, n))
    (hd : a.now ≤ deadline) (hm : maxCount ≤ n) : r.result ≠ .ok := by
  induction as generalizing t bl s es with
  | nil =>
    have h := congrArg List.length hr
    simp [record] at h
  | cons b as ih =>
    obtain ⟨ho, hl⟩ := ho
    obtain ⟨ho1, ho2⟩ := List.pairwise_cons.mp ho
    have hb := hl b List.mem_cons_self
    have hbt := ht b List.mem_cons_self
    obtain ⟨hcb, hc⟩ := hc
    rw [record] at hr
    cases es with
    | nil =>
      obtain ⟨he, -⟩ := List.cons.inj hr
      obtain ⟨rfl, rfl⟩ := Prod.mk.inj he
      subst ha
      exact (authUser_counted hline hb (hs.mono hbt) hcb).2 deadline n hn hd hm
    | cons e es =>
      obtain ⟨rfl, hrest⟩ := List.cons.inj hr
      have hord : Ordered as := ⟨ho2, fun c hc => hl c (List.mem_cons_of_mem b hc)⟩
      by_cases hp : b.pair = p
      · subst hp
        rw [List.filter_cons_of_pos (by simp), List.foldl_cons] at hn
        exact ih hord ho1 (authUser_counted hline hb (hs.mono hbt) hcb).1 hc hrest hn
      · rw [List.filter_cons_of_neg (by simpa using hp)] at hn
        exact ih hord ho1 (hs.of_ne hbt hb (Ne.symm hp)) hc hrest hn

end Users

theorem ne_ok_of_record {cfg : Config} {bl : List Item} {as : List Attempt} {es es' : List (Attempt × Answer)}
    {a : Attempt}
    {r : Answer} (hr : record cfg bl as = es ++ (a, r) :: es')
    (h : ∀ password rest, userLine cfg a.userid ≠ .ok (password :: rest)) : r.result ≠ .ok := by
  induction as generalizing bl es with
  | nil =>
    have h := congrArg List.length hr
    simp [record] at h
  | cons b as ih =>
    rw [record] at hr
    cases es with
    | nil =>
      obtain ⟨he, -⟩ := List.cons.inj hr
      obtain ⟨rfl, rfl⟩ := Prod.mk.inj he
      exact authUser_ne_ok h
    | cons e es => exact ih (List.cons.inj hr).2

/-- As long as no counter of attempts overflows, too many failed attempts block a user until the deadline, and no other
one. -/
theorem protected_of_counts (cfg : Config) {as : List Attempt} (ho : Ordered as)
    (hc : Along (fun bl a => (authUser cfg a bl).2) (Counts cfg) [] as) : Protected cfg as := by
  constructor
  · intro es a r es' hr deadline n hs hd hm
    by_cases h : ∃ password rest, userLine cfg a.userid = .ok (password :: rest)
    · obtain ⟨password, rest, h⟩ := h
      exact blocked_of_counted (t := 0) (p := a.pair) h ho (fun _ _ => Nat.zero_le _)
        (Or.inl ⟨rfl, fun _ _ h => by cases h⟩) hc
        hr rfl hs hd hm
    · exact ne_ok_of_record hr fun password rest hl => h ⟨password, rest, hl⟩
  · exact fun p => record_filter (t := 0) ho (fun _ _ => Nat.zero_le _) rfl

instance (cfg : Config) (bl : List Item) (a : Attempt) : Decidable (Counts cfg bl a) :=
  inferInstanceAs (Decidable (∀ i ∈ bl, i.pair = a.pair → i.expired cfg a.now = false → i.count < 32767))

instance (as : List Attempt) : Decidable (Ordered as) :=
  inferInstanceAs (Decidable (as.Pairwise (fun a b => a.later ≤ b.now) ∧ ∀ a ∈ as, a.now ≤ a.later))

/-- A server with one user. -/
def oneUser : Config := ⟨.other, id, 10, some ["u:p".toList]⟩

/-- A wrong password. -/
def guess : Attempt := ⟨"u".toList, some "x".toList, "h".toList, 0, 0⟩

/-- The right password. -/
def login : Attempt := ⟨"u".toList, some "p".toList, "h".toList, 0, 0⟩

theorem protected_guesses : Protected oneUser (List.replicate 6 guess ++ [login, { login with host := "i".toList }]) :=
  protected_of_counts oneUser (by decide) (by decide)

theorem authUser_guess {n : Nat} (hn : n < 32767) :
    ∃ r : Answer, authUser oneUser guess [⟨"u".toList, "h".toList, n, 0⟩] =
      (r, [⟨"u".toList, "h".toList, (n + 1 : Nat), 0⟩]) ∧ r.result ≠ .ok := by
  have hline : userLine oneUser guess.userid = .ok ["p".toList] := by decide
  have hstep := authUser_singleton (i := ⟨"u".toList, "h".toList, n, 0⟩) hline rfl rfl rfl hn
  rw [if_neg (show ¬accepts oneUser guess.passwd "p".toList = true by decide)] at hstep
  rw [hstep]
  by_cases hm : maxCount ≤ (n : Int)
  · exact ⟨_, if_pos hm, fun h => by cases h⟩
  · exact ⟨_, if_neg hm, fun h => by cases h⟩

/-- The right password after as many guesses as the counter can count. -/
theorem record_guesses {n k : Nat} (hk : n + k = 32767) :
    ∃ es, record oneUser [⟨"u".toList, "h".toList, n, 0⟩] (List.replicate k guess ++ [login]) =
        es ++ [(login, ⟨.ok, none, true⟩)] ∧
      (es.filter (·.1.pair = login.pair)).foldl (fun s e => Series.next oneUser s e.1 e.2.result) (some (10, n)) =
        some (10, 32767) := by
  induction k generalizing n with
  | zero =>
    obtain rfl : n = 32767 := by omega
    exact ⟨[], by decide, rfl⟩
  | succ k ih =>
    obtain ⟨es, hr, hs⟩ := ih (n := n + 1) (by omega)
    obtain ⟨r, hstep, hres⟩ := authUser_guess (n := n) (by omega)
    have hnext : Series.next oneUser (some (10, n)) guess r.result = some (10, n + 1) := by
      rw [Series.next, if_neg hres]
      rfl
    refine ⟨(guess, r) :: es, ?_, ?_⟩
    · rw [List.replicate_succ, List.cons_append, record, hstep, hr, List.cons_append]
    · rw [List.filter_cons_of_pos (by exact decide_eq_true (rfl : guess.pair = login.pair)), List.foldl_cons, hnext, hs]

theorem not_protected_guesses : ¬∀ (cfg : Config) (as : List Attempt), Ordered as → Protected cfg as := by
  intro h
  obtain ⟨es, hr, hs⟩ := record_guesses (n := 1) (k := 32766) rfl
  have hfirst :
      authUser oneUser guess [] = (⟨.error, none, true⟩, [⟨"u".toList, "h".toList, (1 : Nat), 0⟩]) := by decide
  have hrec : record oneUser [] (List.replicate 32767 guess ++ [login]) =
      ((guess, ⟨.error, none, true⟩) :: es) ++ (login, ⟨.ok, none, true⟩) :: [] := by
    rw [List.replicate_succ, List.cons_append, record, hfirst, hr, List.cons_append]
  have hord : Ordered (List.replicate 32767 guess ++ [login]) := by
    have hz : ∀ a ∈ List.replicate 32767 guess ++ [login], a.now = 0 ∧ a.later = 0 := by
      intro a ha
      rcases List.mem_append.mp ha with ha | ha
      · rw [List.eq_of_mem_replicate ha]
        exact ⟨rfl, rfl⟩
      · rw [List.mem_singleton.mp ha]
        exact ⟨rfl, rfl⟩
    constructor
    · apply List.pairwise_of_forall_mem_list
      intro a ha b hb
      rw [(hz a ha).2]
      exact Nat.zero_le _
    · intro a ha
      rw [(hz a ha).1]
      exact Nat.zero_le _
  refine (h oneUser _ hord).blocked _ _ _ _ hrec 10 32767 ?_ (by decide) (by decide) rfl
  rw [series, List.filter_cons_of_pos (by decide), List.foldl_cons]
  exact hs

end OphidiaWorkflow.Auth
