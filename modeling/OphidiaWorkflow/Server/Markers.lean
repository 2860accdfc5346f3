import OphidiaWorkflow.Lib.Decimal
import OphidiaWorkflow.Lib.Runs
import OphidiaWorkflow.Server.Trash

/-!
`oph_generate_oph_jobid`: the markers of a session.

The markers are counted in the session file. A marker that has been released comes to the trash and is used again.
-/
namespace OphidiaWorkflow.Server

open Lib

/-- A session: its identifier, the two counters of its file, and the trash of the server. -/
structure Session where
  id : List Char
  /-- `OPH_LAST_MARKER`, if the session has been created. -/
  lastMarker : Option (List Char) := none
  /-- `OPH_LAST_WORKFLOW` -/
  lastWorkflow : List Char := "0".toList
  trash : Trash (List Char) := []
  deriving DecidableEq, Repr

/-- How the function is called: `markerid` and `workflowid` tell whether these pointers are given. The buffers for the
texts come with them, except that a call for the session of an existing workflow always has the buffer of the marker. -/
structure Call where
  markerid : Bool
  workflowid : Bool
  prevMarkerid : Int := 0
  /-- The session file can be written. -/
  saved : Bool := true
  deriving DecidableEq, Repr

/-- What a call leaves in its arguments. -/
structure Issued where
  markerid : Option Int
  strMarkerid : List Char
  strWorkflowid : Option (List Char)
  jobid : List Char
  deriving DecidableEq, Repr

/-- `OPH_MAX_STRING_SIZE` of the server -/
def jobidSize : Nat := 4096

/-- The format of `oph_jobid`. -/
def jobidText (id : List Char) (workflowid : Option (List Char)) (markerid : List Char) : List Char :=
  (workflowid.elim id fun w => id ++ '?' :: w ++ '#' :: markerid).take (jobidSize - 1)

namespace Session

/-- The last marker that has been counted. -/
def last (s : Session) : Int := s.lastMarker.elim 0 readInt

/-- A released marker, with the trash without it. A new session has none. -/
def released (s : Session) (c : Call) : Option (Int × Trash (List Char)) :=
  if c.markerid ∧ s.lastMarker.isSome then s.trash.extract s.id else none

/-- `*markerid` -/
def marker (s : Session) (c : Call) : Int := (s.released c).elim (toInt32 (s.last + 1)) Prod.fst

/-- The text in the buffer when the session is saved. The last marker is saved again if it has not been counted up. -/
def savedMarker (s : Session) (c : Call) : List Char :=
  match s.lastMarker with
  | none => if c.markerid then decimal (s.marker c) else "0".toList
  | some last => if c.markerid ∧ (s.released c).isNone then decimal (s.marker c) else last

def strWorkflowid (s : Session) (c : Call) : Option (List Char) :=
  if c.workflowid then some (decimal (toInt32 (readInt s.lastWorkflow + 1))) else none

/-- The text that is left in the buffer. -/
def strMarkerid (s : Session) (c : Call) : List Char :=
  if c.markerid then s.savedMarker c else decimal c.prevMarkerid

/-- `oph_generate_oph_jobid` -/
def generate (s : Session) (c : Call) : Option Issued × Session :=
  let trash := (s.released c).elim s.trash Prod.snd
  if c.saved then
    (some { markerid := if c.markerid then some (s.marker c) else none, strMarkerid := s.strMarkerid c
            strWorkflowid := s.strWorkflowid c, jobid := jobidText s.id (s.strWorkflowid c) (s.strMarkerid c) },
      { s with lastMarker := some (s.savedMarker c), lastWorkflow := (s.strWorkflowid c).getD s.lastWorkflow, trash })
  else (none, { s with trash })

end Session

/-- The session, and the markers that are in use. -/
structure Markers where
  session : Session
  held : List Int := []
  deriving DecidableEq, Repr

inductive MarkerEvent
  | call (c : Call)
  | release (m : Int)
  deriving DecidableEq, Repr

namespace Markers

def issued (w : Markers) : MarkerEvent → Option Issued
  | .call c => (w.session.generate c).1
  | .release _ => none

/-- Only markers in use are released. -/
def step (w : Markers) (e : MarkerEvent) : Markers :=
  match e with
  | .call c => ⟨(w.session.generate c).2, ((w.issued e).bind Issued.markerid).toList ++ w.held⟩
  | .release m =>
    if m ∈ w.held then ⟨{ w.session with trash := w.session.trash.append w.session.id m }, w.held.erase m⟩ else w

/-- What a step has to keep to: the texts of a new marker denote it, the markers in use are distinct, and the last
marker does not decrease. -/
structure Sound (w : Markers) (e : MarkerEvent) : Prop where
  texts : ∀ r m, w.issued e = some r → r.markerid = some m →
    r.strMarkerid = decimal m ∧ r.jobid = jobidText w.session.id r.strWorkflowid (decimal m)
  nodup : (w.step e).held.Nodup
  last : w.session.last ≤ (w.step e).session.last

/-- The largest `int` -/
def intMax : Int := 2 ^ 31 - 1

/-- A marker that is used again is the last one, and the last one is not the largest `int` if a new one is needed. -/
def Counts (w : Markers) : MarkerEvent → Prop
  | .call c => c.markerid = true → c.saved = true → w.session.lastMarker ≠ none →
    match w.session.trash.stored w.session.id with
    | [] => w.session.last ≠ intMax
    | m :: _ => m = w.session.last
  | .release _ => True

/-- What holds of a session whatever is called. -/
structure Kept (w : Markers) : Prop where
  fresh : w.session.lastMarker = none → w.held = [] ∧ w.session.trash = []
  text : ∀ l, w.session.lastMarker = some l → l = decimal w.session.last
  nonneg : 0 ≤ w.session.last
  le : w.session.last ≤ intMax
  key : w.session.trash.OfKey w.session.id
  nodup : (w.held ++ w.session.trash.stored w.session.id).Nodup
  bound : ∀ m ∈ w.held ++ w.session.trash.stored w.session.id, 0 < m ∧ m ≤ w.session.last

variable {w : Markers} {c : Call} {e : MarkerEvent} {m : Int} {l : List Char}

theorem toInt32_last (s : Session) : toInt32 s.last = s.last := by
  unfold Session.last
  cases s.lastMarker with
  | none => rfl
  | some l => exact toInt32_readInt l

theorem toInt32_of_mem {n : Int} (h : 0 ≤ n) (h' : n ≤ intMax) : toInt32 n = n := by
  unfold toInt32
  unfold intMax at h'
  apply Int.bmod_eq_of_le <;> omega

theorem released_of_fresh (h : w.session.lastMarker = none) (c : Call) : w.session.released c = none := by
  rw [Session.released, h]
  exact if_neg (by simp)

theorem released_of_not_markerid (s : Session) (h : c.markerid = false) : s.released c = none := by
  rw [Session.released, h]
  exact if_neg (by simp)

theorem savedMarker_of_released (s : Session) (hm : c.markerid = true) (hr : s.released c = none) :
    s.savedMarker c = decimal (toInt32 (s.last + 1)) := by
  have hmarker : s.marker c = toInt32 (s.last + 1) := by
    rw [Session.marker, hr]
    rfl
  unfold Session.savedMarker
  cases s.lastMarker with
  | none => exact (if_pos hm).trans (congrArg decimal hmarker)
  | some l =>
    dsimp only
    rw [hr, if_pos ⟨hm, rfl⟩, hmarker]

theorem step_of_new (hm : c.markerid = true) (hs : c.saved = true) (hr : w.session.released c = none) :
    (w.step (.call c)).held = toInt32 (w.session.last + 1) :: w.held ∧
    (w.step (.call c)).session.lastMarker = some (decimal (toInt32 (w.session.last + 1))) ∧
    (w.step (.call c)).session.trash = w.session.trash ∧ (w.step (.call c)).session.id = w.session.id := by
  have hsaved := savedMarker_of_released w.session hm hr
  have hmarker : w.session.marker c = toInt32 (w.session.last + 1) := by
    rw [Session.marker, hr]
    rfl
  simp [step, issued, Session.generate, hs, hm, hr, hsaved, hmarker]

theorem last_of_lastMarker {s : Session} {n : Int} (h : s.lastMarker = some (decimal n)) (hn : toInt32 n = n) :
    s.last = n := by
  rw [Session.last, h]
  exact readInt_decimal hn

theorem kept_of_new (h : w.Kept) (hm : c.markerid = true) (hs : c.saved = true) (hr : w.session.released c = none)
    (hne : w.session.last ≠ intMax) : (w.step (.call c)).Kept := by
  obtain ⟨hheld, hlast, htrash, hid⟩ := step_of_new hm hs hr
  have hlast' := last_of_lastMarker hlast Int.bmod_bmod
  have hle := h.le
  have hnonneg := h.nonneg
  rw [toInt32_of_mem (by omega) (by omega)] at hheld hlast hlast'
  constructor
  · rw [hlast]
    nofun
  · intro l hl
    rw [hlast', ← Option.some.inj (hl.symm.trans hlast)]
  · omega
  · omega
  · rw [htrash, hid]
    exact h.key
  · rw [hheld, htrash, hid, List.cons_append, List.nodup_cons]
    refine ⟨fun hmem => ?_, h.nodup⟩
    have hb := h.bound _ hmem
    omega
  · rw [hheld, htrash, hid, hlast', List.cons_append]
    intro m hmem
    rcases List.mem_cons.mp hmem with rfl | hmem
    · omega
    · have hb := h.bound m hmem
      omega

theorem sound_of_new (h : w.Kept) (hm : c.markerid = true) (hs : c.saved = true) (hr : w.session.released c = none) :
    w.Sound (.call c) ↔ w.session.last ≠ intMax := by
  obtain ⟨hheld, hlast, -, -⟩ := step_of_new hm hs hr
  have hlast' := last_of_lastMarker hlast Int.bmod_bmod
  constructor
  · intro hsound hmax
    have hle := hsound.last
    rw [hlast', hmax] at hle
    revert hle
    decide
  · intro hne
    have hlt : w.session.last < intMax := by
      have hle := h.le
      omega
    have hnext :
        toInt32 (w.session.last + 1) = w.session.last + 1 := toInt32_of_mem (by have := h.nonneg; omega) (by omega)
    constructor
    · intro r m hr' hm'
      have hsaved := savedMarker_of_released w.session hm hr
      have hmarker : w.session.marker c = toInt32 (w.session.last + 1) := by
        rw [Session.marker, hr]
        rfl
      simp only [issued, Session.generate, hs, hm, if_true, Option.some.injEq] at hr'
      subst hr'
      cases hm'
      simp [Session.strMarkerid, hm, hsaved, hmarker]
    · rw [hheld, List.nodup_cons]
      refine ⟨fun hmem => ?_, (List.nodup_append.mp h.nodup).1⟩
      have hb := h.bound _ (List.mem_append_left _ hmem)
      omega
    · rw [hlast', hnext]
      omega

theorem step_of_released {t : Trash (List Char)} (hm : c.markerid = true) (hs : c.saved = true)
    (hl : w.session.lastMarker = some l) (hr : w.session.released c = some (m, t)) :
    (w.step (.call c)).held = m :: w.held ∧ (w.step (.call c)).session.lastMarker = some l ∧
    (w.step (.call c)).session.trash = t ∧ (w.step (.call c)).session.id = w.session.id := by
  simp [step, issued, Session.generate, Session.marker, Session.savedMarker, hs, hm, hr, hl]

theorem extract_of_released {t : Trash (List Char)} (hr : w.session.released c = some (m, t)) :
    w.session.trash.extract w.session.id = some (m, t) := by
  unfold Session.released at hr
  split at hr
  · exact hr
  · cases hr

theorem sound_of_released {t : Trash (List Char)} (h : w.Kept) (hm : c.markerid = true) (hs : c.saved = true)
    (hl : w.session.lastMarker = some l) (hr : w.session.released c = some (m, t)) :
    w.Sound (.call c) ↔ m = w.session.last := by
  obtain ⟨hheld, hlast, -, -⟩ := step_of_released hm hs hl hr
  obtain ⟨-, hstored⟩ := h.key.extract (extract_of_released hr)
  have hmem : m ∈ w.session.trash.stored w.session.id := by
    rw [hstored]
    exact List.mem_cons_self
  have hissued :
      w.issued (.call c) = some { markerid := some m, strMarkerid := l, strWorkflowid := w.session.strWorkflowid c
                                  jobid := jobidText w.session.id (w.session.strWorkflowid c) l } := by
    simp [issued, Session.generate, Session.marker, Session.strMarkerid, Session.savedMarker, hs, hm, hr, hl]
  have htext := h.text l hl
  constructor
  · intro hsound
    have hstr := (hsound.texts _ m hissued rfl).1
    change l = decimal m at hstr
    -- both texts are read as the same number
    have hle := h.le
    obtain ⟨hpos, hbound⟩ := h.bound m (List.mem_append_right _ hmem)
    have hread := readInt_decimal (toInt32_of_mem (n := m) (by omega) (by omega))
    rw [← hread, ← hstr, htext]
    exact readInt_decimal (toInt32_last _)
  · rintro rfl
    constructor
    · intro r m' hr' hm'
      cases hissued.symm.trans hr'
      cases hm'
      exact ⟨htext, by rw [htext]⟩
    · rw [hheld, List.nodup_cons]
      refine ⟨fun hheld => ?_, (List.nodup_append.mp h.nodup).1⟩
      exact (List.nodup_append.mp h.nodup).2.2 _ hheld _ hmem rfl
    · apply Int.le_of_eq
      rw [Session.last, Session.last, hlast, hl]

theorem kept_of_released {t : Trash (List Char)} (h : w.Kept) (hm : c.markerid = true) (hs : c.saved = true)
    (hl : w.session.lastMarker = some l) (hr : w.session.released c = some (m, t)) : (w.step (.call c)).Kept := by
  obtain ⟨hheld, hlast, htrash, hid⟩ := step_of_released hm hs hl hr
  obtain ⟨hkey, hstored⟩ := h.key.extract (extract_of_released hr)
  have hlast' : (w.step (.call c)).session.last = w.session.last := by
    rw [Session.last, Session.last, hlast, hl]
  have hperm : (m :: w.held ++ t.stored w.session.id).Perm (w.held ++ w.session.trash.stored w.session.id) := by
    rw [hstored]
    exact List.perm_middle.symm
  constructor
  · rw [hlast]
    nofun
  · rw [hlast, hlast', ← hl]
    exact h.text
  · rw [hlast']
    exact h.nonneg
  · rw [hlast']
    exact h.le
  · rw [htrash, hid]
    exact hkey
  · rw [hheld, htrash, hid]
    exact hperm.nodup_iff.mpr h.nodup
  · rw [hheld, htrash, hid, hlast']
    intro m' hm'
    exact h.bound m' (hperm.mem_iff.mp hm')

/-- A step that issues nothing may only take markers from the trash. -/
structure Quiet (w w' : Markers) : Prop where
  held : w'.held = w.held
  id : w'.session.id = w.session.id
  last : w'.session.last = w.session.last
  fresh : w'.session.lastMarker = none → w.session.lastMarker = none ∧ w'.session.trash = w.session.trash
  text : ∀ l, w'.session.lastMarker = some l → l = decimal w'.session.last
  key : w'.session.trash.OfKey w.session.id
  stored : (w'.session.trash.stored w.session.id).Sublist (w.session.trash.stored w.session.id)

theorem Quiet.kept {w' : Markers} (hq : w.Quiet w') (h : w.Kept) : w'.Kept := by
  have hsub := hq.stored.append_left w.held
  constructor
  · intro hl
    obtain ⟨hl, htrash⟩ := hq.fresh hl
    rw [hq.held, htrash]
    exact h.fresh hl
  · exact hq.text
  · rw [hq.last]
    exact h.nonneg
  · rw [hq.last]
    exact h.le
  · rw [hq.id]
    exact hq.key
  · rw [hq.held, hq.id]
    exact hsub.nodup h.nodup
  · rw [hq.held, hq.id, hq.last]
    intro m hm
    exact h.bound m (hsub.subset hm)

theorem Quiet.sound (hq : w.Quiet (w.step e)) (h : w.Kept) (hnone : ∀ r ∈ w.issued e, r.markerid = none) :
    w.Sound e := by
  constructor
  · intro r m hr hm
    rw [hnone r hr] at hm
    cases hm
  · rw [hq.held]
    exact (List.nodup_append.mp h.nodup).1
  · exact Int.le_of_eq hq.last.symm

theorem quiet_of_not_saved (h : w.Kept) (hs : c.saved = false) : w.Quiet (w.step (.call c)) := by
  have hstep : w.step (.call c) =
      ⟨{ w.session with trash := (w.session.released c).elim w.session.trash Prod.snd }, w.held⟩ := by
    simp [step, issued, Session.generate, hs]
  rw [hstep]
  cases hr : w.session.released c with
  | none => exact ⟨rfl, rfl, rfl, fun hl => ⟨hl, rfl⟩, h.text, h.key, List.Sublist.refl _⟩
  | some r =>
    obtain ⟨hkey, hstored⟩ := h.key.extract (extract_of_released hr)
    refine ⟨rfl, rfl, rfl, fun hl => ?_, h.text, hkey, ?_⟩
    · have hnone := @released_of_fresh w hl c
      rw [hr] at hnone
      cases hnone
    · rw [hstored]
      exact List.sublist_cons_self _ _

theorem quiet_of_not_markerid (h : w.Kept) (hm : c.markerid = false) (hs : c.saved = true) :
    w.Quiet (w.step (.call c)) := by
  have hr := released_of_not_markerid w.session hm
  have hstep : w.step (.call c) = ⟨{ w.session with lastMarker := some (w.session.lastMarker.getD "0".toList)
                                                    lastWorkflow := (w.session.strWorkflowid c).getD w.session.lastWorkflow
                                                    trash := w.session.trash }, w.held⟩ := by
    have hsaved : w.session.savedMarker c = w.session.lastMarker.getD "0".toList := by
      unfold Session.savedMarker
      rw [hm]
      cases w.session.lastMarker <;> rfl
    simp [step, issued, Session.generate, hs, hr, hm, hsaved]
  have hlast : (w.step (.call c)).session.last = w.session.last := by
    rw [hstep]
    unfold Session.last
    cases w.session.lastMarker <;> rfl
  constructor
  · rw [hstep]
  · rw [hstep]
  · exact hlast
  · rw [hstep]
    nofun
  · rw [hlast, hstep]
    rintro l ⟨⟩
    cases hl : w.session.lastMarker with
    | none =>
      rw [Session.last, hl]
      rfl
    | some l => exact h.text l hl
  · rw [hstep]
    exact h.key
  · rw [hstep]

theorem kept_release (h : w.Kept) (m : Int) : (w.step (.release m)).Kept := by
  unfold step
  dsimp only
  split
  · next hm =>
    obtain ⟨hkey, hstored⟩ := h.key.append m
    have hperm : (w.held.erase m ++ (w.session.trash.stored w.session.id ++ [m])).Perm
        (w.held ++ w.session.trash.stored w.session.id) := by
      rw [← List.append_assoc]
      refine (List.perm_append_singleton _ _).trans ?_
      rw [← List.cons_append]
      exact (List.perm_cons_erase hm).symm.append_right _
    constructor
    · intro hl
      have hnil := (h.fresh hl).1
      rw [hnil] at hm
      cases hm
    · exact h.text
    · exact h.nonneg
    · exact h.le
    · exact hkey
    · show (w.held.erase m ++ Trash.stored w.session.id (Trash.append w.session.id m w.session.trash)).Nodup
      rw [hstored]
      exact hperm.nodup_iff.mpr h.nodup
    · show ∀ m' ∈ w.held.erase m ++ Trash.stored w.session.id (Trash.append w.session.id m w.session.trash), _
      rw [hstored]
      intro m' hm'
      exact h.bound m' (hperm.mem_iff.mp hm')
  · exact h

theorem sound_release (h : w.Kept) (m : Int) : w.Sound (.release m) := by
  have hnodup := (List.nodup_append.mp h.nodup).1
  constructor
  · nofun
  · unfold step
    dsimp only
    split
    · exact hnodup.erase m
    · exact hnodup
  · unfold step
    dsimp only
    split <;> exact Int.le_refl _

/-- Which steps are sound, and that they lead to a state in which the same holds. -/
theorem sound_iff_counts (h : w.Kept) : (w.Sound e ↔ w.Counts e) ∧ (w.Counts e → (w.step e).Kept) := by
  cases e with
  | release m => exact ⟨iff_of_true (sound_release h m) trivial, fun _ => kept_release h m⟩
  | call c =>
    by_cases hs : c.saved = true
    · by_cases hm : c.markerid = true
      · cases hr : w.session.released c with
        | some r =>
          obtain ⟨m, t⟩ := r
          cases hl : w.session.lastMarker with
          | none =>
            have hnone := released_of_fresh hl c
            rw [hr] at hnone
            cases hnone
          | some l =>
            refine ⟨?_, fun _ => kept_of_released h hm hs hl hr⟩
            rw [sound_of_released h hm hs hl hr, Counts, (h.key.extract (extract_of_released hr)).2, hl]
            simp [hm, hs]
        | none =>
          have hcounts : w.Counts (.call c) ↔ w.session.last ≠ intMax := by
            cases hl : w.session.lastMarker with
            | none =>
              have hzero : w.session.last = 0 := by
                rw [Session.last, hl]
                rfl
              refine iff_of_true (fun _ _ hne => absurd hl hne) ?_
              rw [hzero]
              decide
            | some l =>
              have hstored : w.session.trash.stored w.session.id = [] := by
                rw [Session.released, if_pos ⟨hm, by rw [hl]; rfl⟩] at hr
                have hfst := Trash.fst_extract w.session.id w.session.trash
                rw [hr] at hfst
                exact List.head?_eq_none_iff.mp hfst.symm
              rw [Counts, hstored, hl]
              simp [hm, hs]
          rw [hcounts]
          exact ⟨sound_of_new h hm hs hr, kept_of_new h hm hs hr⟩
      · have hq := quiet_of_not_markerid h (Bool.eq_false_iff.mpr hm) hs
        refine ⟨iff_of_true (hq.sound h ?_) fun hm' => absurd hm' hm, fun _ => hq.kept h⟩
        intro r hr
        simp only [issued, Session.generate, hs, if_true, Option.mem_some_iff] at hr
        rw [← hr]
        exact if_neg hm
    · have hq := quiet_of_not_saved h (Bool.eq_false_iff.mpr hs)
      refine ⟨iff_of_true (hq.sound h ?_) fun _ hs' => absurd hs' hs, fun _ => hq.kept h⟩
      intro r hr
      simp [issued, Session.generate, hs] at hr

/-- A session that is still to be created. -/
def start (id : List Char) : Markers := ⟨{ id }, []⟩

theorem kept_start (id : List Char) : (start id).Kept :=
  ⟨fun _ => ⟨rfl, rfl⟩, nofun, Int.le_refl 0, (by decide : (0 : Int) ≤ intMax), .inl rfl, List.nodup_nil, nofun⟩

/-- The markers of a session are sound all along the calls and releases exactly if each call for a marker finds none in
the trash and the counter not exhausted, or finds the last marker there. -/
theorem sound_run_iff (id : List Char) (es : List MarkerEvent) :
    Along step Sound (start id) es ↔ Along step Counts (start id) es := by
  have hstep (w : Markers) (e : MarkerEvent) (h : w.Kept) (he : w.Sound e) : (w.step e).Kept :=
    (sound_iff_counts h).2 ((sound_iff_counts h).1.mp he)
  constructor
  · exact Along.of_induct Kept (kept_start id) hstep fun w e h he => (sound_iff_counts h).1.mp he
  · exact Along.of_induct Kept (kept_start id) (fun w e h he => (sound_iff_counts h).2 he)
      fun w e h he => (sound_iff_counts h).1.mpr he

/-- A workflow is submitted and two tasks of it get their markers, the first of which is released: the next task gets it
again, but its text is that of the last one. -/
theorem not_sound_released : ¬ Along step Sound (start "s".toList)
    [.call ⟨true, true, 0, true⟩, .call ⟨true, false, 0, true⟩, .call ⟨true, false, 0, true⟩, .release 2,
      .call ⟨true, false, 0, true⟩] := by
  rintro ⟨-, -, -, -, hsound, -⟩
  have htexts := (hsound.texts ⟨some 2, ['3'], none, "s".toList⟩ 2 (by decide) rfl).1
  revert htexts
  decide

end Markers
end OphidiaWorkflow.Server
