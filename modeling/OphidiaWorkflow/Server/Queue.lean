import OphidiaWorkflow.Server.Farm

/-! In which order the queued workflows are started, and whether all of them are. -/
namespace OphidiaWorkflow.Server

open Lib

variable {sz : FarmSize} {es : List FarmEntry} {e x y : FarmEntry} {deadline : Int}

theorem purge_of_fresh {found : FarmEntry → Bool} (h : ∀ e ∈ es, e.expired deadline = false) :
    purge deadline found es = es := by
  induction es with
  | nil => rfl
  | cons e es ih =>
    unfold purge
    rw [if_neg (by rw [h e List.mem_cons_self]; decide), ih fun e' he' => h e' (List.mem_cons_of_mem _ he'), ite_self]

theorem startFirst_eq (h : ∃ e ∈ es, e.unstarted = true) :
    ∃ older e younger, es = older ++ e :: younger ∧ (∀ y ∈ older, y.unstarted = false) ∧ e.unstarted = true ∧
      startFirst es = older ++ { e with status := .pending } :: younger := by
  induction es with
  | nil => simp at h
  | cons e es ih =>
    unfold startFirst
    by_cases he : e.unstarted = true
    · rw [if_pos he]
      refine ⟨[], e, es, rfl, ?_, he, rfl⟩
      intro y hy
      cases hy
    · rw [if_neg he]
      obtain ⟨e', hmem, he'⟩ := h
      have hes : e' ∈ es := by
        rcases List.mem_cons.mp hmem with rfl | hmem
        · exact absurd he' he
        · exact hmem
      obtain ⟨older, x, younger, rfl, holder, hx, hstart⟩ := ih ⟨e', hes, he'⟩
      refine ⟨e :: older, x, younger, rfl, ?_, hx, congrArg (e :: ·) hstart⟩
      intro y hy
      rcases List.mem_cons.mp hy with rfl | hy
      · exact Bool.eq_false_iff.mpr he
      · exact holder y hy

theorem exists_unstarted_iff : (∃ e ∈ es, e.unstarted = true) ↔ running es < es.length := by
  have hle : running es ≤ es.length := List.countP_le_length
  have heq : running es = es.length ↔ ∀ e ∈ es, (!e.unstarted) = true := List.countP_eq_length
  constructor
  · rintro ⟨e, hmem, he⟩
    have hne : running es ≠ es.length := by
      intro hall
      have hnot := heq.mp hall e hmem
      rw [he] at hnot
      cases hnot
    omega
  · intro hlt
    by_contra hnone
    push Not at hnone
    have hall := heq.mpr fun e hmem => by rw [Bool.eq_false_iff.mpr (hnone e hmem)]; rfl
    omega

namespace Farm

variable {s : Farm} {a : FarmEvent} {older : List FarmEntry}

/-- The step starts `x`, which comes after `older` in the list. -/
def Starts (sz : FarmSize) (s : Farm) (a : FarmEvent) (older : List FarmEntry) (x : FarmEntry) : Prop :=
  (∃ younger, (s.step sz a).entries = older ++ x :: younger) ∧ x.started = true ∧
    ∀ y ∈ s.entries, y.idjob = x.idjob → y.started = false

/-- A workflow of the queue is not started while an older one is waiting; a new one is only if the farm has a place for
each workflow of the list. -/
def Fair (sz : FarmSize) (s : Farm) (a : FarmEvent) : Prop :=
  ∀ older x, Starts sz s a older x →
    match a with
    | .submit idjob _ _ => x.idjob = idjob ∧ (s.step sz a).entries.length ≤ sz.farm
    | _ => ∀ y ∈ older, y.unstarted = false

theorem not_mem_of_starts (h : Starts sz s a older x) : x ∉ s.entries := by
  intro hmem
  exact absurd (h.2.1.symm.trans (h.2.2 x hmem rfl)) (by decide)

theorem mem_of_starts (h : Starts sz s a older x) : x ∈ (s.step sz a).entries := by
  obtain ⟨⟨younger, he⟩, -⟩ := h
  rw [he]
  exact List.mem_append_right _ List.mem_cons_self

theorem not_starts_of_subset (hs : (s.step sz a).entries ⊆ s.entries) : ¬ Starts sz s a older x :=
  fun h => not_mem_of_starts h (hs (mem_of_starts h))

theorem fair_submit (hfarm : 0 < sz.farm) (s : Farm) (idjob now deadline : Int) :
    Fair sz s (.submit idjob now deadline) := by
  intro older x h
  have hmem := mem_of_starts h
  have hnot := not_mem_of_starts h
  have hstarted := h.2.1
  have hsub := purge_sublist deadline (hasJob idjob) s.entries
  dsimp only [step] at hmem ⊢
  obtain ⟨hs, -⟩ | ⟨hplace, hinsert⟩ | ⟨-, -, hinsert⟩ := insertJob_cases sz s.entries { idjob, timestamp := now } deadline
  · exact absurd (hs.subset hmem) hnot
  · have hlt := lt_farm_of_not_farmFull hfarm hplace
    have hlen := hsub.length_le
    rw [hinsert] at hmem ⊢
    rcases List.mem_append.mp hmem with hmem | hmem
    · exact absurd (hsub.subset hmem) hnot
    · rw [List.mem_singleton.mp hmem]
      refine ⟨rfl, ?_⟩
      show (purge deadline (hasJob idjob) s.entries ++ [_]).length ≤ _
      rw [List.length_append, List.length_singleton]
      omega
  · -- a queued workflow is not started
    rw [hinsert] at hmem
    rcases List.mem_append.mp hmem with hmem | hmem
    · exact absurd (hsub.subset hmem) hnot
    · rw [List.mem_singleton.mp hmem] at hstarted
      cases hstarted

theorem eq_of_append_cons_eq {pre post : List FarmEntry} {younger : List FarmEntry}
    (h : pre ++ e :: post = older ++ x :: younger) (hpre : x ∉ pre) (hpost : x ∉ post) : older = pre := by
  rcases List.append_eq_append_iff.mp h with ⟨as, rfl, has⟩ | ⟨as, rfl, has⟩
  · cases as with
    | nil => exact List.append_nil _
    | cons a as =>
      cases has
      exact absurd (List.mem_append_right _ List.mem_cons_self) hpost
  · cases as with
    | nil => exact (List.append_nil _).symm
    | cons a as =>
      cases has
      exact absurd (List.mem_append_right _ List.mem_cons_self) hpre

theorem fair_look (s : Farm) (deadline : Int) : Fair sz s (.look deadline) := by
  intro older x h
  have hnot := not_mem_of_starts h
  obtain ⟨⟨younger, he⟩, -⟩ := h
  dsimp only [step] at he ⊢
  split at he
  · rw [he] at hnot
    exact absurd (List.mem_append_right _ List.mem_cons_self) hnot
  · have hsub : (s.entries.filter fun e => !e.expired deadline).Sublist s.entries := List.filter_sublist
    dsimp only at he
    unfold startUnstarted at he
    split at he
    · next hstarts =>
      obtain ⟨-, -, hqueue⟩ := of_decide_eq_true hstarts
      obtain ⟨pre, e, post, hes, hpre, -, hstart⟩ := startFirst_eq (exists_unstarted_iff.mpr hqueue)
      rw [hstart] at he
      have hsub' : pre ++ e :: post ⊆ s.entries := hes ▸ hsub.subset
      have holder := eq_of_append_cons_eq he (fun hx => hnot (hsub' (List.mem_append_left _ hx)))
        fun hx => hnot (hsub' (List.mem_append_right _ (List.mem_cons_of_mem _ hx)))
      rw [holder]
      exact hpre
    · refine absurd (hsub.subset ?_) hnot
      rw [he]
      exact List.mem_append_right _ List.mem_cons_self

theorem fair_step (hfarm : 0 < sz.farm) (s : Farm) (a : FarmEvent) : Fair sz s a := by
  cases a with
  | submit idjob now deadline => exact fair_submit hfarm s idjob now deadline
  | look deadline => exact fair_look s deadline
  | mark idjob =>
    intro older x h
    obtain ⟨e, he, hx⟩ := List.mem_map.mp (mem_of_starts h)
    have hstarted := h.2.1
    rw [← hx] at hstarted
    -- a workflow that is marked is not started by that, and the others are as they were
    unfold markEntry at hx hstarted
    split at hstarted
    · simp [FarmEntry.started] at hstarted
    · next hc =>
      rw [if_neg hc] at hx
      exact absurd (hx ▸ he) (not_mem_of_starts h)
  | notify => exact fun older x h => absurd h (not_starts_of_subset fun _ => id)
  | drop idjob deadline =>
    refine fun older x h => absurd h (not_starts_of_subset ?_)
    have hsub := purge_sublist deadline (hasJob idjob) s.entries
    dsimp only [step]
    split
    · exact (List.eraseP_sublist.trans hsub).subset
    · exact hsub.subset
  | lookup found deadline =>
    exact fun older x h => absurd h (not_starts_of_subset (purge_sublist deadline found s.entries).subset)

/-- No handler is in progress and no workflow is started, but one is queued. -/
structure Forgotten (s : Farm) : Prop where
  lookers : s.lookers = 0
  unmarked : ∀ e ∈ s.entries, e.unmarked = false
  started : ∀ e ∈ s.entries, e.started = false
  unstarted : ∃ e ∈ s.entries, e.unstarted = true

/-- The lookups of the step find nothing that has expired. -/
def NoExpiry (s : Farm) : FarmEvent → Prop
  | .submit _ _ deadline | .drop _ deadline | .look deadline | .lookup _ deadline =>
    ∀ e ∈ s.entries, e.expired deadline = false
  | .mark _ | .notify => True

/-- A handler that looks for a queued workflow does not miss one that has still to be marked, or else a workflow runs or
is started, or another handler has still to look. -/
def Timely (sz : FarmSize) (s : Farm) : FarmEvent → Prop
  | .look _ => (∀ e ∈ s.entries, e.unmarked = false) ∨ (∃ e ∈ s.entries, e.started = true) ∨ sz.starts s.entries = true ∨
    1 < s.lookers
  | _ => True

instance (s : Farm) : ∀ a, Decidable (s.NoExpiry a)
  | .submit _ _ deadline | .drop _ deadline | .look deadline | .lookup _ deadline =>
    inferInstanceAs (Decidable (∀ e ∈ s.entries, e.expired deadline = false))
  | .mark _ | .notify => .isTrue trivial

instance (sz : FarmSize) (s : Farm) : ∀ a, Decidable (s.Timely sz a)
  | .look _ => inferInstanceAs (Decidable ((∀ e ∈ s.entries, e.unmarked = false) ∨ (∃ e ∈ s.entries, e.started = true) ∨
    sz.starts s.entries = true ∨ 1 < s.lookers))
  | .submit _ _ _ | .drop _ _ | .lookup _ _ | .mark _ | .notify => .isTrue trivial

/-- While a workflow is waiting, one is started or a handler has still to look for it. -/
structure Watched (s : Farm) : Prop where
  watched : (∃ e ∈ s.entries, e.started = false) → (∃ e ∈ s.entries, e.started = true) ∨ 0 < s.lookers
  marked : ∀ e ∈ s.entries, e.unstarted = true → e.unmarked = false

theorem started_of (h : e.unstarted = false) (h' : e.unmarked = false) : e.started = true := by
  simp_all [FarmEntry.started, FarmEntry.unstarted]

theorem watched_submit (hfarm : 0 < sz.farm) (h : s.Watched) {idjob now deadline : Int}
    (hn : s.NoExpiry (.submit idjob now deadline)) : (s.step sz (.submit idjob now deadline)).Watched := by
  have hmarked (e : FarmEntry) (he : e.unstarted = false) :
      ∀ e' ∈ s.entries ++ [e], e'.unstarted = true → e'.unmarked = false := by
    intro e' he' hu
    rcases List.mem_append.mp he' with he' | he'
    · exact h.marked e' he' hu
    · rw [List.mem_singleton.mp he', he] at hu
      cases hu
  dsimp only [step]
  obtain ⟨-, hcode⟩ | ⟨-, hinsert⟩ | ⟨hff, -, hinsert⟩ := insertJob_cases sz s.entries { idjob, timestamp := now } deadline
  · -- nothing is inserted, and nothing has expired
    have hsame : (insertJob sz s.entries { idjob, timestamp := now } deadline).2 = s.entries := by
      unfold insertJob at hcode ⊢
      rw [purge_of_fresh hn] at hcode ⊢
      split
      · rfl
      · dsimp only
        split
        · rfl
        · next hfull hnew =>
          rw [if_neg hfull] at hcode
          dsimp only at hcode
          rw [if_neg hnew] at hcode
          split at hcode <;> simp at hcode
    rw [hsame]
    exact h
  · rw [hinsert, purge_of_fresh hn]
    refine ⟨fun _ => .inl ⟨_, List.mem_append_right _ (List.mem_singleton_self _), rfl⟩, hmarked _ rfl⟩
  · rw [hinsert, purge_of_fresh hn]
    refine ⟨fun _ => ?_, hmarked _ rfl⟩
    -- the farm is full, so that the list is not empty
    obtain ⟨e, hmem⟩ : ∃ e, e ∈ s.entries := by
      obtain ⟨-, hle⟩ := of_decide_eq_true hff
      exact List.exists_mem_of_length_pos (by omega)
    by_cases he : e.started = true
    · exact .inl ⟨e, List.mem_append_left _ hmem, he⟩
    · rcases h.watched ⟨e, hmem, Bool.eq_false_iff.mpr he⟩ with ⟨e', hmem', he'⟩ | hl
      · exact .inl ⟨e', List.mem_append_left _ hmem', he'⟩
      · exact .inr hl

theorem watched_mark (h : s.Watched) (idjob : Int) : (s.step sz (.mark idjob)).Watched := by
  have hkeep (e : FarmEntry) (he : e.started = true) : markEntry idjob e = e := by
    have hm : e.unmarked = false := by
      simp_all [FarmEntry.started]
    unfold markEntry
    rw [hm]
    exact if_neg (by simp)
  constructor
  · rintro ⟨e', hmem', he'⟩
    obtain ⟨e, hmem, rfl⟩ := List.mem_map.mp hmem'
    have he : e.started = false := by
      by_contra hne
      rw [Bool.not_eq_false] at hne
      rw [hkeep e hne, hne] at he'
      cases he'
    rcases h.watched ⟨e, hmem, he⟩ with ⟨x, hx, hs⟩ | hl
    · refine .inl ⟨x, List.mem_map.mpr ⟨x, hx, hkeep x hs⟩, hs⟩
    · exact .inr hl
  · intro e' hmem' hu
    obtain ⟨e, hmem, rfl⟩ := List.mem_map.mp hmem'
    unfold markEntry at hu ⊢
    split
    · rfl
    · next hc =>
      rw [if_neg hc] at hu
      exact h.marked e hmem hu

theorem watched_look (hfarm : 0 < sz.farm) (h : s.Watched) {deadline : Int} (hn : s.NoExpiry (.look deadline))
    (ht : s.Timely sz (.look deadline)) : (s.step sz (.look deadline)).Watched := by
  have hfilter : (s.entries.filter fun e => !e.expired deadline) = s.entries := by
    rw [List.filter_eq_self]
    intro e he
    rw [hn e he]
    rfl
  dsimp only [step]
  split
  · exact h
  · rw [hfilter]
    unfold startUnstarted
    by_cases hstarts : sz.starts s.entries = true
    · rw [if_pos hstarts]
      obtain ⟨-, -, hqueue⟩ := of_decide_eq_true hstarts
      obtain ⟨pre, e, post, hes, -, he, hstart⟩ := startFirst_eq (exists_unstarted_iff.mpr hqueue)
      have hmem : e ∈ s.entries := hes ▸ List.mem_append_right _ List.mem_cons_self
      have hm : e.unmarked = false := h.marked e hmem he
      rw [hstart]
      constructor
      · intro _
        refine .inl ⟨_, List.mem_append_right _ List.mem_cons_self, ?_⟩
        simp [FarmEntry.started, hm]
      · intro e' he' hu
        rcases List.mem_append.mp he' with he' | he'
        · exact h.marked e' (hes ▸ List.mem_append_left _ he') hu
        · rcases List.mem_cons.mp he' with rfl | he'
          · exact hm
          · exact h.marked e' (hes ▸ List.mem_append_right _ (List.mem_cons_of_mem _ he')) hu
    · rw [if_neg hstarts]
      refine ⟨fun hwait => ?_, h.marked⟩
      rcases ht with hmarked | hrun | hst | hl
      · -- all are marked: the farm is full, or no workflow is waiting
        obtain ⟨e, hmem, he⟩ := hwait
        have hu : e.unstarted = true := by
          by_contra hne
          rw [Bool.not_eq_true] at hne
          rw [started_of hne (hmarked e hmem)] at he
          cases he
        have hqueue := exists_unstarted_iff.mp ⟨e, hmem, hu⟩
        have hplace : 0 < running s.entries := by
          have hnot := of_decide_eq_false (Bool.eq_false_iff.mpr hstarts)
          by_contra hzero
          exact hnot ⟨by omega, by omega, hqueue⟩
        obtain ⟨x, hx, hxu⟩ := List.countP_pos_iff.mp hplace
        exact .inl ⟨x, hx, started_of (by simpa using hxu) (hmarked x hx)⟩
      · exact .inl hrun
      · exact absurd hst hstarts
      · exact .inr (by show 0 < s.lookers - 1; omega)

theorem watched_step (hfarm : 0 < sz.farm) (h : s.Watched) (hn : s.NoExpiry a) (ht : s.Timely sz a) :
    (s.step sz a).Watched := by
  cases a with
  | submit idjob now deadline => exact watched_submit hfarm h hn
  | mark idjob => exact watched_mark h idjob
  | notify => exact ⟨fun _ => .inr (Nat.succ_pos _), h.marked⟩
  | drop idjob deadline =>
    dsimp only [step]
    rw [purge_of_fresh hn]
    split
    · refine ⟨fun _ => .inr (Nat.succ_pos _), fun e he => h.marked e (List.mem_of_mem_eraseP he)⟩
    · exact h
  | look deadline => exact watched_look hfarm h hn ht
  | lookup found deadline =>
    dsimp only [step]
    rw [purge_of_fresh hn]
    exact h

/-- Without expiries, and if no handler looks for queued workflows too early, no queued workflow is forgotten. -/
theorem not_forgotten_run (hfarm : 0 < sz.farm) {as : List FarmEvent}
    (h : Along (step sz) (fun s a => s.NoExpiry a ∧ s.Timely sz a) {} as) : ¬ (as.foldl (step sz) {}).Forgotten := by
  have h0 : Watched {} := ⟨nofun, nofun⟩
  have hw := Along.run_induct Watched h0 (fun s a hw ha => watched_step hfarm hw ha.1 ha.2) h
  intro hf
  obtain ⟨e, hmem, -⟩ := hf.unstarted
  rcases hw.watched ⟨e, hmem, hf.started e hmem⟩ with ⟨x, hx, hs⟩ | hl
  · rw [hf.started x hx] at hs
    cases hs
  · rw [hf.lookers] at hl
    cases hl

/-- The queued workflow is marked before the one that runs ends. -/
theorem not_forgotten_marked :
    (0 : Nat) < 1 ∧ ¬ ([.submit 1 0 0, .submit 2 0 0, .mark 2, .drop 1 0, .look 0].foldl (step ⟨1, 0⟩) {}).Forgotten :=
  ⟨by decide, not_forgotten_run (by decide) (by decide)⟩

/-- The workflow that runs ends, and its handler looks at the queue, before the queued workflow is marked. -/
theorem forgotten_unmarked :
    let as := [FarmEvent.submit 1 0 0, .submit 2 0 0, .drop 1 0, .look 0, .mark 2]
    Along (step ⟨1, 0⟩) NoExpiry {} as ∧ (as.foldl (step ⟨1, 0⟩) {}).Forgotten :=
  ⟨by decide, by decide, by decide, by decide, by decide⟩

end Farm
end OphidiaWorkflow.Server
