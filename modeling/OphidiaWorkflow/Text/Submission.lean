import OphidiaWorkflow.Setup.Validate
import OphidiaWorkflow.Text.Query
import OphidiaWorkflow.Text.Substitute

/-! `oph_workflow_get_submission_string`: the text by which a task is handed to the resource manager. -/
namespace OphidiaWorkflow

open Lib

/-- The name of an operator, as the request has it. -/
def Operator.text : Operator → String
  | set => "oph_set"
  | .for => "oph_for"
  | endfor => "oph_endfor"
  | .if => "oph_if"
  | elseif => "oph_elseif"
  | .else => "oph_else"
  | endif => "oph_endif"
  | wait => "oph_wait"
  | input => "oph_input"
  | other name => name

/-- What the string takes from the workflow beside its tasks. `webServer` is the global `oph_web_server`. -/
structure Session where
  webServer : Option String := none
  sessionid : String
  workflowid : Int := 1
  username : String
  iduser : Int := 1
  userrole : Int := 31
  execMode : String := "async"
  hostPartition : Option String := none
  nhosts : Int := 0
  deriving DecidableEq, Repr

/-- `oph_get_session_code`: the piece of the session identifier that names the folder of the session. -/
def sessionCode (webServer : Option String) (sessionid : String) : Option (List Char) :=
  match webServer with
  | some w =>
    if 4096 ≤ w.length ∨ !w.toList.isPrefixOf sessionid.toList then none
    else (tokens '/' (sessionid.toList.drop w.length))[1]?
  | none => (tokens '/' sessionid.toList)[3]?

def Session.code (se : Session) : Option (List Char) := sessionCode se.webServer se.sessionid

/-- The pairs of `OPH_WORKFLOW_EXT_SUB_STRING`. -/
def fixedPairs (se : Session) (wf : Workflow) (i : Nat) : List (List Char × List Char) :=
  [("operator".toList, (wf.tasks i).operator.text.toList), ("sessionid".toList, se.sessionid.toList),
    ("workflowid".toList, decimal se.workflowid), ("markerid".toList, decimal (wf.tasks i).markerid),
    ("username".toList, se.username.toList), ("userid".toList, decimal se.iduser),
    ("userrole".toList, decimal se.userrole), ("parentid".toList, decimal wf.idjob), ("taskindex".toList, decimal i),
    ("lighttaskindex".toList, decimal (-1)), ("exec_mode".toList, se.execMode.toList)]

/-- No argument has this key. -/
def lacksKey (key : String) (as : List Argument) : Bool := as.all fun a => a.key != key

/-- The pairs added for the whole workflow, unless the task has them among its arguments. -/
def hostPairs (se : Session) (as : List Argument) : List (List Char × List Char) :=
  (match se.hostPartition with
    | some h => if lacksKey "host_partition" as then [("host_partition".toList, h.toList)] else []
    | none => []) ++
  if se.nhosts ≠ 0 ∧ lacksKey "nhost" as then [("nhost".toList, decimal se.nhosts)] else []

/-- Size of the buffer `key_value`. -/
def argumentSize (as : List Argument) : Nat :=
  as.foldl (fun n a => max n (3 + a.key.length + (a.value.getD "").length)) maxString

/-- Path correction: the folders of a session stand below the one that is named by its code. -/
def correctPath (code : List Char) (key value : List Char) : List Char :=
  if value.head? = some '/' ∧ (key = "cwd".toList ∨ key = "path".toList) then
    ('/' :: (code ++ if 1 < value.length then value else [])).take (maxString - 1)
  else value

/-- The pair made of an argument; an empty key or an empty value is skipped. -/
def sentPair (code : List Char) (a : Argument) : Option (List Char × List Char) :=
  match a.value with
  | none => none
  | some value =>
    if a.key.toList = [] ∨ value.toList = [] then none
    else some (a.key.toList, correctPath code a.key.toList value.toList)

/-- The string before the substitution of variables. -/
def longString (se : Session) (wf : Workflow) (i : Nat) (code : List Char) : List Char :=
  let as := (wf.tasks i).arguments
  renderPairs (fixedPairs se wf i) ++ (hostPairs se as).flatMap (fun p => (renderPair p).take (maxString - 1)) ++
    (as.filterMap (sentPair code)).flatMap fun p => (renderPair p).take (argumentSize as - 1)

/-- `oph_workflow_get_submission_string` for a task as a whole; `none` if `fuel` rounds of substitution are not
enough. -/
def getSubmissionString (se : Session) (wf : Workflow) (i : Nat) (ncores nhosts : Int) (fuel : Nat) :
    Option (Except ExitCode (List Char)) :=
  if wf.tasksNum < i ∨ (i = wf.tasksNum ∧ wf.finalTask = false) then some (.error .badParamError)
  else
    match se.code with
    | none => some (.error .badParamError)
    | some code =>
      (varSubstitute (wf.scope i ncores nhosts) none fuel { text := longString se wf i code }).map fun r =>
        match r with
        | .ok s => .ok s
        | .error _ => .error .badParamError

/-- The arguments of a task as pairs. -/
def argumentPairs (as : List Argument) : List (List Char × List Char) :=
  as.map fun a => (a.key.toList, (a.value.getD "").toList)

/-- What the parser is expected to find: the fixed pairs, those of the whole workflow, and the arguments of the task. -/
def submissionPairs (se : Session) (wf : Workflow) (i : Nat) : List (List Char × List Char) :=
  fixedPairs se wf i ++ hostPairs se (wf.tasks i).arguments ++ argumentPairs (wf.tasks i).arguments

/-- The task can be sent: every pair is closed and fits its buffer, and no argument is skipped or corrected. -/
structure Sendable (se : Session) (code : List Char) (wf : Workflow) (i : Nat) : Prop where
  fixed : ∀ p ∈ fixedPairs se wf i, closedValue p.2 = true
  host : ∀ p ∈ hostPairs se (wf.tasks i).arguments, closedValue p.2 = true ∧ (renderPair p).length < maxString
  argument : ∀ a ∈ (wf.tasks i).arguments, a.key.toList ≠ [] ∧ (a.value.getD "").toList ≠ [] ∧
    correctPath code a.key.toList (a.value.getD "").toList = (a.value.getD "").toList ∧
    closedValue (a.value.getD "").toList = true

section Submission

variable {se : Session} {wf : Workflow} {i : Nat} {code k v : List Char} {a : Argument} {as : List Argument} {n : Nat}
  {ps : List (List Char × List Char)} {p : List Char × List Char}

theorem not_mem_code (hs : ';' ∉ se.sessionid.toList) (h : se.code = some code) : ';' ∉ code := by
  intro hm
  unfold Session.code sessionCode at h
  split at h
  · next w hw =>
    split at h
    · cases h
    · exact hs (List.mem_of_mem_drop (mem_of_mem_tokens (List.mem_of_getElem? h) hm))
  · exact hs (mem_of_mem_tokens (List.mem_of_getElem? h) hm)

theorem count_correctPath (hs : ';' ∉ code) : (correctPath code k v).count ';' ≤ v.count ';' := by
  unfold correctPath
  split
  · apply ((List.take_sublist _ _).count_le ';').trans
    rw [List.count_cons_of_ne (by decide), List.count_append, List.count_eq_zero_of_not_mem hs, Nat.zero_add]
    split
    · exact Nat.le_refl _
    · exact Nat.zero_le _
  · exact Nat.le_refl _

theorem not_mem_correctPath (hs : ';' ∉ code) (hv : ';' ∉ v) : ';' ∉ correctPath code k v := by
  have := @count_correctPath code k v hs
  rw [List.count_eq_zero_of_not_mem hv] at this
  exact List.count_eq_zero.mp (Nat.le_zero.mp this)

theorem renderPair_eq (p : List Char × List Char) : renderPair p = (p.1 ++ '=' :: p.2) ++ [';'] := by
  rw [renderPair, List.append_assoc, List.cons_append]

theorem count_renderPair (p : List Char × List Char) :
    (renderPair p).count ';' = p.1.count ';' + p.2.count ';' + 1 := by
  rw [renderPair_eq, List.count_append, List.count_append, List.count_cons_of_ne (by decide),
    List.count_singleton_self]

theorem take_renderPair (h : (renderPair p).count ';' ≤ ((renderPair p).take n).count ';') :
    (renderPair p).take n = renderPair p := by
  rw [renderPair_eq] at h ⊢
  exact take_eq_self_of_count h

/-- The text written for one argument. -/
def sentText (code : List Char) (n : Nat) (a : Argument) : List Char :=
  ((sentPair code a).map fun p => (renderPair p).take n).getD []

theorem flatMap_sentPair (code : List Char) (n : Nat) (as : List Argument) :
    ((as.filterMap (sentPair code)).flatMap fun p => (renderPair p).take n) = as.flatMap (sentText code n) := by
  induction as with
  | nil => rfl
  | cons a as ih =>
    rw [List.flatMap_cons, ← ih]
    cases hp : sentPair code a with
    | none => simp [sentText, hp]
    | some p => simp [sentText, hp]

/-- An argument is neither skipped nor cut. -/
def Kept (code : List Char) (n : Nat) (a : Argument) : Prop :=
  a.key.toList ≠ [] ∧ (a.value.getD "").toList ≠ [] ∧
    sentText code n a = renderPair (a.key.toList, correctPath code a.key.toList (a.value.getD "").toList)

theorem sentText_cases (code : List Char) (n : Nat) (a : Argument) :
    ((a.key.toList = [] ∨ (a.value.getD "").toList = []) ∧ sentText code n a = []) ∨
      (a.key.toList ≠ [] ∧ (a.value.getD "").toList ≠ [] ∧
      sentText code n a =
        (renderPair (a.key.toList, correctPath code a.key.toList (a.value.getD "").toList)).take n) := by
  unfold sentText sentPair
  cases hv : a.value with
  | none => exact .inl ⟨.inr rfl, rfl⟩
  | some v =>
    by_cases he : a.key.toList = [] ∨ v.toList = []
    · left
      refine ⟨he, ?_⟩
      simp only [if_pos he, Option.map_none, Option.getD_none]
    · right
      refine ⟨fun h => he (.inl h), fun h => he (.inr h), ?_⟩
      simp only [if_neg he, Option.map_some, Option.getD_some]

theorem count_sentText_le (hs : ';' ∉ code) (n : Nat) (a : Argument) :
    (sentText code n a).count ';' ≤ (renderPair (a.key.toList, (a.value.getD "").toList)).count ';' := by
  rcases sentText_cases code n a with ⟨-, h⟩ | ⟨-, -, h⟩
  · rw [h]
    exact Nat.zero_le _
  · rw [h]
    apply ((List.take_sublist _ _).count_le ';').trans
    rw [count_renderPair, count_renderPair]
    exact Nat.add_le_add_right (Nat.add_le_add_left (count_correctPath hs) _) 1

theorem kept_of_count (hs : ';' ∉ code)
    (h : (renderPair (a.key.toList, (a.value.getD "").toList)).count ';' ≤ (sentText code n a).count ';') :
    Kept code n a := by
  rcases sentText_cases code n a with ⟨-, hn⟩ | ⟨hk, hv, hr⟩
  · rw [hn, count_renderPair, List.count_nil] at h
    omega
  · refine ⟨hk, hv, ?_⟩
    rw [hr] at h ⊢
    apply take_renderPair
    refine le_trans ?_ h
    rw [count_renderPair, count_renderPair]
    exact Nat.add_le_add_right (Nat.add_le_add_left (count_correctPath hs) _) 1

/-- A corrected value that the parser reads as the original one has not been corrected at all. -/
theorem correctPath_eq_of_append (hs : ';' ∉ code) (hv : closedValue v = true) {s t : List Char}
    (h : correctPath code k v ++ ';' :: s = v ++ ';' :: t) : correctPath code k v = v ∧ s = t := by
  by_cases hp : v.head? = some '/' ∧ (k = "cwd".toList ∨ k = "path".toList)
  · -- the value starts with a slash, so it holds no `;`
    have hv : ';' ∉ v := by
      unfold closedValue at hv
      rw [hp.1] at hv
      exact of_decide_eq_true hv
    have hc := cutAt_append_cons s (@not_mem_correctPath code k v hs hv)
    rw [h, cutAt_append_cons t hv] at hc
    obtain ⟨he, ht⟩ := Prod.mk.inj (Option.some.inj hc)
    exact ⟨he.symm, ht.symm⟩
  · have hc : correctPath code k v = v := by rw [correctPath, if_neg hp]
    rw [hc] at h ⊢
    exact ⟨rfl, (List.cons.inj (List.append_cancel_left h)).2⟩

theorem correctPath_eq_of_sent (hs : ';' ∉ code) (hk : ∀ a ∈ as, Kept code n a)
    (hc : ∀ p ∈ argumentPairs as, closedPair p = true) {r : List Char}
    (h : as.flatMap (sentText code n) = renderPairs (argumentPairs as) ++ r) :
    ∀ a ∈ as, correctPath code a.key.toList (a.value.getD "").toList = (a.value.getD "").toList := by
  induction as with
  | nil => exact fun a ha => absurd ha List.not_mem_nil
  | cons a as ih =>
    have ha := (hk a List.mem_cons_self).2.2
    have hca := hc _ List.mem_cons_self
    rw [closedPair, Bool.and_eq_true] at hca
    rw [List.flatMap_cons, ha, renderPair, argumentPairs, List.map_cons, renderPairs_cons] at h
    simp only [List.append_assoc, List.cons_append, List.nil_append] at h
    have h := (List.cons.inj (List.append_cancel_left h)).2
    obtain ⟨hv, h⟩ := correctPath_eq_of_append hs hca.2 h
    exact List.forall_mem_cons.mpr ⟨hv, ih (fun b hb => hk b (List.mem_cons_of_mem _ hb))
      (fun p hp => hc p (List.mem_cons_of_mem _ hp)) h⟩

/-- The validator lets no key through that the parser would cut. -/
theorem key_of_validate {fuel : Nat} (h : validate fuel wf = some .success) (hi : i < wf.tasksNum)
    (ha : a ∈ (wf.tasks i).arguments) : '=' ∉ a.key.toList := by
  unfold validate at h
  split at h
  · cases h
  · split at h
    · cases h
    · next hr =>
      rw [Bool.not_eq_true, Bool.not_eq_false'] at hr
      obtain ⟨b', hb'⟩ := Option.isSome_iff_exists.mp hr
      obtain ⟨b, b₁, hb⟩ := exists_of_foldlM_some hb' (List.mem_range.mpr hi)
      obtain ⟨d, d', hd⟩ := exists_of_foldlM_some hb ha
      unfold scanArgument at hd
      split at hd
      · cases hd
      · next hk => exact fun hm => hk (.inr hm)

theorem le_foldl_max {f : Argument → Nat} (as : List Argument) (n : Nat) :
    n ≤ as.foldl (fun n a => max n (f a)) n ∧ ∀ a ∈ as, f a ≤ as.foldl (fun n a => max n (f a)) n := by
  induction as generalizing n with
  | nil => exact ⟨Nat.le_refl n, fun a ha => absurd ha List.not_mem_nil⟩
  | cons b as ih =>
    obtain ⟨hn, has⟩ := ih (max n (f b))
    exact ⟨(le_max_left _ _).trans hn, List.forall_mem_cons.mpr ⟨(le_max_right _ _).trans hn, has⟩⟩

theorem sentText_eq (ha : a ∈ as) (hk : a.key.toList ≠ []) (hv : (a.value.getD "").toList ≠ [])
    (hc : correctPath code a.key.toList (a.value.getD "").toList = (a.value.getD "").toList) :
    sentText code (argumentSize as - 1) a = renderPair (a.key.toList, (a.value.getD "").toList) := by
  rcases sentText_cases code (argumentSize as - 1) a with ⟨he, -⟩ | ⟨-, -, h⟩
  · exact absurd he (not_or.mpr ⟨hk, hv⟩)
  · rw [h, hc]
    apply List.take_of_length_le
    have : 3 + a.key.length + (a.value.getD "").length ≤ argumentSize as :=
      (@le_foldl_max (fun a => 3 + a.key.length + (a.value.getD "").length) as maxString).2 a ha
    simp only [renderPair, List.length_append, List.length_cons, List.length_nil, String.length_toList]
    omega

theorem longString_eq (h : Sendable se code wf i) :
    longString se wf i code = renderPairs (submissionPairs se wf i) := by
  have hh : (hostPairs se (wf.tasks i).arguments).flatMap (fun p => (renderPair p).take (maxString - 1)) =
      renderPairs (hostPairs se (wf.tasks i).arguments) := by
    apply List.flatMap_congr
    intro p hp
    have := (h.host p hp).2
    exact List.take_of_length_le (by omega)
  have ha : (wf.tasks i).arguments.flatMap (sentText code (argumentSize (wf.tasks i).arguments - 1)) =
      renderPairs (argumentPairs (wf.tasks i).arguments) := by
    rw [renderPairs, argumentPairs, List.flatMap_map]
    apply List.flatMap_congr
    intro a ha
    obtain ⟨hk, hv, hc, -⟩ := h.argument a ha
    exact sentText_eq ha hk hv hc
  rw [submissionPairs, renderPairs_append, renderPairs_append, ← hh, ← ha, ← flatMap_sentPair]
  rfl

theorem key_of_fixedPairs (hp : p ∈ fixedPairs se wf i) : '=' ∉ p.1 := by
  simp only [fixedPairs, List.mem_cons, List.not_mem_nil, or_false] at hp
  rcases hp with rfl | rfl | rfl | rfl | rfl | rfl | rfl | rfl | rfl | rfl | rfl <;> show _ ∉ String.toList _ <;> decide

theorem key_of_hostPairs (hp : p ∈ hostPairs se as) : '=' ∉ p.1 := by
  unfold hostPairs at hp
  rcases List.mem_append.mp hp with hp | hp
  · split at hp
    · split at hp
      · rw [List.mem_singleton.mp hp]
        show _ ∉ String.toList _
        decide
      · cases hp
    · cases hp
  · split at hp
    · rw [List.mem_singleton.mp hp]
      show _ ∉ String.toList _
      decide
    · cases hp

theorem sendable_of_parseQuery (hs : ';' ∉ code)
    (h : parseQuery (longString se wf i code) = some (submissionPairs se wf i)) : Sendable se code wf i := by
  obtain ⟨⟨r, he⟩, hc⟩ := closed_of_parseQuery h
  have hclosed (p) (hp : p ∈ submissionPairs se wf i) : closedValue p.2 = true := (Bool.and_eq_true_iff.mp (hc p hp)).2
  rw [longString, flatMap_sentPair, submissionPairs, renderPairs_append, renderPairs_append] at he
  generalize argumentSize (wf.tasks i).arguments - 1 = n at he
  simp only [List.append_assoc] at he
  have he := List.append_cancel_left he
  -- count the `;`: no piece of the string has more of them than its pair, and in all there are enough
  have hcut (p) (_ : p ∈ hostPairs se (wf.tasks i).arguments) :
      ((renderPair p).take (maxString - 1)).count ';' ≤ (renderPair p).count ';' := (List.take_sublist _ _).count_le _
  have hsent (a) (_ : a ∈ (wf.tasks i).arguments) := count_sentText_le hs n a
  have hcount := congrArg (List.count ';') he
  simp only [List.count_append, renderPairs, argumentPairs, List.flatMap_map] at hcount
  have hhost := count_le_of_flatMap hcut (by have := count_flatMap_le hsent; omega)
  have hargs := count_le_of_flatMap hsent (by have := count_flatMap_le hcut; omega)
  have hfits (p) (hp : p ∈ hostPairs se (wf.tasks i).arguments) := take_renderPair (hhost p hp)
  have hkept (a) (ha : a ∈ (wf.tasks i).arguments) := kept_of_count hs (hargs a ha)
  rw [List.flatMap_congr hfits] at he
  have hpath := correctPath_eq_of_sent hs hkept (fun p hp => hc p (List.mem_append_right _ hp))
    (List.append_cancel_left he)
  refine ⟨fun p hp => hclosed p ?_, fun p hp => ⟨hclosed p ?_, ?_⟩, fun a ha => ?_⟩
  · exact List.mem_append_left _ (List.mem_append_left _ hp)
  · exact List.mem_append_left _ (List.mem_append_right _ hp)
  · have hl := congrArg List.length (hfits p hp)
    rw [List.length_take] at hl
    unfold maxString at hl ⊢
    omega
  · obtain ⟨hk, hv, -⟩ := hkept a ha
    exact ⟨hk, hv, hpath a ha, hclosed _ (List.mem_append_right _ (List.mem_map_of_mem ha))⟩

theorem parseQuery_longString {fuel : Nat} (hwf : validate fuel wf = some .success) (hi : i < wf.tasksNum)
    (h : Sendable se code wf i) : parseQuery (longString se wf i code) = some (submissionPairs se wf i) := by
  rw [longString_eq h, parseQuery_renderPairs_iff]
  refine ⟨by simp [submissionPairs, fixedPairs], fun p hp => ?_⟩
  rw [closedPair, Bool.and_eq_true, decide_eq_true_iff]
  rcases List.mem_append.mp hp with hp | hp
  · rcases List.mem_append.mp hp with hp | hp
    · exact ⟨key_of_fixedPairs hp, h.fixed p hp⟩
    · exact ⟨key_of_hostPairs hp, (h.host p hp).1⟩
  · obtain ⟨a, ha, rfl⟩ := List.mem_map.mp hp
    exact ⟨key_of_validate hwf hi ha, (h.argument a ha).2.2.2⟩

/--
Renderer and parser are inverse to each other on a task of an accepted workflow exactly when the task can be sent. The
validator promises this of the keys, not of the values. Session identifiers, which the server makes, hold no `;`.
-/
theorem submission_parsed_iff {fuel : Nat} (hwf : validate fuel wf = some .success) (hi : i < wf.tasksNum)
    (hcode : se.code = some code) {rounds : Nat} {ncores nhosts : Int}
    (href : varSubstitute (wf.scope i ncores nhosts) none rounds { text := longString se wf i code } =
      some (.ok (longString se wf i code))) :
    ∃ s, getSubmissionString se wf i ncores nhosts rounds = some (.ok s) ∧
      (Sendable se code wf i → parseQuery s = some (submissionPairs se wf i)) ∧
      (';' ∉ se.sessionid.toList → parseQuery s = some (submissionPairs se wf i) → Sendable se code wf i) := by
  refine ⟨longString se wf i code, ?_, parseQuery_longString hwf hi,
    fun hs => sendable_of_parseQuery (not_mem_code hs hcode)⟩
  have hn : ¬(wf.tasksNum < i ∨ (i = wf.tasksNum ∧ wf.finalTask = false)) := by omega
  simp only [getSubmissionString, if_neg hn, hcode, href, Option.map_some]

end Submission

/-- One task with one argument. -/
def argumentRequest (key value : String) : Workflow where
  tasks := taskArray [{ name := "A", operator := .other "oph_a", arguments := [{ key := key, value := some value }] }]
  tasksNum := 1
  residualTasksNum := 1

def argumentSession : Session where
  sessionid := "http://host/sessions/c0de/experiment"
  username := "user"

/-- `cube=[a;b];` is a group for everybody. -/
theorem submission_parsed_iff_group :
    ∃ s, getSubmissionString argumentSession (argumentRequest "cube" "[a;b]") 0 0 0 0 = some (.ok s) ∧
      parseQuery s = some (submissionPairs argumentSession (argumentRequest "cube" "[a;b]") 0) := by
  have hcode : argumentSession.code = some "c0de".toList := by decide
  have href : varSubstitute ((argumentRequest "cube" "[a;b]").scope 0 0 0) none 0
      { text := longString argumentSession (argumentRequest "cube" "[a;b]") 0 "c0de".toList } =
      some (.ok (longString argumentSession (argumentRequest "cube" "[a;b]") 0 "c0de".toList)) :=
    varSubstitute_of_no_prefix (by decide +kernel) _ _ _
  obtain ⟨s, hs, hparse, -⟩ := @submission_parsed_iff argumentSession (argumentRequest "cube" "[a;b]") 0 _ 2
    (by decide) (by decide) hcode 0 0 0 href
  exact ⟨s, hs, hparse ⟨by decide +kernel, by decide +kernel, by decide +kernel⟩⟩

/-- `x[a;b]` is a group for the validator only: the parser cuts the value at its `;`. -/
theorem submission_not_parsed_group :
    validate 2 (argumentRequest "cube" "x[a;b]") = some .success ∧
      ∃ s, getSubmissionString argumentSession (argumentRequest "cube" "x[a;b]") 0 0 0 0 = some (.ok s) ∧
        (parseQuery s).map (List.drop 11) = some [("cube".toList, "x[a".toList)] ∧
        parseQuery s ≠ some (submissionPairs argumentSession (argumentRequest "cube" "x[a;b]") 0) := by
  refine ⟨by decide, longString argumentSession (argumentRequest "cube" "x[a;b]") 0 "c0de".toList, ?_, ?_, ?_⟩
  · decide +kernel
  · decide +kernel
  · decide +kernel

end OphidiaWorkflow
