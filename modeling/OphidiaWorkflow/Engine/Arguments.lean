import OphidiaWorkflow.Engine.Layout
import OphidiaWorkflow.Lib.Ordered

/-!
The arguments that a task gets from the outputs of its parents: they are queued as the parents complete and printed when
the task is submitted.
-/
namespace OphidiaWorkflow

/-! ## Queues -/

/-- An object is queued for the argument `key`, which is added if it is missing. -/
def queue (arguments : List Argument) (key order object : String) : List Argument :=
  match arguments.findIdx? fun x => x.key == key with
  | none => arguments ++ [{ key := key, list := [(order, object)] }]
  | some k => arguments.modify k fun x => { x with list := addToList order object x.list }

/-- The value of an argument and the objects queued for it. -/
def pending (arguments : List Argument) (key : String) : Option String × List (String × String) :=
  ((arguments.find? fun x => x.key == key).map fun x => (x.value, x.list)).getD (none, [])

/-- The value of an argument. -/
def argumentValue (arguments : List Argument) (key : String) : Option String :=
  (arguments.find? fun x => x.key == key).bind fun x => x.value

/-- The queues are moved into the values. -/
def printAll (arguments : List Argument) : List Argument :=
  arguments.map fun x => { x with value := printList x.value x.list, list := [] }

/-- The texts are joined with a bar; without any there is no value. -/
def joined (l : List String) : Option String := if l = [] then none else some ("|".intercalate l)

section Queues

variable {arguments : List Argument} {key order object a : String}

theorem addArgument_eq (t : Task) :
    t.addArgument key order object = { t with arguments := queue t.arguments key order object } := by
  unfold Task.addArgument queue
  cases t.arguments.findIdx? fun x => x.key == key with
  | none => rfl
  | some k => rfl

theorem addToList_eq (l : List (String × String)) : addToList order object l = Lib.insertPair l (order, object) := by
  unfold Lib.insertPair
  induction l with
  | nil => rfl
  | cons c l ih => rw [addToList, List.orderedInsert, ih]

theorem pending_cons (x : Argument) :
    pending (x :: arguments) a = if x.key = a then (x.value, x.list) else pending arguments a := by
  unfold pending
  by_cases hx : x.key = a
  · simp [hx]
  · simp [beq_eq_false_iff_ne.mpr hx, hx]

theorem queue_cons (x : Argument) : queue (x :: arguments) key order object =
    if x.key = key then { x with list := addToList order object x.list } :: arguments
    else x :: queue arguments key order object := by
  unfold queue
  rw [List.findIdx?_cons]
  by_cases hx : x.key = key
  · simp [hx]
  · cases h : arguments.findIdx? fun x => x.key == key with
    | none => simp [hx]
    | some k => simp [hx]

theorem pending_queue : pending (queue arguments key order object) a =
    if key = a then ((pending arguments a).1, Lib.insertPair (pending arguments a).2 (order, object))
    else pending arguments a := by
  induction arguments with
  | nil =>
    show pending [{ key := key, list := [(order, object)] }] a = _
    rw [pending_cons]
    rfl
  | cons x arguments ih =>
    rw [queue_cons, pending_cons]
    by_cases hx : x.key = key
    · rw [if_pos hx, pending_cons, addToList_eq]
      by_cases hk : key = a
      · rw [if_pos (hx.trans hk), if_pos hk, if_pos (hx.trans hk)]
      · rw [if_neg fun h => hk (hx.symm.trans h), if_neg hk, if_neg fun h => hk (hx.symm.trans h)]
    · rw [if_neg hx, pending_cons, ih]
      by_cases hk : x.key = a
      · rw [if_pos hk, if_pos hk, if_neg fun h => hx (hk.trans h.symm)]
      · rw [if_neg hk, if_neg hk]

theorem printList_eq_joined (value : Option String) (l : List (String × String)) :
    printList value l = joined (value.toList ++ l.map Prod.snd) := by
  induction l generalizing value with
  | nil =>
    cases value with
    | none => rfl
    | some v => simp [printList, joined]
  | cons p l ih =>
    show printList _ l = _
    rw [ih]
    cases value with
    | none => rfl
    | some v => simp [joined, String.intercalate_cons_append]

theorem argumentValue_printAll :
    argumentValue (printAll arguments) a = printList (pending arguments a).1 (pending arguments a).2 := by
  unfold argumentValue printAll pending
  rw [List.find?_map]
  cases h : arguments.find? ((fun x => x.key == a) ∘ fun x => { x with value := printList x.value x.list, list := [] }) with
  | none =>
    have h' : arguments.find? (fun x => x.key == a) = none := h
    rw [h']
    rfl
  | some x =>
    have h' : arguments.find? (fun x => x.key == a) = some x := h
    rw [h']
    rfl

theorem printAll_printAll : printAll (printAll arguments) = printAll arguments := by
  unfold printAll
  rw [List.map_map]
  rfl

end Queues

/-! ## Outputs -/

/-- Dependence `d` asks for an output of its parent, to be passed as argument `a`. -/
def Dep.feeds (a : String) (d : Dep) : Bool := d.type ≠ .embedded && d.argument == a

/-- The output that dependence `d` asks for, with the key it is ordered by. -/
def Dep.object (d : Dep) (outputs : List (String × String)) : Option (String × String) :=
  (outputs.find? fun p => p.1 == d.outputArgument).map fun p => (d.order, p.2)

/-- The output that dependence `d` asks for is queued. -/
def Dep.feed (d : Dep) (outputs : List (String × String)) (arguments : List Argument) : List Argument :=
  if d.type = .embedded then arguments
  else
    match d.object outputs with
    | none => arguments
    | some p => queue arguments d.argument p.1 p.2

/-- The dependences of a list are fed one after the other, each one with its own outputs. -/
def feedAll (deps : List Dep) (outs : Nat → List (String × String)) (arguments : List Argument) (js : List Nat) :
    List Argument :=
  js.foldl (fun arguments j => (deps.getD j default).feed (outs j) arguments) arguments

/-- The objects that dependences ask for on behalf of argument `a`. -/
def objects (deps : List Dep) (outs : Nat → List (String × String)) (a : String) (js : List Nat) :
    List (String × String) :=
  js.filterMap fun j => if (deps.getD j default).feeds a then (deps.getD j default).object (outs j) else none

/-- What argument `a` of task `t` is expected to be: its initial value, then the outputs of the parents in the order of
their keys. -/
def expectedValue (t : Task) (a : String) (outs : Nat → List (String × String)) : Option String :=
  joined ((argumentValue t.arguments a).toList ++
    ((objects t.deps outs a (List.range t.deps.length)).mergeSort fun p q => decide (p.1 ≤ q.1)).map Prod.snd)

section Outputs

variable {deps : List Dep} {outs : Nat → List (String × String)} {arguments : List Argument} {a : String}

theorem pending_feed (d : Dep) (outputs : List (String × String)) :
    pending (d.feed outputs arguments) a = ((pending arguments a).1,
      Lib.insertPairs (pending arguments a).2 (if d.feeds a then d.object outputs else none).toList) := by
  unfold Dep.feed Dep.feeds
  by_cases ht : d.type = .embedded
  · simp [ht, Lib.insertPairs]
  · cases ho : d.object outputs with
    | none => simp [Lib.insertPairs]
    | some p =>
      by_cases hk : d.argument = a
      · simp [ht, hk, pending_queue, Lib.insertPairs]
      · simp [ht, hk, pending_queue, Lib.insertPairs]

theorem pending_feedAll (js : List Nat) : pending (feedAll deps outs arguments js) a =
    ((pending arguments a).1, Lib.insertPairs (pending arguments a).2 (objects deps outs a js)) := by
  induction js generalizing arguments with
  | nil => rfl
  | cons j js ih =>
    show pending (feedAll deps outs _ js) a = _
    rw [ih, pending_feed]
    unfold objects Lib.insertPairs
    rw [List.filterMap_cons]
    cases (if (deps.getD j default).feeds a then (deps.getD j default).object (outs j) else none) with
    | none => rfl
    | some p => rfl

theorem objects_eq (js : List Nat) : objects deps outs a js =
    (js.filter fun j => (deps.getD j default).feeds a).filterMap fun j => (deps.getD j default).object (outs j) := by
  unfold objects
  rw [List.filterMap_filter]

theorem objects_congr {outs' : Nat → List (String × String)} {js : List Nat}
    (h : ∀ j ∈ js, (deps.getD j default).feeds a = true → outs' j = outs j) :
    objects deps outs' a js = objects deps outs a js := by
  unfold objects
  refine List.filterMap_congr fun j hj => ?_
  split_ifs with hf
  · rw [h j hj hf]
  · rfl

theorem expectedValue_congr {t : Task} {outs' : Nat → List (String × String)}
    (h : ∀ j < t.deps.length, (t.deps.getD j default).feeds a = true → outs' j = outs j) :
    expectedValue t a outs' = expectedValue t a outs := by
  unfold expectedValue
  rw [objects_congr fun j hj => h j (List.mem_range.mp hj)]

theorem objects_perm {js : List Nat} (hn : js.Nodup) (hlt : ∀ j ∈ js, j < deps.length)
    (hall : ∀ j, (deps.getD j default).feeds a = true → j < deps.length → j ∈ js) :
    (objects deps outs a js).Perm (objects deps outs a (List.range deps.length)) := by
  rw [objects_eq, objects_eq]
  apply List.Perm.filterMap
  rw [List.perm_ext_iff_of_nodup (hn.filter _) (List.nodup_range.filter _)]
  intro j
  simp only [List.mem_filter, List.mem_range]
  exact ⟨fun h => ⟨hlt j h.1, h.2⟩, fun h => ⟨hall j h.2 h.1, h.2⟩⟩

theorem objects_keys_sublist (js : List Nat) :
    ((objects deps outs a js).map Prod.fst).Sublist
      (((js.map fun j => deps.getD j default).filter (Dep.feeds a)).map Dep.order) := by
  rw [objects_eq, List.filter_map, List.map_map]
  show List.Sublist _ ((js.filter fun j => (deps.getD j default).feeds a).map fun j => (deps.getD j default).order)
  induction js.filter fun j => (deps.getD j default).feeds a with
  | nil => exact .slnil
  | cons j js ih =>
    rw [List.filterMap_cons]
    cases ho : (deps.getD j default).object (outs j) with
    | none => exact ih.cons _
    | some p =>
      obtain ⟨q, -, rfl⟩ := Option.map_eq_some_iff.mp ho
      exact ih.cons_cons _

theorem objects_keys_nodup (hk : (deps.filter (Dep.feeds a)).Pairwise fun d d' => d.order ≠ d'.order) :
    ((objects deps outs a (List.range deps.length)).map Prod.fst).Nodup := by
  have hdeps : ((List.range deps.length).map fun j => deps.getD j default) = deps := by
    refine List.ext_getElem (by simp) fun j hj hj' => ?_
    simp [hj']
  have hsub := @objects_keys_sublist deps outs a (List.range deps.length)
  rw [hdeps] at hsub
  exact hsub.nodup (List.pairwise_map.mpr hk)

/-- All the outputs have been queued, in any order: the argument is the expected one. -/
theorem argumentValue_feedAll {t : Task} {js : List Nat} (hn : js.Nodup) (hlt : ∀ j ∈ js, j < t.deps.length)
    (hall : ∀ j, (t.deps.getD j default).feeds a = true → j < t.deps.length → j ∈ js)
    (hk : (t.deps.filter (Dep.feeds a)).Pairwise fun d d' => d.order ≠ d'.order)
    (hl : ∀ x ∈ t.arguments, x.list = []) :
    argumentValue (printAll (feedAll t.deps outs t.arguments js)) a = expectedValue t a outs := by
  have hpending : pending t.arguments a = (argumentValue t.arguments a, []) := by
    unfold pending argumentValue
    cases hf : t.arguments.find? fun x => x.key == a with
    | none => rfl
    | some x => simp [hl x (List.mem_of_find?_eq_some hf)]
  rw [argumentValue_printAll, pending_feedAll, hpending, printList_eq_joined, expectedValue,
    Lib.insertPairs_eq_mergeSort (objects_perm hn hlt hall) (objects_keys_nodup hk)]

end Outputs

end OphidiaWorkflow
