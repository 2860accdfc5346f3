import Mathlib.Algebra.Ring.Nat
import OphidiaWorkflow.Lib.Linked
import OphidiaWorkflow.Lib.Runs
import OphidiaWorkflow.Model.Status

/-!
`oph_job_list`: the workflows in the memory of the server.

The list is linked through blocks of a heap. A lookup frees the entries that have expired while it walks along the list.
A result `none` stands for a block that is read or written after it has been freed.
-/
namespace OphidiaWorkflow.Server

open Lib

/-- What the lookups read of a task. -/
structure JobTask where
  idjob : Int := 0
  markerid : Int := 0
  lightMarkers : List Int := []
  deriving DecidableEq, Repr

/-- What the lookups read of a workflow. -/
structure JobWorkflow where
  idjob : Int
  workflowid : Int := 0
  sessionid : List Char := []
  markerid : Int := 0
  status : JobStatus := .pending
  tasks : List JobTask := []
  deriving DecidableEq, Repr

/-- `oph_job_info` without the link to the next entry. -/
structure JobInfo where
  timestamp : Int
  wf : JobWorkflow
  deriving DecidableEq, Repr

structure JobList where
  heap : Heap (Cell JobInfo) := {}
  head : Option Nat := none
  tail : Option Nat := none
  saved : Option Nat := none
  counter : Nat := 0

/-- `oph_server_farm_size` and `oph_server_queue_size` -/
structure FarmSize where
  farm : Nat
  queue : Nat
  deriving DecidableEq, Repr

/-- No other workflow can be started. -/
def FarmSize.farmFull (sz : FarmSize) (counter : Nat) : Bool := sz.farm ≠ 0 ∧ sz.farm ≤ counter

/-- No other workflow can be queued either. The sum is an `unsigned int`. -/
def FarmSize.full (sz : FarmSize) (counter : Nat) : Bool :=
  sz.farmFull counter ∧ sz.queue ≠ 0 ∧ (sz.farm + sz.queue) % 2 ^ 32 ≤ counter

/-- The lookups of a workflow. The last one only looks for expired entries in its loop. -/
inductive Query
  | job (jobid : Int)
  | child (jobid : Int)
  | workflow (sessionid : Option (List Char)) (workflowid : Int)
  | marker (sessionid : Option (List Char)) (markerid : Int)
  | unstarted
  deriving DecidableEq, Repr

def inSession (sessionid : Option (List Char)) (wf : JobWorkflow) : Bool := sessionid.all fun s => wf.sessionid = s

def Query.found : Query → JobWorkflow → Bool
  | job jobid, wf => wf.idjob = jobid
  | child jobid, wf => wf.tasks.any fun t => t.idjob = jobid
  | workflow sessionid workflowid, wf => wf.workflowid = workflowid && inSession sessionid wf
  | marker sessionid markerid, wf =>
    (wf.markerid = markerid || wf.tasks.any fun t => t.markerid = markerid || t.lightMarkers.contains markerid) &&
      inSession sessionid wf
  | unstarted, _ => false

/-- The lookups that have an argument `prev`. -/
def Query.givesPrev : Query → Bool
  | job _ | child _ | workflow _ _ => true
  | _ => false

/-- `remote_deadline` is the time before which an entry has expired. -/
def JobInfo.expired (deadline : Int) (e : JobInfo) : Bool := e.timestamp < deadline

namespace JobList

/-- A pointer to the next entry is written. -/
def setNext (l : JobList) (b : Nat) (next : Option Nat) : Option JobList :=
  if (l.heap.load b).isSome then some { l with heap := l.heap.modify b fun c => { c with next } } else none

/-- An entry is taken out of the list. -/
def unlink (l : JobList) (item : Nat) (prev next : Option Nat) : Option JobList :=
  let l := { l with tail := if l.tail = some item then prev else l.tail }
  if l.head = some item then some { l with head := next }
  else prev.elim (some l) fun p => l.setNext p next

/-- How the loop of a lookup ends: the entry that has been found, the value of `temp_prev`, the number of workflows that
have been started, and whether the counter was exhausted. -/
structure Walk where
  list : JobList
  item : Option Nat
  prev : Option Nat
  running : Nat
  exhausted : Bool

/-- The loop of the lookups. The entry that is visited becomes `temp_prev`, also if it has been freed. -/
def findLoop (deadline : Int) (q : Query) : Nat → Option Nat → Option Nat → Nat → JobList → Option Walk
  | _, none, prev, running, l => some ⟨l, none, prev, running, false⟩
  | 0, some _, _, _, _ => none
  | n + 1, some temp, prev, running, l =>
    (l.heap.load temp).bind fun c =>
      if c.entry.expired deadline then
        if l.counter = 0 then some ⟨l, none, prev, running, true⟩
        else (l.unlink temp prev c.next).bind fun l =>
          findLoop deadline q n c.next (some temp) running { l with counter := l.counter - 1, heap := l.heap.free temp }
      else if q.found c.entry.wf then some ⟨l, some temp, prev, running, false⟩
      else findLoop deadline q n c.next (some temp) (if c.entry.wf.status = .unknown then running else running + 1) l

/-- No block is visited twice, so that there is no need for more steps than blocks. -/
def walk (l : JobList) (deadline : Int) (q : Query) : Option Walk := findLoop deadline q l.heap.next l.head none 0 l

/-- The first entry that has not been started. -/
def scanUnstarted (h : Heap (Cell JobInfo)) : Nat → Option Nat → Option (Option Nat)
  | _, none => some none
  | 0, some _ => none
  | n + 1, some temp => (h.load temp).bind fun c =>
    if c.entry.wf.status = .unknown then some (some temp) else scanUnstarted h n c.next

/-- The lookups. For an unstarted workflow there is a second loop. -/
def find (sz : FarmSize) (l : JobList) (deadline : Int) (q : Query) : Option Walk :=
  (l.walk deadline q).bind fun w =>
    if q = .unstarted ∧ w.exhausted = false ∧ sz.farm ≠ 0 ∧ w.running < sz.farm ∧ w.running < w.list.counter then
      (scanUnstarted w.list.heap w.list.heap.next w.list.head).map fun item => { w with item }
    else some w

/-- What is written to `*prev`: at the end of a lookup by job, or in each round of the one by workflow. -/
def Walk.written (w : Walk) : Query → Option Nat
  | .job _ => if w.item.isSome then w.prev else none
  | .child _ => if w.item.isSome then w.prev else none
  | .workflow _ _ => w.prev
  | _ => none

inductive InsertCode
  | ok | existingJob | full | farmFull
  deriving DecidableEq, Repr

/-- The item is linked at the end. -/
def link (l : JobList) (now : Int) (wf : JobWorkflow) : Option JobList :=
  let item := l.heap.next
  let l := { l with heap := l.heap.alloc ⟨⟨now, wf⟩, none⟩ }
  (l.tail.elim (some l) fun t => l.setNext t (some item)).map fun l =>
    { l with tail := some item, head := l.head.or (some item), counter := l.counter + 1 }

/-- `oph_insert_into_job_list`. The block of the item counts as allocated once it is linked. -/
def insert (sz : FarmSize) (l : JobList) (now deadline : Int) (wf : JobWorkflow) : Option (InsertCode × JobList) :=
  if sz.full l.counter then some (.full, l)
  else (l.find sz deadline (.job wf.idjob)).bind fun w =>
    if w.item.isSome then some (.existingJob, w.list)
    else (w.list.link now wf).map fun l' => (if sz.farmFull l.counter then .farmFull else .ok, l')

/-- `oph_drop_from_job_list`, with its success. -/
def drop (l : JobList) (item : Nat) (prev : Option Nat) : Option (Bool × JobList) :=
  (l.heap.load item).bind fun c =>
    (l.unlink item prev c.next).map fun l' => (l.head = some item ∨ prev.isSome, { l' with counter := l'.counter - 1 })

/-- `oph_delete_from_job_list`. With a status log the entry is kept apart. -/
def delete (l : JobList) (item : Nat) (prev : Option Nat) (log : Bool) (now : Int) : Option JobList :=
  (l.drop item prev).map fun r =>
    if r.1 then
      if log then
        { r.2 with heap := r.2.heap.modify item fun c => ⟨{ c.entry with timestamp := now }, r.2.saved⟩, saved := some item }
      else { r.2 with heap := r.2.heap.free item }
    else r.2

/-- The entries in the order of the list, with their blocks. -/
def entries (l : JobList) : List (Nat × JobInfo) := Lib.cellsFrom l.heap l.heap.next l.head

end JobList

/-- A call on the list. `deadline` is computed from the clock at the call. -/
inductive JobCall
  | insert (wf : JobWorkflow) (now deadline : Int)
  | find (q : Query) (deadline : Int) (prev : Bool)
  | delete (q : Query) (deadline : Int) (log : Bool) (now : Int)
  deriving DecidableEq, Repr

namespace JobList

/-- An entry is deleted right after it has been found, together with its predecessor. -/
def findAndDelete (sz : FarmSize) (l : JobList) (q : Query) (deadline : Int) (log : Bool) (now : Int) :
    Option JobList :=
  (l.find sz deadline q).bind fun w =>
    if q.givesPrev then w.item.elim (some w.list) fun item => w.list.delete item (w.written q) log now else some w.list

def call (sz : FarmSize) (l : JobList) : JobCall → Option JobList
  | .insert wf now deadline => (l.insert sz now deadline wf).map Prod.snd
  | .find q deadline _ => (l.find sz deadline q).map Walk.list
  | .delete q deadline log now => l.findAndDelete sz q deadline log now

end JobList
end OphidiaWorkflow.Server
