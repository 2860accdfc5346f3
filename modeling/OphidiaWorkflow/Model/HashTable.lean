import Mathlib.Algebra.Ring.Nat
import Mathlib.Data.List.Nodup
import Mathlib.Logic.Function.Basic

/-!
`hashtbl.c`: chained hashing, and the iteration that keeps nothing but the last key.

A result `none` stands for the remainder by the size of a table without slots.
-/
namespace OphidiaWorkflow

/-- `hashnode_s` without the link to the next node of its chain. The data end with a character that is not counted. -/
structure HashNode where
  key : List Char
  data : List Char
  size : Nat
  deriving DecidableEq, Repr

/-- The node that holds a copy of some bytes. -/
def HashNode.copy (key bytes : List Char) : HashNode := ⟨key, bytes ++ [Char.ofNat 0], bytes.length⟩

/-- `HASHTBL`, with a chain of nodes for each slot. -/
structure HashTable where
  nodes : List (List HashNode)
  hashfunc : List Char → Nat

namespace HashTable

/-- `def_hashfunc`; the sum is a `size_t`. -/
def defHashfunc (key : List Char) : Nat := (key.map Char.toNat).sum % 2 ^ 64

/-- `hashtbl_create` -/
def create (size : Nat) (hashfunc : List Char → Nat) : HashTable := ⟨List.replicate size [], hashfunc⟩

variable (t : HashTable) (key : List Char)

def slot : Nat := t.hashfunc key % t.nodes.length

def chain : Option (List HashNode) := t.nodes[t.slot key]?

def setChain (ns : List HashNode) : HashTable := { t with nodes := t.nodes.set (t.slot key) ns }

/-- `hashtbl_get` -/
def get : Option (Option (List Char)) :=
  (t.chain key).map fun ns => (ns.find? fun n => n.key = key).map HashNode.data

/-- `hashtbl_insert_with_size` for the bytes that `data` and `size` stand for. The flag tells whether it succeeds. -/
def insertWithSize (bytes : List Char) : Option (Bool × HashTable) :=
  (t.chain key).map fun ns =>
    if ns.any fun n => n.key = key then (false, t) else (true, t.setChain key (.copy key bytes :: ns))

/-- `hashtbl_remove` -/
def remove : Option (Bool × HashTable) :=
  (t.chain key).map fun ns =>
    if ns.any fun n => n.key = key then (true, t.setChain key (ns.eraseP fun n => n.key = key)) else (false, t)

/-- The first node of the first slot that has one. -/
def firstNode : List (List HashNode) → Option HashNode
  | [] => none
  | ns :: nodes => ns.head?.or (firstNode nodes)

/-- `hashtbl_next`: the node whose key and data it stores, none if it fails. -/
def next : Option (List Char) → Option (Option HashNode)
  | none => some (firstNode t.nodes)
  | some key => (t.chain key).map fun ns =>
    match ns.dropWhile fun n => n.key ≠ key with
    | [] => none
    | _ :: rest => rest.head?.or (firstNode (t.nodes.drop (t.slot key + 1)))

/-- The pairs that `hashtbl_next` enumerates from a key on, none if `fuel` calls do not reach its failure. -/
def iterate : Nat → Option (List Char) → Option (List (List Char × List Char))
  | 0, _ => none
  | fuel + 1, key => (t.next key).bind fun found =>
    found.elim (some []) fun n => (iterate fuel (some n.key)).map ((n.key, n.data) :: ·)

/-- The loop of `hashtbl_duplicate`, which stops at the first insertion that fails. -/
def insertNodes : HashTable → List HashNode → Option (Option HashTable)
  | d, [] => some (some d)
  | d, n :: ns => (d.insertWithSize n.key (n.data.take n.size)).bind fun r =>
    if r.1 then insertNodes r.2 ns else some none

/-- The nodes in the order of the slots. -/
def stored : List HashNode := t.nodes.flatten

/-- `hashtbl_duplicate` -/
def duplicate : Option (Option HashTable) := insertNodes (create t.nodes.length t.hashfunc) t.stored

/-- A change of a table. -/
inductive Call
  | insert (key bytes : List Char)
  | remove (key : List Char)
  deriving DecidableEq, Repr

def call (t : HashTable) : Call → Option HashTable
  | .insert key bytes => (t.insertWithSize key bytes).map Prod.snd
  | .remove key => (t.remove key).map Prod.snd

/-- The map that a table stands for after a change: what is stored is not replaced. -/
def Call.apply (m : List Char → Option (List Char)) : Call → List Char → Option (List Char)
  | .insert key bytes => if (m key).isSome then m else Function.update m key (some (bytes ++ [Char.ofNat 0]))
  | .remove key => Function.update m key none

/-- Every node is in the slot of its key, no key is there twice, and the data of a node are as many as its size says. -/
structure Valid (t : HashTable) : Prop where
  placed : ∀ i ns, t.nodes[i]? = some ns → ∀ n ∈ ns, t.slot n.key = i
  distinct : (t.stored.map HashNode.key).Nodup
  whole : ∀ n ∈ t.stored, ∃ bytes, n = .copy n.key bytes

section Chains

variable {t : HashTable} {key : List Char} {ns new : List HashNode} {n : HashNode}

theorem exists_split (h : t.chain key = some ns) : ∃ before after, t.nodes = before ++ ns :: after ∧
    before.length = t.slot key := by
  obtain ⟨hlt, rfl⟩ := List.getElem?_eq_some_iff.mp h
  refine ⟨t.nodes.take (t.slot key), t.nodes.drop (t.slot key + 1), ?_, List.length_take_of_le (Nat.le_of_lt hlt)⟩
  rw [List.getElem_cons_drop, List.take_append_drop]

/-- What is stored apart from a chain stays when the chain is replaced. -/
theorem exists_rest (h : t.chain key = some ns) :
    ∃ rest, t.stored.Perm (ns ++ rest) ∧ ∀ new, (t.setChain key new).stored.Perm (new ++ rest) := by
  obtain ⟨before, after, hs, hlen⟩ := exists_split h
  have hperm (new : List HashNode) :
      (before ++ new :: after).flatten.Perm (new ++ (before.flatten ++ after.flatten)) := by
    rw [List.flatten_append, List.flatten_cons, ← List.append_assoc, ← List.append_assoc]
    exact List.perm_append_comm.append_right _
  refine ⟨before.flatten ++ after.flatten, ?_, fun new => ?_⟩
  · rw [stored, hs]
    exact hperm ns
  · rw [stored, setChain, ← hlen, hs, List.set_append_right _ _ (Nat.le_refl _), Nat.sub_self, List.set_cons_zero]
    exact hperm new

theorem exists_chain (h : n ∈ t.stored) : ∃ (i : Nat) (ns : List HashNode), t.nodes[i]? = some ns ∧ n ∈ ns := by
  obtain ⟨ns, hns, hn⟩ := List.mem_flatten.mp h
  obtain ⟨i, hi⟩ := List.getElem?_of_mem hns
  exact ⟨i, ns, hi, hn⟩

/-- The nodes with a key are all in its chain. -/
theorem Valid.mem_chain_iff (h : t.Valid) (hc : t.chain key = some ns) (hn : n.key = key) : n ∈ ns ↔ n ∈ t.stored := by
  constructor
  · intro hm
    obtain ⟨rest, hperm, -⟩ := exists_rest hc
    exact hperm.mem_iff.mpr (List.mem_append_left _ hm)
  · intro hm
    obtain ⟨i, ns', hi, hm⟩ := exists_chain hm
    obtain rfl : t.slot key = i := hn ▸ h.placed i ns' hi n hm
    cases hc.symm.trans hi
    exact hm

theorem Valid.setChain (h : t.Valid) (hnew : ∀ n ∈ new, t.slot n.key = t.slot key)
    (hd : ((t.setChain key new).stored.map HashNode.key).Nodup)
    (hw : ∀ n ∈ (t.setChain key new).stored, ∃ bytes, n = .copy n.key bytes) : (t.setChain key new).Valid := by
  have hslot (k : List Char) : (t.setChain key new).slot k = t.slot k := by
    simp [slot, HashTable.setChain]
  refine ⟨fun i ns' hi n hn => ?_, hd, hw⟩
  rw [hslot]
  change (t.nodes.set (t.slot key) new)[i]? = some ns' at hi
  rw [List.getElem?_set] at hi
  split at hi
  · next hkey =>
    split at hi
    · cases hi
      exact (hnew n hn).trans hkey
    · cases hi
  · exact h.placed i ns' hi n hn

theorem any_key_iff (h : t.Valid) (hc : t.chain key = some ns) :
    (ns.any fun n => n.key = key) = true ↔ ∃ n ∈ t.stored, n.key = key := by
  rw [List.any_eq_true]
  constructor
  · rintro ⟨n, hn, hkey⟩
    have hkey := of_decide_eq_true hkey
    exact ⟨n, (h.mem_chain_iff hc hkey).mp hn, hkey⟩
  · rintro ⟨n, hn, hkey⟩
    exact ⟨n, (h.mem_chain_iff hc hkey).mpr hn, decide_eq_true hkey⟩

/-- What an insertion does: it fails on a key that is there, and adds a node otherwise. -/
theorem Valid.insertWithSize (h : t.Valid) {bytes : List Char} {r : Bool × HashTable}
    (hr : t.insertWithSize key bytes = some r) :
    r.2.Valid ∧ r.2.nodes.length = t.nodes.length ∧ r.2.hashfunc = t.hashfunc ∧
      ((∃ n ∈ t.stored, n.key = key) ∧ r = (false, t) ∨
        (∀ n ∈ t.stored, n.key ≠ key) ∧ r.1 = true ∧ r.2.stored.Perm (.copy key bytes :: t.stored)) := by
  obtain ⟨ns, hc, rfl⟩ := Option.map_eq_some_iff.mp hr
  by_cases hany : (ns.any fun n => n.key = key) = true
  · rw [if_pos hany]
    exact ⟨h, rfl, rfl, .inl ⟨(any_key_iff h hc).mp hany, rfl⟩⟩
  · -- the search in the chain tells for the whole table that the key is new
    have hkey : ∀ n ∈ t.stored, n.key ≠ key := fun n hn he => hany ((any_key_iff h hc).mpr ⟨n, hn, he⟩)
    obtain ⟨rest, hold, hnew⟩ := exists_rest hc
    have hperm : (t.setChain key (.copy key bytes :: ns)).stored.Perm (.copy key bytes :: t.stored) :=
      (hnew _).trans (hold.symm.cons _)
    have hvalid : (t.setChain key (.copy key bytes :: ns)).Valid := by
      refine h.setChain (List.forall_mem_cons.mpr ⟨rfl, fun n hn => ?_⟩) ?_ fun n hn => ?_
      · exact h.placed _ ns hc n hn
      · rw [(hperm.map HashNode.key).nodup_iff, List.map_cons, List.nodup_cons]
        refine ⟨fun hm => ?_, h.distinct⟩
        obtain ⟨n, hn, he⟩ := List.mem_map.mp hm
        exact hkey n hn he
      · rcases List.mem_cons.mp (hperm.mem_iff.mp hn) with rfl | hn
        · exact ⟨bytes, rfl⟩
        · exact h.whole n hn
    rw [if_neg hany]
    exact ⟨hvalid, List.length_set, rfl, .inr ⟨hkey, rfl, hperm⟩⟩

/-- What a removal does: it takes out the node of the key, if there is one. -/
theorem Valid.remove (h : t.Valid) {r : Bool × HashTable} (hr : t.remove key = some r) :
    r.2.Valid ∧ ((∀ n ∈ t.stored, n.key ≠ key) ∧ r = (false, t) ∨
      ∃ n, n.key = key ∧ r.1 = true ∧ t.stored.Perm (n :: r.2.stored)) := by
  obtain ⟨ns, hc, rfl⟩ := Option.map_eq_some_iff.mp hr
  by_cases hany : (ns.any fun n => n.key = key) = true
  · obtain ⟨x, hx, hkey⟩ := List.any_eq_true.mp hany
    obtain ⟨n, before, after, -, hn, hns, herase⟩ :=
      List.exists_of_eraseP (p := fun n : HashNode => decide (n.key = key)) hx hkey
    obtain ⟨rest, hold, hnew⟩ := exists_rest hc
    have hperm : t.stored.Perm (n :: (t.setChain key (ns.eraseP fun n => n.key = key)).stored) := by
      refine hold.trans (List.Perm.trans ?_ ((hnew _).symm.cons n))
      rw [herase, ← List.cons_append, hns]
      exact List.perm_middle.append_right rest
    have hnodup := (hperm.map HashNode.key).nodup_iff.mp h.distinct
    rw [if_pos hany]
    refine ⟨h.setChain (fun n hn => ?_) (List.nodup_cons.mp hnodup).2 fun n hn => ?_, .inr ⟨n, ?_, rfl, hperm⟩⟩
    · exact h.placed _ ns hc n (List.mem_of_mem_eraseP hn)
    · exact h.whole n (hperm.mem_iff.mpr (List.mem_cons_of_mem _ hn))
    · exact of_decide_eq_true hn
  · rw [if_neg hany]
    exact ⟨h, .inl ⟨fun n hn he => hany ((any_key_iff h hc).mpr ⟨n, hn, he⟩), rfl⟩⟩

end Chains

section Content

variable {t : HashTable} {m : List Char → Option (List Char)} {key data : List Char} {n : HashNode}
  {before after : List HashNode}

/-- The table holds the pairs of the map. -/
structure Represents (t : HashTable) (m : List Char → Option (List Char)) : Prop where
  valid : t.Valid
  content : ∀ key data, (∃ n ∈ t.stored, n.key = key ∧ n.data = data) ↔ m key = some data

theorem Represents.isSome_iff (h : Represents t m) : (m key).isSome = true ↔ ∃ n ∈ t.stored, n.key = key := by
  rw [Option.isSome_iff_exists]
  constructor
  · rintro ⟨data, hdata⟩
    obtain ⟨n, hn, hkey, -⟩ := (h.content key data).mpr hdata
    exact ⟨n, hn, hkey⟩
  · rintro ⟨n, hn, hkey⟩
    exact ⟨n.data, (h.content key n.data).mp ⟨n, hn, hkey, rfl⟩⟩

theorem represents_create (size : Nat) (hashfunc : List Char → Nat) :
    Represents (create size hashfunc) fun _ => none := by
  have hempty : (create size hashfunc).stored = [] := List.flatten_replicate_nil
  refine ⟨⟨fun i ns hi n hn => ?_, ?_, ?_⟩, fun key data => ?_⟩
  · obtain rfl := List.eq_of_mem_replicate (List.mem_of_getElem? hi)
    cases hn
  · rw [hempty]
    exact List.nodup_nil
  · rw [hempty]
    exact List.forall_mem_nil _
  · rw [hempty]
    simp

theorem Represents.insert (h : Represents t m) {bytes : List Char} {r : Bool × HashTable}
    (hr : t.insertWithSize key bytes = some r) : Represents r.2 (Call.apply m (.insert key bytes)) := by
  obtain ⟨hvalid, -, -, ⟨hkey, rfl⟩ | ⟨hkey, -, hperm⟩⟩ := h.valid.insertWithSize hr
  · rw [Call.apply, if_pos (h.isSome_iff.mpr hkey)]
    exact h
  · rw [Call.apply, if_neg fun hs => (h.isSome_iff.mp hs).elim fun n hn => hkey n hn.1 hn.2]
    refine ⟨hvalid, fun k data => ?_⟩
    simp only [hperm.mem_iff, List.exists_mem_cons_iff]
    by_cases hk : k = key
    · rw [hk, Function.update_self, or_iff_left fun ⟨n, hn, he, _⟩ => hkey n hn he, Option.some_inj]
      exact and_iff_right rfl
    · rw [Function.update_of_ne hk, or_iff_right fun he => hk he.1.symm]
      exact h.content k data

theorem Represents.remove (h : Represents t m) {r : Bool × HashTable} (hr : t.remove key = some r) :
    Represents r.2 (Call.apply m (.remove key)) := by
  obtain ⟨hvalid, ⟨hkey, rfl⟩ | ⟨n, hn, -, hperm⟩⟩ := h.valid.remove hr
  · have hnone : m key = none := by
      rw [← Option.not_isSome_iff_eq_none, h.isSome_iff]
      rintro ⟨n, hn, he⟩
      exact hkey n hn he
    rw [Call.apply, ← hnone, Function.update_eq_self]
    exact h
  · refine ⟨hvalid, fun k data => ?_⟩
    have hnodup := (hperm.map HashNode.key).nodup_iff.mp h.valid.distinct
    rw [List.map_cons, List.nodup_cons, hn] at hnodup
    rw [Call.apply]
    by_cases hk : k = key
    · rw [hk, Function.update_self]
      refine iff_of_false ?_ (Option.some_ne_none _).symm
      rintro ⟨n', hn', he, -⟩
      exact hnodup.1 (he ▸ List.mem_map_of_mem hn')
    · rw [Function.update_of_ne hk, ← h.content k data]
      simp only [hperm.mem_iff, List.exists_mem_cons_iff]
      exact (or_iff_right fun he => hk (he.1.symm.trans hn)).symm

theorem Represents.step (h : Represents t m) {c : Call} {t' : HashTable} (hr : t.call c = some t') :
    Represents t' (c.apply m) := by
  cases c with
  | insert key bytes =>
    obtain ⟨r, hinsert, rfl⟩ := Option.map_eq_some_iff.mp hr
    exact h.insert hinsert
  | remove key =>
    obtain ⟨r, hremove, rfl⟩ := Option.map_eq_some_iff.mp hr
    exact h.remove hremove

theorem Represents.run (h : Represents t m) {cs : List Call} {t' : HashTable} (hr : cs.foldlM call t = some t') :
    Represents t' (cs.foldl Call.apply m) := by
  induction cs generalizing t m with
  | nil =>
    cases hr
    exact h
  | cons c cs ih =>
    rw [List.foldlM_cons] at hr
    obtain ⟨t₁, hc, hr⟩ := Option.bind_eq_some_iff.mp hr
    exact ih (h.step hc) hr

end Content

section Iteration

variable {t : HashTable} {key : List Char} {n : HashNode} {ns before after : List HashNode}

theorem firstNode_eq (nodes : List (List HashNode)) : firstNode nodes = nodes.flatten.head? := by
  induction nodes with
  | nil => rfl
  | cons ns nodes ih => rw [firstNode, ih, List.flatten_cons, List.head?_append]

/-- `hashtbl_next` goes on after the node of the key, in its chain and then in the slots that follow. -/
theorem Valid.next_some (h : t.Valid) (hs : t.stored = before ++ n :: after) :
    t.next (some n.key) = some after.head? := by
  have hstored : n ∈ t.stored := hs ▸ List.mem_append_right _ List.mem_cons_self
  obtain ⟨i, ns, hi, hn⟩ := exists_chain hstored
  have hc : t.chain n.key = some ns := by rw [chain, h.placed i ns hi n hn, hi]
  obtain ⟨slots, slots', hnodes, hlen⟩ := exists_split hc
  obtain ⟨pre, post, rfl⟩ := List.append_of_mem hn
  have hflat : t.stored = (slots.flatten ++ pre) ++ n :: (post ++ slots'.flatten) := by
    rw [stored, hnodes, List.flatten_append, List.flatten_cons]
    simp only [List.append_assoc, List.cons_append]
  -- the key occurs once, so that the two ways to cut the table at its node are one
  have hkeys := h.distinct
  rw [hflat, List.map_append, List.map_cons, List.nodup_middle, List.nodup_cons, List.mem_append, not_or] at hkeys
  obtain ⟨⟨hbefore, hafter⟩, -⟩ := hkeys
  have hpost : after = post ++ slots'.flatten :=
    ((List.append_cons_inj_of_notMem (fun hm => hbefore (List.mem_map_of_mem hm))
      fun hm => hafter (List.mem_map_of_mem hm)).mp (hflat.symm.trans hs)).2.2.symm
  have hpre : ∀ m ∈ pre, decide (m.key ≠ n.key) = true := fun m hm =>
    decide_eq_true fun he => hbefore (he ▸ List.mem_map_of_mem (List.mem_append_right _ hm))
  have hdrop : t.nodes.drop (t.slot n.key + 1) = slots' := by
    rw [hnodes, ← hlen, List.drop_length_add_append]
    rfl
  rw [next, hc, Option.map_some, List.dropWhile_append_of_pos hpre, List.dropWhile_cons_of_neg (by simp)]
  dsimp only
  rw [hdrop, firstNode_eq, ← List.head?_append, hpost]

theorem Valid.iterate_some (h : t.Valid) {fuel : Nat} (hs : t.stored = before ++ n :: after)
    (hf : after.length < fuel) :
    t.iterate fuel (some n.key) = some (after.map fun n => (n.key, n.data)) := by
  induction after generalizing before n fuel with
  | nil =>
    cases fuel with
    | zero => cases hf
    | succ fuel =>
      rw [iterate, h.next_some hs]
      rfl
  | cons n' after ih =>
    cases fuel with
    | zero => cases hf
    | succ fuel =>
      have hs' : t.stored = (before ++ [n]) ++ n' :: after := by rw [hs, List.append_assoc, List.singleton_append]
      have hrest := ih hs' (Nat.lt_of_succ_lt_succ hf)
      rw [iterate, h.next_some hs, Option.bind_some, List.head?_cons, Option.elim_some, hrest]
      rfl

/-- The iteration from the start passes over what is stored. -/
theorem Valid.iterate_none (h : t.Valid) {fuel : Nat} (hf : t.stored.length < fuel) :
    t.iterate fuel none = some (t.stored.map fun n => (n.key, n.data)) := by
  cases fuel with
  | zero => cases hf
  | succ fuel =>
    have hfirst : t.next none = some t.stored.head? := congrArg some (firstNode_eq t.nodes)
    rw [iterate, hfirst, Option.bind_some]
    cases hs : t.stored with
    | nil => rfl
    | cons n after =>
      have hs' : t.stored = [] ++ n :: after := hs
      rw [hs] at hf
      rw [List.head?_cons, Option.elim_some, h.iterate_some hs' (Nat.lt_of_succ_lt_succ hf)]
      rfl

end Iteration

section Duplicate

variable {t d : HashTable} {m : List Char → Option (List Char)} {key : List Char} {ns : List HashNode}

theorem chain_eq_none_iff : t.chain key = none ↔ t.nodes.length = 0 := by
  rw [chain, List.getElem?_eq_none_iff, slot]
  constructor
  · intro h
    by_contra hne
    exact absurd (Nat.mod_lt (t.hashfunc key) (Nat.pos_of_ne_zero hne)) (Nat.not_lt.mpr h)
  · intro h
    rw [h]
    exact Nat.zero_le _

theorem Represents.get (h : Represents t m) (hc : t.chain key = some ns) : t.get key = some (m key) := by
  rw [HashTable.get, hc, Option.map_some]
  cases hf : ns.find? fun n => n.key = key with
  | none =>
    have hnone : m key = none := by
      rw [← Option.not_isSome_iff_eq_none, h.isSome_iff, ← any_key_iff h.valid hc, List.any_eq_true]
      rintro ⟨n, hn, hkey⟩
      exact List.find?_eq_none.mp hf n hn hkey
    rw [hnone]
    rfl
  | some n =>
    have hkey : n.key = key := by simpa using List.find?_some hf
    have hstored := (h.valid.mem_chain_iff hc hkey).mp (List.mem_of_find?_eq_some hf)
    rw [(h.content key n.data).mp ⟨n, hstored, hkey, rfl⟩]
    rfl

/-- Tables of one size that hold the same pairs answer the same. -/
theorem Represents.get_eq (ht : Represents t m) (hd : Represents d m) (hsize : d.nodes.length = t.nodes.length)
    (key : List Char) : d.get key = t.get key := by
  cases hc : t.chain key with
  | none =>
    have hc' : d.chain key = none := chain_eq_none_iff.mpr (hsize.trans (chain_eq_none_iff.mp hc))
    rw [HashTable.get, HashTable.get, hc, hc']
  | some ns =>
    cases hc' : d.chain key with
    | none =>
      rw [chain_eq_none_iff.mpr (hsize.symm.trans (chain_eq_none_iff.mp hc'))] at hc
      cases hc
    | some ns' => rw [ht.get hc, hd.get hc']

/-- Nodes whose keys are new are all inserted. -/
theorem Valid.insertNodes (h : d.Valid) (hsize : ns ≠ [] → d.nodes.length ≠ 0)
    (hkeys : ((ns ++ d.stored).map HashNode.key).Nodup) (hw : ∀ n ∈ ns, ∃ bytes, n = .copy n.key bytes) :
    ∃ d', HashTable.insertNodes d ns = some (some d') ∧ d'.Valid ∧ d'.nodes.length = d.nodes.length ∧
      d'.stored.Perm (ns ++ d.stored) := by
  induction ns generalizing d with
  | nil => exact ⟨d, rfl, h, rfl, .refl _⟩
  | cons n ns ih =>
    have hlen := hsize (List.cons_ne_nil _ _)
    obtain ⟨bytes, hn⟩ := hw n List.mem_cons_self
    have hbytes : n.data.take n.size = bytes := by
      rw [hn]
      exact List.take_left
    have hsome : d.chain n.key ≠ none := fun hc => hlen (chain_eq_none_iff.mp hc)
    obtain ⟨ns', hc⟩ := Option.ne_none_iff_exists'.mp hsome
    obtain ⟨r, hr⟩ : ∃ r, d.insertWithSize n.key bytes = some r := ⟨_, congrArg _ hc⟩
    rw [List.cons_append, List.map_cons, List.nodup_cons, List.map_append, List.mem_append, not_or] at hkeys
    obtain ⟨hvalid, hlength, -, ⟨⟨x, hx, he⟩, -⟩ | ⟨-, hok, hperm⟩⟩ := h.insertWithSize hr
    · exact absurd (he ▸ List.mem_map_of_mem hx) hkeys.1.2
    · rw [← hn] at hperm
      have hmiddle : (ns ++ r.2.stored).Perm (n :: (ns ++ d.stored)) := (hperm.append_left ns).trans List.perm_middle
      obtain ⟨d', hd', hvalid', hlength', hperm'⟩ := ih hvalid (fun _ => hlength ▸ hlen) (by
        rw [(hmiddle.map HashNode.key).nodup_iff, List.map_cons, List.nodup_cons, List.map_append, List.mem_append,
          not_or]
        exact hkeys) fun n' hn' => hw n' (List.mem_cons_of_mem _ hn')
      refine ⟨d', ?_, hvalid', hlength'.trans hlength, hperm'.trans hmiddle⟩
      rw [HashTable.insertNodes, hbytes, hr, Option.bind_some, if_pos hok]
      exact hd'

theorem Represents.duplicate (h : Represents t m) :
    ∃ d, t.duplicate = some (some d) ∧ Represents d m ∧ d.nodes.length = t.nodes.length := by
  have hcreate := represents_create t.nodes.length t.hashfunc
  have hempty : (create t.nodes.length t.hashfunc).stored = [] := List.flatten_replicate_nil
  have hsize : (create t.nodes.length t.hashfunc).nodes.length = t.nodes.length := List.length_replicate
  have hslots : t.stored ≠ [] → (create t.nodes.length t.hashfunc).nodes.length ≠ 0 := by
    intro hne hz
    -- a table without slots holds nothing, and its copy has no slots either
    have hnil := List.eq_nil_of_length_eq_zero (hsize.symm.trans hz)
    exact hne (by rw [stored, hnil, List.flatten_nil])
  have hkeys : ((t.stored ++ (create t.nodes.length t.hashfunc).stored).map HashNode.key).Nodup := by
    rw [hempty, List.append_nil]
    exact h.valid.distinct
  obtain ⟨d, hd, hvalid, hlength, hperm⟩ := hcreate.valid.insertNodes hslots hkeys h.valid.whole
  rw [hempty, List.append_nil] at hperm
  refine ⟨d, hd, ⟨hvalid, fun key data => ?_⟩, hlength.trans hsize⟩
  simp only [hperm.mem_iff]
  exact h.content key data

end Duplicate

/--
After any insertions and removals the iteration that starts without a key ends, and it gives each pair of the map once;
the duplicate answers every key like the table.
-/
theorem run_iterate_duplicate (size : Nat) (hashfunc : List Char → Nat) (calls : List Call) {t : HashTable}
    (hr : calls.foldlM call (create size hashfunc) = some t) :
    (∃ pairs, (∀ fuel, pairs.length < fuel → t.iterate fuel none = some pairs) ∧ (pairs.map Prod.fst).Nodup ∧
      ∀ key data, (key, data) ∈ pairs ↔ calls.foldl Call.apply (fun _ => none) key = some data) ∧
      ∃ d, t.duplicate = some (some d) ∧ ∀ key, d.get key = t.get key := by
  have h := (represents_create size hashfunc).run hr
  constructor
  · refine ⟨t.stored.map fun n => (n.key, n.data), fun fuel hf => ?_, ?_, fun key data => ?_⟩
    · rw [List.length_map] at hf
      exact h.valid.iterate_none hf
    · rw [List.map_map]
      exact h.valid.distinct
    · rw [← h.content key data, List.mem_map]
      simp only [Prod.mk.injEq]
  · obtain ⟨d, hd, hrep, hsize⟩ := h.duplicate
    exact ⟨d, hd, h.get_eq hrep hsize⟩

/-- Two keys of one slot; one of them is stored again after its removal. -/
theorem run_iterate_duplicate_chain : ∃ t,
    [Call.insert ['a'] ['1'], .insert ['c'] [], .insert ['b'] ['2'], .remove ['a'], .insert ['a'] ['3']].foldlM call
      (create 2 defHashfunc) = some t ∧
    (∃ pairs, (∀ fuel, pairs.length < fuel → t.iterate fuel none = some pairs) ∧ (pairs.map Prod.fst).Nodup ∧
      ∀ key data, (key, data) ∈ pairs ↔
        [Call.insert ['a'] ['1'], .insert ['c'] [], .insert ['b'] ['2'], .remove ['a'], .insert ['a'] ['3']].foldl
          Call.apply (fun _ => none) key = some data) ∧
      ∃ d, t.duplicate = some (some d) ∧ ∀ key, d.get key = t.get key :=
  ⟨_, rfl, run_iterate_duplicate 2 defHashfunc _ rfl⟩

end HashTable
end OphidiaWorkflow
