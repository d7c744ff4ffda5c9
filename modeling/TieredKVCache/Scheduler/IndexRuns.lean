import TieredKVCache.Lib.LastChange
import TieredKVCache.Lib.Transition
import TieredKVCache.Scheduler.NodeIndex

/-!
# Concurrent calls of the index

Any number of threads call the index. A call runs under the lock of the shard of its key and is one
step; the steps of the threads interleave in any order. The nodes of a key in the index are those
whose last change for this key was a registration (`mem_lookup_iff_lastSet`), whichever shards
the hash function gives the keys. So a lookup returns these nodes, and the calls with other keys
have no influence on it (`lookups_exact`).
-/

namespace TieredKVCache.Scheduler

open Lib

/-! ## Definitions -/

/-- A call of the index by a thread, with its answer. -/
inductive IndexEvent (Tid : Type) where
  | registered (tid : Tid) (key : BlockKey) (node : NodeId)
  | unregistered (tid : Tid) (key : BlockKey) (node : NodeId)
  | lookedUp (tid : Tid) (key : BlockKey) (nodes : List NodeId)

variable {Tid : Type}

inductive IndexStep (index : CrossNodeIndex) : IndexEvent Tid → CrossNodeIndex → Prop
  | register (tid : Tid) (key : BlockKey) (node : NodeId) :
      IndexStep index (.registered tid key node) (index.register key node)
  | unregister (tid : Tid) (key : BlockKey) (node : NodeId) :
      IndexStep index (.unregistered tid key node) (index.unregister key node)
  | lookup (tid : Tid) (key : BlockKey) :
      IndexStep index (.lookedUp tid key (index.lookup key)) index

/-- The change that a call makes to a key: a node, and whether it is registered. -/
def IndexEvent.change (key : BlockKey) : IndexEvent Tid → Option (NodeId × Bool)
  | .registered _ key' node => if key' = key then some (node, true) else none
  | .unregistered _ key' node => if key' = key then some (node, false) else none
  | .lookedUp _ _ _ => none

/-- The changes of a key, oldest first. -/
def changes (key : BlockKey) (trace : List (IndexEvent Tid)) : List (NodeId × Bool) :=
  trace.filterMap (IndexEvent.change key)

/-! ## The nodes of a key -/

variable {trace : List (IndexEvent Tid)} {key : BlockKey} {node : NodeId}

theorem changes_snoc (key : BlockKey) (trace : List (IndexEvent Tid)) (event : IndexEvent Tid) :
    changes key (trace ++ [event]) = changes key trace ++ (event.change key).toList := by
  unfold changes
  rw [List.filterMap_append]
  cases h : event.change key with
  | none => rw [List.filterMap_cons_none h, List.filterMap_nil, Option.toList_none]
  | some change => rw [List.filterMap_cons_some h, List.filterMap_nil, Option.toList_some]

/-- A change of a key, as another key sees it. -/
theorem lastSet_change {history : List (NodeId × Bool)} {key' : BlockKey} {node' : NodeId}
    {sets : Bool} :
    LastSet (history ++ (if key' = key then some (node', sets) else none).toList) node ↔
      if key = key' then (if node = node' then sets = true else LastSet history node)
      else LastSet history node := by
  by_cases hkey : key = key'
  · rw [if_pos hkey, if_pos hkey.symm, Option.toList_some, lastSet_snoc]
  · rw [if_neg hkey, if_neg (Ne.symm hkey), Option.toList_none, List.append_nil]

/-- One step keeps the nodes of a key in line with its changes. -/
theorem IndexStep.mem_lookup_iff {index index' : CrossNodeIndex} {event : IndexEvent Tid}
    (hstep : IndexStep index event index')
    (h : ∀ node, node ∈ index.lookup key ↔ LastSet (changes key trace) node) (node : NodeId) :
    node ∈ index'.lookup key ↔ LastSet (changes key (trace ++ [event])) node := by
  rw [changes_snoc]
  cases hstep with
  | register tid key' node' =>
    rw [CrossNodeIndex.mem_lookup_register, h, IndexEvent.change, lastSet_change]
    by_cases hnode : node = node'
    · simp [hnode]
    · simp [hnode]
  | unregister tid key' node' =>
    rw [CrossNodeIndex.mem_lookup_unregister, h, IndexEvent.change, lastSet_change]
    by_cases hnode : node = node'
    · simp [hnode]
    · simp [hnode]
  | lookup tid key' =>
    rw [h, IndexEvent.change, Option.toList_none, List.append_nil]

/-- After a run, a key has the nodes that were registered last. -/
theorem mem_lookup_iff_lastSet {hash : BlockKey → UInt64} {index : CrossNodeIndex}
    (h : Run IndexStep (.new hash) trace index) (key : BlockKey) (node : NodeId) :
    node ∈ index.lookup key ↔ LastSet (changes key trace) node := by
  refine h.invariant (P := fun trace index => ∀ key node, node ∈ index.lookup key ↔
    LastSet (changes key trace) node) ?_ ?_ key node
  · intro key node
    exact iff_of_false CrossNodeIndex.notMem_lookup_new not_lastSet_nil
  · intro trace index event index' hbefore hstep key
    exact hstep.mem_lookup_iff (hbefore key)

/-! ## Lookups -/

/-- The answer of a lookup, by the calls before it. -/
def ExactLookup (before : List (IndexEvent Tid)) (event : IndexEvent Tid) : Prop :=
  ∀ tid key nodes, event = .lookedUp tid key nodes →
    nodes.Pairwise (· < ·) ∧ ∀ node, node ∈ nodes ↔ LastSet (changes key before) node

/-- What a run of the index gives its callers. -/
structure LookupsExact (trace : List (IndexEvent Tid)) (index : CrossNodeIndex) : Prop where
  answers : AtEvery ExactLookup trace
  /-- A run with the same changes of a key, whatever else it does, leaves the same nodes. -/
  unaffected : ∀ (hash' : BlockKey → UInt64) (trace' : List (IndexEvent Tid))
    (index' : CrossNodeIndex), Run IndexStep (.new hash') trace' index' → ∀ key,
      changes key trace' = changes key trace → index'.lookup key = index.lookup key

/-- **Concurrent lookups.** In every interleaving of the calls, a lookup returns the nodes whose
last change for its key was a registration, by ascending id, and each once. -/
theorem lookups_exact (hash : BlockKey → UInt64) {index : CrossNodeIndex}
    (h : Run IndexStep (.new hash) trace index) : LookupsExact trace index := by
  refine ⟨?_, fun hash' trace' index' h' key hsame => ?_⟩
  · refine (h.atEvery (I := fun trace index => Run IndexStep (.new hash) trace index)
      .nil fun {trace a label b} hrun hstep => ⟨.snoc hrun hstep, ?_⟩).2
    rintro tid key nodes rfl
    cases hstep
    exact ⟨a.pairwise_lookup key, mem_lookup_iff_lastSet hrun key⟩
  · have hnodes := index.pairwise_lookup key
    have hnodes' := index'.pairwise_lookup key
    have hperm : (index'.lookup key).Perm (index.lookup key) := by
      rw [List.perm_ext_iff_of_nodup (hnodes'.imp ne_of_lt) (hnodes.imp ne_of_lt)]
      intro node
      rw [mem_lookup_iff_lastSet h', mem_lookup_iff_lastSet h, hsame]
    refine hperm.eq_of_pairwise ?_ hnodes' hnodes
    intro a b _ _ hab hba
    exact absurd hab hba.asymm

/-- Two threads register two nodes of a key, one of them is unregistered, and a third thread asks
for the key. -/
def interleavedCalls : List (IndexEvent Nat) :=
  [.registered 1 {} ⟨"b"⟩, .registered 2 {} ⟨"a"⟩, .unregistered 1 {} ⟨"b"⟩, .lookedUp 3 {} [⟨"a"⟩]]

/-- The index after these calls. -/
def interleavedIndex : CrossNodeIndex :=
  (((CrossNodeIndex.new fun _ => 0).register {} ⟨"b"⟩).register {} ⟨"a"⟩).unregister {} ⟨"b"⟩

theorem lookups_exact_interleaved :
    Run IndexStep (.new fun _ => 0) interleavedCalls interleavedIndex ∧
      LookupsExact interleavedCalls interleavedIndex := by
  have hrun : Run IndexStep (.new fun _ => 0) interleavedCalls interleavedIndex := by
    have hanswer : interleavedIndex.lookup {} = [⟨"a"⟩] := by decide +kernel
    refine .snoc (.snoc (.snoc (.snoc .nil (.register 1 _ _)) (.register 2 _ _))
      (.unregister 1 _ _)) ?_
    rw [← hanswer]
    exact .lookup 3 {}
  exact ⟨hrun, lookups_exact _ hrun⟩

end TieredKVCache.Scheduler
