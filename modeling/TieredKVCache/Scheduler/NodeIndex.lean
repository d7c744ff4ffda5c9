import TieredKVCache.Core.Types
import TieredKVCache.Lib.AssocSum
import TieredKVCache.Lib.SortedSet

/-!
# The cross-node index

`CrossNodeIndex` of `scheduler.cpp`: the set of the nodes that hold a block, in shards by the hash
of its key. A call concerns the shard of its key and runs under the lock of this shard, so that it
is one step. The shards together are a relation between keys and nodes: `mem_lookup_register` and
`mem_lookup_unregister` say how the calls change it.
-/

namespace TieredKVCache.Scheduler

open Lib

/-- `kShards`. -/
abbrev indexShards : Nat := 16

/-- `holders` of a shard. -/
abbrev Holders : Type := AList fun _ : BlockKey => SortedSet NodeId

structure CrossNodeIndex where
  hash : BlockKey → UInt64
  shards : Fin indexShards → Holders

namespace CrossNodeIndex

/-- An index without entries. -/
def new (hash : BlockKey → UInt64) : CrossNodeIndex := ⟨hash, fun _ => ∅⟩

def shardOf (key : BlockKey) (index : CrossNodeIndex) : Fin indexShards :=
  Fin.ofNat indexShards (index.hash key).toNat

/-- A call changes the shard of its key alone. -/
def updateShard (key : BlockKey) (f : Holders → Holders) (index : CrossNodeIndex) :
    CrossNodeIndex :=
  let i := index.shardOf key
  { index with shards := Function.update index.shards i (f (index.shards i)) }

/-- `holders[key].insert(node)`. -/
def register (key : BlockKey) (node : NodeId) (index : CrossNodeIndex) : CrossNodeIndex :=
  index.updateShard key fun holders =>
    holders.insert key (((holders.lookup key).getD ∅).insert node)

/-- A set that gets empty leaves the index. -/
def unregister (key : BlockKey) (node : NodeId) (index : CrossNodeIndex) : CrossNodeIndex :=
  index.updateShard key fun holders =>
    match holders.lookup key with
    | none => holders
    | some nodes =>
      let nodes := nodes.erase node
      if nodes.toList = [] then holders.erase key else holders.insert key nodes

def lookup (key : BlockKey) (index : CrossNodeIndex) : List NodeId :=
  match (index.shards (index.shardOf key)).lookup key with
  | none => []
  | some nodes => nodes.toList

theorem pairwise_lookup (index : CrossNodeIndex) (key : BlockKey) :
    (index.lookup key).Pairwise (· < ·) := by
  unfold lookup
  split
  next => exact .nil
  next nodes _ => exact nodes.sorted

/-- The node holds the block, by a shard. -/
def Holds (holders : Holders) (key : BlockKey) (node : NodeId) : Prop :=
  ∃ nodes, holders.lookup key = some nodes ∧ node ∈ nodes

variable {index : CrossNodeIndex} {key key' : BlockKey} {node node' : NodeId}

theorem mem_lookup : node ∈ index.lookup key ↔
    Holds (index.shards (index.shardOf key)) key node := by
  unfold lookup Holds
  split
  next h => simp [h]
  next nodes h => simp [h]

theorem notMem_lookup_new {hash : BlockKey → UInt64} : node ∉ (new hash).lookup key := by
  rw [mem_lookup]
  rintro ⟨nodes, hnodes, -⟩
  cases hnodes

theorem holds_insert {holders : Holders} {nodes : SortedSet NodeId} :
    Holds (holders.insert key nodes) key' node ↔
      (key' = key ∧ node ∈ nodes) ∨ (key' ≠ key ∧ Holds holders key' node) := by
  unfold Holds
  by_cases h : key' = key
  · subst h
    simp [AList.lookup_insert]
  · simp [AList.lookup_insert_ne h, h]

theorem holds_erase {holders : Holders} :
    Holds (holders.erase key) key' node ↔ key' ≠ key ∧ Holds holders key' node := by
  unfold Holds
  by_cases h : key' = key
  · subst h
    simp [AList.lookup_erase]
  · simp [AList.lookup_erase_ne h, h]

/-- A call that adds and removes entries of its key adds and removes these of the index. -/
theorem mem_lookup_updateShard {f : Holders → Holders} {Q : Prop → Prop}
    (hf : ∀ holders key', Holds (f holders) key' node' ↔
      if key' = key then Q (Holds holders key' node') else Holds holders key' node') :
    node' ∈ (index.updateShard key f).lookup key' ↔
      if key' = key then Q (node' ∈ index.lookup key') else node' ∈ index.lookup key' := by
  rw [mem_lookup, mem_lookup]
  show Holds (Function.update index.shards (index.shardOf key) _ (index.shardOf key')) key' node' ↔
    _
  by_cases hshard : index.shardOf key' = index.shardOf key
  · rw [hshard, Function.update_self, hf]
  · have hne : key' ≠ key := fun heq => hshard (congrArg index.shardOf heq)
    rw [Function.update_of_ne hshard, if_neg hne]

theorem mem_lookup_register : node' ∈ (index.register key node).lookup key' ↔
    if key' = key then node' = node ∨ node' ∈ index.lookup key' else node' ∈ index.lookup key' := by
  refine mem_lookup_updateShard (Q := fun held => node' = node ∨ held) fun holders key' => ?_
  rw [holds_insert]
  by_cases h : key' = key
  · subst h
    rw [if_pos rfl]
    cases hlookup : holders.lookup key' <;> simp [Holds, hlookup]
  · simp [h]

theorem mem_lookup_unregister : node' ∈ (index.unregister key node).lookup key' ↔
    if key' = key then node' ≠ node ∧ node' ∈ index.lookup key' else node' ∈ index.lookup key' := by
  refine mem_lookup_updateShard (Q := fun held => node' ≠ node ∧ held) fun holders key' => ?_
  cases hlookup : holders.lookup key with
  | none =>
    by_cases h : key' = key
    · subst h
      simp [Holds, hlookup]
    · simp [h]
  | some nodes =>
    dsimp only
    have hheld : ∀ node', Holds holders key node' ↔ node' ∈ nodes := by
      intro node'
      simp [Holds, hlookup]
    by_cases hempty : (nodes.erase node).toList = []
    · have hnone : ¬ (node' ≠ node ∧ node' ∈ nodes) := by
        rw [← SortedSet.mem_erase, ← SortedSet.mem_toList, hempty]
        exact List.not_mem_nil
      rw [if_pos hempty, holds_erase]
      by_cases h : key' = key
      · subst h
        rw [if_pos rfl, hheld]
        exact ⟨fun hheld => absurd rfl hheld.1, fun hheld => absurd hheld hnone⟩
      · simp [h]
    · rw [if_neg hempty, holds_insert]
      by_cases h : key' = key
      · subst h
        rw [if_pos rfl, hheld, ← SortedSet.mem_erase]
        simp
      · simp [h]

end CrossNodeIndex

end TieredKVCache.Scheduler
