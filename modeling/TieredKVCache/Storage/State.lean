import Mathlib.Data.Finset.Max
import Mathlib.Data.Finset.Lattice.Fold
import Mathlib.Logic.Function.Basic
import TieredKVCache.Storage.Config

/-!
# The state of the tiered storage manager

The private members of `TieredStorageManager` and the helpers that keep them in step with
the block map: removal, the victim indexes, the tenant accounts and the ghost queue.

A map from the three tiers is a function, a `std::unordered_map` or `std::map` is an
association list, a `std::set` is a finite set and a `std::deque` is a list with its front
first. Byte counters are natural numbers: they add up blocks that are in memory together, and
`RepInv` shows that no subtraction goes below zero.

`Invalidation` selects what `RemoveLocked` does with the entries a key has in the queues of
the fastest tier. The source leaves them there (`.lazy`); `.eager` is the variant that
deletes them, for comparison. `s3Victims` is a history variable: it records the
results of `PickS3VictimLocked`, and no operation reads it.
-/

namespace TieredKVCache.Storage

open Lib

/-- `BlockSizeBytes`. -/
def blockSizeBytes (block : KVCacheBlock) : Nat := block.kPayload.length + block.vPayload.length

structure AccessStats where
  accessCount : Nat := 0
  lastAccessTs : Nat := 0
deriving DecidableEq, Repr

structure TierEntry where
  key : BlockKey
  tier : Tier
  sizeBytes : Nat
  stats : AccessStats
  tenantId : UInt32
deriving DecidableEq, Repr

structure StoredBlock where
  block : KVCacheBlock
  entry : TierEntry
  s3Freq : Nat := 0
  s3InMain : Bool := false
deriving DecidableEq, Repr

/-- `std::tuple<std::uint64_t, BlockKey>`, ordered lexicographically. -/
abbrev VictimOrder := Nat ×ₗ BlockKey

structure State where
  logicalClock : Nat := 0
  blocks : AList fun _ : BlockKey => StoredBlock := ∅
  victimIndex : Tier → Finset VictimOrder := fun _ => ∅
  s3SmallFifo : List BlockKey := []
  s3MainFifo : List BlockKey := []
  s3SmallUsedBytes : Nat := 0
  usedBytes : Tier → Nat := fun _ => 0
  ghost : Finset BlockKey := ∅
  ghostFifo : List BlockKey := []
  tenantUsed : Tier → AList fun _ : UInt32 => Nat := fun _ => ∅
  tenantVictimIndex : Tier → AList fun _ : UInt32 => Finset VictimOrder := fun _ => ∅
  s3Victims : List (Option BlockKey) := []

/-- A freshly constructed manager. -/
def State.fresh : State := {}

inductive Invalidation where
  | lazy | eager
deriving DecidableEq, Repr

/-! ## Victim indexes -/

def victimOrder (entry : TierEntry) : VictimOrder := toLex (entry.stats.lastAccessTs, entry.key)

def indexInsertLocked (entry : TierEntry) (s : State) : State :=
  { s with
    victimIndex := Function.update s.victimIndex entry.tier
      (insert (victimOrder entry) (s.victimIndex entry.tier)) }

def indexEraseLocked (entry : TierEntry) (s : State) : State :=
  { s with
    victimIndex := Function.update s.victimIndex entry.tier
      ((s.victimIndex entry.tier).erase (victimOrder entry)) }

/-! ## Tenant accounts -/

section

variable {D : Type} (config : TierConfig D)

def accountInsertLocked (entry : TierEntry) (s : State) : State :=
  if !config.quotaEnabledLocked then s
  else
    let used := ((s.tenantUsed entry.tier).lookup entry.tenantId).getD 0
    let index := ((s.tenantVictimIndex entry.tier).lookup entry.tenantId).getD ∅
    { s with
      tenantUsed := Function.update s.tenantUsed entry.tier
        ((s.tenantUsed entry.tier).insert entry.tenantId (used + entry.sizeBytes))
      tenantVictimIndex := Function.update s.tenantVictimIndex entry.tier
        ((s.tenantVictimIndex entry.tier).insert entry.tenantId
          (insert (victimOrder entry) index)) }

/-- The first half of `AccountEraseLocked`: an account that reaches zero is dropped. -/
def tenantUsedErase (entry : TierEntry) (accounts : AList fun _ : UInt32 => Nat) :
    AList fun _ : UInt32 => Nat :=
  match accounts.lookup entry.tenantId with
  | none => accounts
  | some used =>
    let used := used - min used entry.sizeBytes
    if used = 0 then accounts.erase entry.tenantId else accounts.insert entry.tenantId used

/-- The second half of `AccountEraseLocked`: an index that becomes empty is dropped. -/
def tenantIndexErase (entry : TierEntry) (indexes : AList fun _ : UInt32 => Finset VictimOrder) :
    AList fun _ : UInt32 => Finset VictimOrder :=
  match indexes.lookup entry.tenantId with
  | none => indexes
  | some index =>
    let index := index.erase (victimOrder entry)
    if index = ∅ then indexes.erase entry.tenantId else indexes.insert entry.tenantId index

def accountEraseLocked (entry : TierEntry) (s : State) : State :=
  if !config.quotaEnabledLocked then s
  else
    { s with
      tenantUsed := Function.update s.tenantUsed entry.tier
        (tenantUsedErase entry (s.tenantUsed entry.tier))
      tenantVictimIndex := Function.update s.tenantVictimIndex entry.tier
        (tenantIndexErase entry (s.tenantVictimIndex entry.tier)) }

/-! ## Removal -/

def removeLocked (inval : Invalidation) (key : BlockKey) (s : State) : State :=
  match s.blocks.lookup key with
  | none => s
  | some it =>
    let s :=
      if config.fastestTierCache = some it.entry.tier then
        let s :=
          if !it.s3InMain then
            { s with s3SmallUsedBytes := s.s3SmallUsedBytes - it.entry.sizeBytes }
          else s
        match inval with
        | .lazy => s
        | .eager =>
          { s with
            s3SmallFifo := s.s3SmallFifo.filter (· ≠ key)
            s3MainFifo := s.s3MainFifo.filter (· ≠ key) }
      else indexEraseLocked it.entry s
    let s := accountEraseLocked config it.entry s
    { s with
      usedBytes := Function.update s.usedBytes it.entry.tier
        (s.usedBytes it.entry.tier - it.entry.sizeBytes)
      blocks := s.blocks.erase key }

end

/-! ## The ghost queue -/

/-- `kGhostCapacity`. -/
def ghostCapacity : Nat := 8192

/-- The `while` loop of `GhostInsertLocked`. -/
def ghostTrim (capacity : Nat) (ghost : Finset BlockKey) :
    List BlockKey → Finset BlockKey × List BlockKey
  | [] => (ghost, [])
  | key :: rest =>
    if (key :: rest).length > capacity then ghostTrim capacity (ghost.erase key) rest
    else (ghost, key :: rest)

def ghostInsertLocked (key : BlockKey) (s : State) : State :=
  if key ∈ s.ghost then s
  else
    let (ghost, fifo) := ghostTrim ghostCapacity (insert key s.ghost) (s.ghostFifo ++ [key])
    { s with ghost := ghost, ghostFifo := fifo }

/-- Whether the key was a ghost, and the state without it. -/
def ghostConsumeLocked (key : BlockKey) (s : State) : Bool × State :=
  if key ∈ s.ghost then (true, { s with ghost := s.ghost.erase key }) else (false, s)

end TieredKVCache.Storage
