import TieredKVCache.Lib.Loop
import TieredKVCache.Storage.State

/-!
# The tiered storage manager

The victim pickers, capacity enforcement and the public operations of
`tiered_storage_manager.cpp`. A `while` loop is an `iterate` whose bound is a measure of the
state; the theorems that follow show that no bound is reached. The mutex makes every public
operation one step, so that a run of a manager is a list of operations (`Op`, `runOps`).
-/

namespace TieredKVCache.Storage

open Lib

section

variable {D : Type} [DoubleArith D] (inval : Invalidation) (config : TierConfig D)

/-! ## Victim pickers -/

/-- A reused block of the small queue moves to the main queue. -/
def promoteToMain (key : BlockKey) (it : StoredBlock) (s : State) : State :=
  { s with
    blocks := s.blocks.insert key { it with s3InMain := true, s3Freq := 0 }
    s3SmallUsedBytes := s.s3SmallUsedBytes - it.entry.sizeBytes
    s3MainFifo := s.s3MainFifo ++ [key] }

/-- A reused block of the main queue gets a second chance at its tail. -/
def secondChance (key : BlockKey) (it : StoredBlock) (s : State) : State :=
  { s with
    blocks := s.blocks.insert key { it with s3Freq := it.s3Freq - 1 }
    s3MainFifo := s.s3MainFifo ++ [key] }

/-- The body of the loop of `PickS3VictimLocked`; going round again is `continue`. -/
def s3Body (fast : Tier) (s : State) : Except Fault (State ⊕ (Option BlockKey × State)) :=
  let smallBudget := config.capacityOf fast / 10
  let fromSmall :=
    (s.s3SmallUsedBytes > smallBudget && !s.s3SmallFifo.isEmpty) || s.s3MainFifo.isEmpty
  if fromSmall then
    match s.s3SmallFifo with
    | [] => .ok (.inr (none, s))
    | key :: rest =>
      let s := { s with s3SmallFifo := rest }
      match s.blocks.lookup key with
      | none => .ok (.inl s)
      | some it =>
        if it.entry.tier ≠ fast ∨ it.s3InMain then .ok (.inl s)
        else if it.s3Freq > 0 then .ok (.inl (promoteToMain key it s))
        else .ok (.inr (some key, ghostInsertLocked key s))
  else
    match s.s3MainFifo with
    | [] => .error .emptyQueue
    | key :: rest =>
      let s := { s with s3MainFifo := rest }
      match s.blocks.lookup key with
      | none => .ok (.inl s)
      | some it =>
        if it.entry.tier ≠ fast ∨ !it.s3InMain then .ok (.inl s)
        else if it.s3Freq > 0 then .ok (.inl (secondChance key it s))
        else .ok (.inr (some key, s))

/-- A measure that every round of the picker lowers: an entry of the small queue can still
be popped from both queues, and a second chance costs one unit of frequency. -/
def s3Measure (s : State) : Nat :=
  2 * s.s3SmallFifo.length + s.s3MainFifo.length + sumOver (fun _ it => it.s3Freq) s.blocks

def pickS3VictimLocked (s : State) : Except Fault (Option BlockKey × State) :=
  match config.fastestTierCache with
  | none => .error .emptyOptional
  | some fast => do
    let (victim, s) ← iterate (s3Body config fast) .diverged (s3Measure s + 1) s
    return (victim, { s with s3Victims := victim :: s.s3Victims })

/-- The first element of the ordered index. -/
def pickVictimLocked (tier : Tier) (s : State) : Option BlockKey :=
  if h : (s.victimIndex tier).Nonempty then some (ofLex ((s.victimIndex tier).min' h)).2 else none

def pickQuotaVictimLocked (tier : Tier) (s : State) : Option BlockKey :=
  let worst := (inOrder (s.tenantVictimIndex tier)).foldl (fun (worst : D × Finset VictimOrder) e =>
    if e.2 = ∅ then worst
    else
      let used : D :=
        match (s.tenantUsed tier).lookup e.1 with
        | none => 0
        | some used => DoubleArith.ofSize used
      let overage := used - config.tenantShareOf e.1 tier
      if overage > worst.1 then (overage, e.2) else worst) (0, ∅)
  if h : worst.2.Nonempty then some (ofLex (worst.2.min' h)).2 else none

/-! ## Capacity enforcement -/

/-- The choice of the victim in `EnforceCapacityLocked`. -/
def chooseVictim (tier : Tier) (s : State) : Except Fault (Option BlockKey × State) :=
  match (if config.quotaEnabledLocked then pickQuotaVictimLocked config tier s else none) with
  | some key => .ok (some key, s)
  | none =>
    if config.fastestTierCache = some tier then pickS3VictimLocked config s
    else .ok (pickVictimLocked tier s, s)

/-- A victim enters the next slower tier with a fresh time stamp. -/
def demoteLocked (slower : Tier) (it : StoredBlock) (s : State) : State :=
  let s := { s with logicalClock := s.logicalClock + 1 }
  let key := it.block.key
  let size := blockSizeBytes it.block
  let stats := { it.entry.stats with lastAccessTs := s.logicalClock }
  let entry : TierEntry := ⟨key, slower, size, stats, it.entry.tenantId⟩
  let s := { s with blocks := s.blocks.insert key { block := it.block, entry } }
  let s := indexInsertLocked entry s
  let s := accountInsertLocked config entry s
  { s with usedBytes := Function.update s.usedBytes slower (s.usedBytes slower + size) }

/-- The body of the loop of `EnforceCapacityLocked`; `enforce` is the recursive call. -/
def enforceBody (enforce : Tier → State → Except Fault (Status × State)) (tier : Tier) (s : State) :
    Except Fault (State ⊕ (Status × State)) :=
  if s.usedBytes tier ≤ config.evictionThresholdOf tier then .ok (.inr (.success, s))
  else do
    let (victimKey, s) ← chooseVictim config tier s
    match victimKey with
    | none => return .inr (.make .internal "占用超容量但层内无可淘汰块", s)
    | some key =>
      match s.blocks.lookup key with
      | none => .error .endIterator
      | some it =>
        let s := removeLocked config inval key s
        match config.nextSlowerConfigured tier with
        | none => return .inl s
        | some slower =>
          if blockSizeBytes it.block ≤ config.capacityOf slower then
            let (status, s) ← enforce slower (demoteLocked config slower it s)
            if !status.isOk then return .inr (status, s)
            return .inl s
          else return .inl { s with logicalClock := s.logicalClock + 1 }

/-- The number of blocks in a tier. -/
def residentCount (tier : Tier) (s : State) : Nat :=
  sumOver (fun _ it => if it.entry.tier = tier then 1 else 0) s.blocks

/-- `EnforceCapacityLocked` with a bound on the depth of the recursion. -/
def enforceWithin : Nat → Tier → State → Except Fault (Status × State)
  | 0, _, _ => .error .diverged
  | depth + 1, tier, s =>
    iterate (enforceBody inval config (enforceWithin depth) tier) .diverged
      (residentCount tier s + 1) s

/-- Every recursive call is for a slower tier, and there are three tiers. -/
def enforceCapacityLocked (tier : Tier) (s : State) : Except Fault (Status × State) :=
  enforceWithin inval config 3 tier s

/-! ## Placement -/

/-- The part of `PlaceLocked` between the size check and capacity enforcement: the old
placement is taken out and the block enters the tier. -/
def admitLocked (block : KVCacheBlock) (tier : Tier) (tenantId : UInt32) (s : State) : State :=
  let size := blockSizeBytes block
  let (stats, s) :=
    match s.blocks.lookup block.key with
    | some it => (it.entry.stats, removeLocked config inval block.key s)
    | none => ({}, s)
  let s := { s with logicalClock := s.logicalClock + 1 }
  let stats : AccessStats := ⟨stats.accessCount + 1, s.logicalClock⟩
  let (ghostHit, s) := ghostConsumeLocked block.key s
  let stats := if stats.accessCount = 1 && ghostHit then { stats with accessCount := 2 } else stats
  let key := block.key
  let entry : TierEntry := ⟨key, tier, size, stats, tenantId⟩
  let isFastest : Bool := config.fastestTierCache = some tier
  let stored : StoredBlock :=
    { block, entry, s3InMain := isFastest && (ghostHit || stats.accessCount > 1) }
  let s :=
    if isFastest then
      if stored.s3InMain then { s with s3MainFifo := s.s3MainFifo ++ [key] }
      else
        { s with
          s3SmallFifo := s.s3SmallFifo ++ [key]
          s3SmallUsedBytes := s.s3SmallUsedBytes + size }
    else s
  let s := { s with blocks := s.blocks.insert key stored }
  let s := if !isFastest then indexInsertLocked entry s else s
  let s := accountInsertLocked config entry s
  { s with usedBytes := Function.update s.usedBytes tier (s.usedBytes tier + size) }

def placeLocked (block : KVCacheBlock) (tier : Tier) (tenantId : UInt32) (s : State) :
    Except Fault (Status × State) :=
  if blockSizeBytes block > config.evictionThresholdOf tier then
    .ok (.make .outOfCapacity ("块尺寸超过层容量：" ++ tier.name), s)
  else enforceCapacityLocked inval config tier (admitLocked inval config block tier tenantId s)

/-! ## Public operations -/

def write (block : KVCacheBlock) (target : Tier) (tenantId : UInt32) (s : State) :
    Except Fault (Status × State) :=
  match config.resolveConfiguredTier target with
  | none => .ok (.make .invalidArgument "无任何已配置存储层", s)
  | some tier => placeLocked inval config block tier tenantId s

/-- A hit in the fastest tier. -/
def touchFastest (key : BlockKey) (it : StoredBlock) (s : State) : State :=
  let s := accountEraseLocked config it.entry s
  let s := { s with logicalClock := s.logicalClock + 1 }
  let entry := { it.entry with stats := ⟨it.entry.stats.accessCount + 1, s.logicalClock⟩ }
  let s :=
    { s with blocks := s.blocks.insert key { it with s3Freq := min (it.s3Freq + 1) 3, entry } }
  accountInsertLocked config entry s

/-- A hit in a slower tier, before any promotion. -/
def touchSlower (key : BlockKey) (it : StoredBlock) (s : State) : State :=
  let s := indexEraseLocked it.entry s
  let s := accountEraseLocked config it.entry s
  let s := { s with logicalClock := s.logicalClock + 1 }
  let entry := { it.entry with stats := ⟨it.entry.stats.accessCount + 1, s.logicalClock⟩ }
  let s := { s with blocks := s.blocks.insert key { it with entry } }
  let s := indexInsertLocked entry s
  accountInsertLocked config entry s

/-- A touched block leaves its tier and enters the main queue of the fastest one. -/
def promoteLocked (key : BlockKey) (it : StoredBlock) (fast : Tier) (s : State) : State :=
  let s := removeLocked config inval key s
  let entry : TierEntry := ⟨key, fast, it.entry.sizeBytes, it.entry.stats, it.entry.tenantId⟩
  let s := { s with s3MainFifo := s.s3MainFifo ++ [key] }
  let s := { s with blocks := s.blocks.insert key { block := it.block, entry, s3InMain := true } }
  let s := accountInsertLocked config entry s
  { s with usedBytes := Function.update s.usedBytes fast (s.usedBytes fast + it.entry.sizeBytes) }

def read (key : BlockKey) (s : State) : Except Fault (Result KVCacheBlock × State) :=
  match s.blocks.lookup key with
  | none => .ok (.ofStatus (.make .notFound "块不在任何层（缓存未命中）"), s)
  | some it =>
    if config.fastestTierCache = some it.entry.tier then
      .ok (.ok it.block, touchFastest config key it s)
    else
      let s := touchSlower config key it s
      match config.fastestTierCache, s.blocks.lookup key with
      | some fast, some it =>
        if it.entry.sizeBytes ≤ config.evictionThresholdOf fast then do
          let (status, s) ←
            enforceCapacityLocked inval config fast (promoteLocked inval config key it fast s)
          if !status.isOk then return (.ofStatus status, s)
          match s.blocks.lookup key with
          | none => return (.ofStatus (.make .internal "晋升块在容量执法中被立即淘汰"), s)
          | some promoted => return (.ok promoted.block, s)
        else .ok (.ok it.block, s)
      | none, some it => .ok (.ok it.block, s)
      | _, none => .error .endIterator

structure LookupResult where
  hit : Bool
  tier : Tier
  key : BlockKey
deriving DecidableEq, Repr

def locate (key : BlockKey) (s : State) : LookupResult :=
  match s.blocks.lookup key with
  | none => ⟨false, .hbm, key⟩
  | some it => ⟨true, it.entry.tier, key⟩

def enforceCapacity (tier : Tier) (s : State) : Except Fault (Status × State) :=
  enforceCapacityLocked inval config tier s

/-- The loop of `Prefetch` over the predicted keys. -/
def prefetchKeys (fastest : Tier) : List BlockKey → State → Except Fault (Status × State)
  | [], s => .ok (.success, s)
  | key :: rest, s =>
    match s.blocks.lookup key with
    | none => prefetchKeys fastest rest s
    | some it =>
      if it.entry.tier = fastest then prefetchKeys fastest rest s
      else if blockSizeBytes it.block > config.evictionThresholdOf fastest then
        prefetchKeys fastest rest s
      else do
        let (status, s) ← placeLocked inval config it.block fastest it.entry.tenantId s
        if !status.isOk then return (status, s)
        prefetchKeys fastest rest s

def prefetch (predicted : List BlockKey) (s : State) : Except Fault (Status × State) :=
  match config.resolveConfiguredTier .hbm with
  | none => .ok (.make .invalidArgument "无任何已配置存储层", s)
  | some fastest => prefetchKeys inval config fastest predicted s

structure TierOccupancy where
  usedBytes : Nat
  capacityBytes : Nat
deriving DecidableEq, Repr

def occupancy (tier : Tier) (s : State) : TierOccupancy :=
  ⟨s.usedBytes tier, config.capacityOf tier⟩

/-! ## Runs -/

inductive Op where
  | write (block : KVCacheBlock) (target : Tier) (tenantId : UInt32)
  | read (key : BlockKey)
  | prefetch (predicted : List BlockKey)
  | enforceCapacity (tier : Tier)

inductive Reply where
  | status (status : Status)
  | block (result : Result KVCacheBlock)
deriving DecidableEq

def runOp : Op → State → Except Fault (Reply × State)
  | .write block target tenantId, s => do
    let (status, s) ← write inval config block target tenantId s
    return (.status status, s)
  | .read key, s => do
    let (result, s) ← read inval config key s
    return (.block result, s)
  | .prefetch predicted, s => do
    let (status, s) ← prefetch inval config predicted s
    return (.status status, s)
  | .enforceCapacity tier, s => do
    let (status, s) ← enforceCapacity inval config tier s
    return (.status status, s)

/-- Run the operations in order and collect the replies. -/
def runOps : List Op → State → Except Fault (List Reply × State)
  | [], s => .ok ([], s)
  | op :: ops, s => do
    let (reply, s) ← runOp inval config op s
    let (replies, s) ← runOps ops s
    return (reply :: replies, s)

end

end TieredKVCache.Storage
