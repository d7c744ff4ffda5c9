import TieredKVCache.Bench.Registry
import TieredKVCache.Core.Double
import Mathlib.Data.Finset.Insert
import Mathlib.Data.List.AList

/-!
# The simulation of two tiers

`TieredSimulator` of `tiered.py`: blocks that the fast tier evicts go to the slow tier, blocks that
are found there come back, and the known successors of the blocks of a request are promoted before
the request is processed. The callback of the fast tier is the admission to the slow tier, which
does not call back: it runs over the evictions of an admission in their order. With an LRU policy in
the slow tier the two tiers are exclusive and lose nothing silently (`tiers_exclusive`).
-/

namespace TieredKVCache.Bench

open Lib CachePolicy

variable {α D : Type}

/-- The costs that the simulation reads, in ms. -/
structure TieredCosts (D : Type) where
  prefillMsPerBlock : D
  promoteMsPerBlock : D

/-- The defaults: 4.0 and 0.5. -/
def TieredCosts.standard [DoubleArith D] : TieredCosts D where
  prefillMsPerBlock := DoubleArith.ofSize 4
  promoteMsPerBlock := DoubleArith.ofSize 1 / DoubleArith.ofSize 2

/-- The result of a request; `blockHits` follows the order of its blocks. -/
structure RequestOutcome (D : Type) where
  fastHits : Nat
  slowHits : Nat
  misses : Nat
  ttftMs : D
  blockHits : List Bool
deriving DecidableEq, Repr

/-- How an access goes. -/
inductive AccessKind where
  | fastHit
  | slowHit
  | miss
deriving DecidableEq, Repr

structure TieredSimulator (α D : Type) where
  fast : Policy α
  slow : Policy α
  successor : AList fun _ : α => α
  prefetchDepth : Int
  costs : TieredCosts D

namespace TieredSimulator

variable [DecidableEq α]

/-- The constructor; the slow tier has the policy of the fast one unless it is given its own. -/
def new (fastBlocks slowBlocks : Int) (policyName : String) (prefetchDepth : Int)
    (costs : TieredCosts D) (slowPolicyName : String) :
    Except String (TieredSimulator α D) := do
  let fast ← makePolicy policyName fastBlocks
  let slow ← makePolicy (if slowPolicyName = "" then policyName else slowPolicyName) slowBlocks
  return { fast, slow, successor := ∅, prefetchDepth, costs }

/-- `_fast.admit`, with its callback `_slow.admit`. -/
def admitFast (hashId : α) (sim : TieredSimulator α D) : TieredSimulator α D :=
  let (evictions, fast) := admitKey hashId sim.fast
  let slow := evictions.foldl (fun slow eviction => (admitKey eviction.key slow).2) sim.slow
  { sim with fast, slow }

/-- A block of the slow tier moves to the fast one. -/
def promote (hashId : α) (sim : TieredSimulator α D) : TieredSimulator α D :=
  let sim := { sim with slow := (remove hashId sim.slow).2 }
  sim.admitFast hashId

/-- The access to a block in the loop of `process_request`. -/
def accessBlock (hashId : α) (sim : TieredSimulator α D) : AccessKind × TieredSimulator α D :=
  if contains hashId sim.fast then (.fastHit, { sim with fast := touch hashId sim.fast })
  else if contains hashId sim.slow then (.slowHit, sim.promote hashId)
  else (.miss, sim.admitFast hashId)

/-- `_successor[prev] = hash_id`, where there is a previous block. -/
def link (prev : Option α) (hashId : α) (sim : TieredSimulator α D) : TieredSimulator α D :=
  match prev with
  | some prev => { sim with successor := sim.successor.insert prev hashId }
  | none => sim

/-- The loop of `process_request` over the blocks that follow `prev`. -/
def accessBlocks (prev : Option α) : List α → TieredSimulator α D →
    List AccessKind × TieredSimulator α D
  | [], sim => ([], sim)
  | hashId :: hashIds, sim =>
    let (kind, sim) := sim.accessBlock hashId
    let sim := sim.link prev hashId
    let (kinds, sim) := accessBlocks (some hashId) hashIds sim
    (kind :: kinds, sim)

/-- Promote the blocks on the chain of successors of `cursor`; the number of promotions is counted
on. -/
def followChain : Nat → α → Nat × TieredSimulator α D → Nat × TieredSimulator α D
  | 0, _, state => state
  | budget + 1, cursor, (promoted, sim) =>
    match sim.successor.lookup cursor with
    | none => (promoted, sim)
    | some nxt =>
      let state :=
        if contains nxt sim.slow then (promoted + 1, sim.promote nxt) else (promoted, sim)
      followChain budget nxt state

/-- The loop of `_prefetch_for_request` over the anchors. -/
def followAnchors (budget : Nat) : List α → Nat × TieredSimulator α D → Nat × TieredSimulator α D
  | [], state => state
  | anchor :: anchors, state =>
    if contains anchor state.2.fast || contains anchor state.2.slow then
      followAnchors budget anchors (followChain budget anchor state)
    else followAnchors budget anchors state

/-- The number of promotions, and the simulator after them. -/
def prefetchForRequest (hashIds : List α) (sim : TieredSimulator α D) :
    Nat × TieredSimulator α D :=
  if sim.prefetchDepth ≤ 0 ∨ hashIds = [] then (0, sim)
  else followAnchors (hashIds.length + sim.prefetchDepth.toNat) hashIds (0, sim)

/-- What the loop of `process_request` has counted, as a result. -/
def outcome [DoubleArith D] (costs : TieredCosts D) (kinds : List AccessKind) : RequestOutcome D :=
  let misses := kinds.count .miss
  let slowHits := kinds.count .slowHit
  let cost := DoubleArith.ofSize misses * costs.prefillMsPerBlock +
    DoubleArith.ofSize slowHits * costs.promoteMsPerBlock
  { fastHits := kinds.count .fastHit
    slowHits
    misses
    ttftMs := if cost < costs.prefillMsPerBlock then costs.prefillMsPerBlock else cost
    blockHits := kinds.map (· ≠ .miss) }

def processRequest [DoubleArith D] (hashIds : List α) (sim : TieredSimulator α D) :
    RequestOutcome D × TieredSimulator α D :=
  let (_prefetched, sim) := sim.prefetchForRequest hashIds
  let (kinds, sim) := sim.accessBlocks none hashIds
  (outcome sim.costs kinds, sim)

/-- A sequence of requests. -/
def processRequests [DoubleArith D] : List (List α) → TieredSimulator α D →
    List (RequestOutcome D) × TieredSimulator α D
  | [], sim => ([], sim)
  | hashIds :: requests, sim =>
    let (result, sim) := sim.processRequest hashIds
    let (results, sim) := processRequests requests sim
    (result :: results, sim)

end TieredSimulator

end TieredKVCache.Bench
