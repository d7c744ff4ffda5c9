import Mathlib.Data.List.Sort
import TieredKVCache.Bench.Percentiles
import TieredKVCache.Bench.Provenance
import TieredKVCache.Bench.Tiered

/-!
# The replay of a trace

`framework.py`: a trace is replayed on one cache pool (the baseline) or on two tiers (the project),
which leaves a log of the block accesses and a latency for each request, and a report sums them up.
Latencies are computed in the arithmetic of the parameter; the report compares them, and is stated
in exact arithmetic.
-/

namespace TieredKVCache.Bench

open Lib CachePolicy

variable {α D : Type}

/-! ## Traces -/

structure TraceRecord (α : Type) where
  timestamp : Int
  inputLength : Int
  outputLength : Int
  hashIds : List α
deriving DecidableEq, Repr

structure ReplayStep (α : Type) where
  arrivalIndex : Nat
  record : TraceRecord α
deriving DecidableEq, Repr

def buildReplayPlan (records : List (TraceRecord α)) : List (ReplayStep α) :=
  records.mapIdx fun i record => ⟨i, record⟩

structure AccessEvent (α : Type) where
  hashId : α
  hit : Bool
deriving DecidableEq, Repr

structure AccessLog (α : Type) where
  events : List (AccessEvent α)
deriving DecidableEq, Repr

/-- An `int` as a `float`. -/
def ofInt [DoubleArith D] : Int → D
  | .ofNat n => DoubleArith.ofSize n
  | .negSucc n => 0 - DoubleArith.ofSize (n + 1)

/-- `rates`: the hit rate of the log, and its reuse rate. -/
def rates [DecidableEq α] [DoubleArith D] (accessLog : AccessLog α) : D × D :=
  let events := accessLog.events
  if events.isEmpty then (0, 0)
  else
    let hits := events.countP (·.hit)
    let seen := (events.map (·.hashId)).toFinset
    let reused := ((events.filter (·.hit)).map (·.hashId)).toFinset
    (DoubleArith.ofSize hits / DoubleArith.ofSize events.length,
      DoubleArith.ofSize reused.card / DoubleArith.ofSize seen.card)

/-! ## Replays -/

/-- What a replay returns. -/
structure ReplayResult (α D : Type) where
  accessLog : AccessLog α
  ttftSamples : List D
  e2eSamples : List D
  throughput : D

/-- What a step adds to the result. -/
structure StepResult (α D : Type) where
  events : List (AccessEvent α)
  ttftMs : D
  e2eMs : D
  tokens : Int

/-- `decode_ms_per_token`, 0.05. -/
def decodeMsPerToken [DoubleArith D] : D := DoubleArith.ofSize 1 / DoubleArith.ofSize 20

/-- The end of the loop body, which both replays share. -/
def stepResult [DoubleArith D] (record : TraceRecord α) (events : List (AccessEvent α))
    (ttftMs : D) : StepResult α D where
  events
  ttftMs
  e2eMs := ttftMs + ofInt record.outputLength * decodeMsPerToken
  tokens := record.inputLength + record.outputLength

/-- The result of the loop. -/
def summarize [DoubleArith D] (steps : List (StepResult α D)) : ReplayResult α D :=
  let totalTokens := (steps.map (·.tokens)).sum
  let totalTimeS := steps.foldl (fun total step => total + step.e2eMs / DoubleArith.ofSize 1000) 0
  { accessLog := ⟨steps.flatMap (·.events)⟩
    ttftSamples := steps.map (·.ttftMs)
    e2eSamples := steps.map (·.e2eMs)
    throughput := if 0 < totalTimeS then ofInt totalTokens / totalTimeS else 0 }

section

variable {P : Type} [CachePolicy P α]

/-- The accesses to the blocks of a record, from an index on. -/
def accessRecord (blockIndex : Nat) : List α → P → List (AccessEvent α) × P
  | [], policy => ([], policy)
  | hashId :: hashIds, policy =>
    let (hit, _evicted, policy) := access hashId blockIndex policy
    let (events, policy) := accessRecord (blockIndex + 1) hashIds policy
    (⟨hashId, hit⟩ :: events, policy)

/-- The loop of `_simulate_replay`. -/
def replaySteps [DoubleArith D] : List (ReplayStep α) → P → List (StepResult α D)
  | [], _ => []
  | step :: plan, policy =>
    let (events, policy) := accessRecord 0 step.record.hashIds policy
    let misses := events.countP (!·.hit)
    let ttftMs := DoubleArith.ofSize (max misses 1) * DoubleArith.ofSize 4
    stepResult step.record events ttftMs :: replaySteps plan policy

end

variable [DecidableEq α] [DoubleArith D]

/-- `_simulate_replay`. -/
def simulateReplay (plan : List (ReplayStep α)) (poolBlocks : Int) (policyName : String) :
    Except String (ReplayResult α D) := do
  let policy ← (makePolicy policyName poolBlocks : Except String (Policy α))
  return summarize (replaySteps plan policy)

/-- The loop of `_simulate_tiered_replay`. -/
def tieredSteps : List (ReplayStep α) → TieredSimulator α D → List (StepResult α D)
  | [], _ => []
  | step :: plan, sim =>
    let (outcome, sim) := sim.processRequest step.record.hashIds
    let events := step.record.hashIds.zipWith AccessEvent.mk outcome.blockHits
    stepResult step.record events outcome.ttftMs :: tieredSteps plan sim

/-- `_PROJECT_PREFETCH_DEPTH`. -/
def projectPrefetchDepth : Int := 8

/-- `_PROJECT_SLOW_POLICY`. -/
def projectSlowPolicy : String := "lru"

/-- `_simulate_tiered_replay`. -/
def simulateTieredReplay (plan : List (ReplayStep α)) (fastBlocks slowBlocks : Int)
    (policyName : String) (prefetch : Bool) : Except String (ReplayResult α D) := do
  let sim ← TieredSimulator.new fastBlocks slowBlocks policyName
    (if prefetch then projectPrefetchDepth else 0) TieredCosts.standard projectSlowPolicy
  return summarize (tieredSteps plan sim)

/-! ## Reports -/

structure HardwareProfile where
  rdma : Bool := false
  gpuDirect : Bool := false
  nvme : Bool := false
deriving DecidableEq, Repr

inductive Target where
  | project
  | baseline
deriving DecidableEq, Repr

structure RunConfig where
  target : Target
  tracePath : String
  hardware : HardwareProfile := {}
  seed : Int := 0
  mooncakeCommit : List Char := []
  policy : String := ""
  prefetch : Bool := true
deriving DecidableEq, Repr

structure RunReport where
  config : RunConfig
  softwareVersions : List (String × String)
  mooncakeCommit : List Char
  throughputTokS : ℚ
  ttftMs : Percentiles ℚ
  e2eLatencyMs : Percentiles ℚ
  cacheHitRate : ℚ
  reuseRate : ℚ
  skipped : List String

/-- What a replay raises. -/
inductive ReplayError where
  | valueError (message : String)
  | lock (error : LockError)
deriving DecidableEq, Repr

/-- What the run reads from its surroundings: the version of Python, the platform, and the lock file
with its path. -/
structure Environment where
  python : String
  platform : String
  lockPath : List Char
  lockText : Option (List Char)

/-- `_software_versions`. -/
def softwareVersions (env : Environment) : List (String × String) :=
  [("python", env.python), ("platform", env.platform), ("bench_framework", "0.1.0")]

namespace BenchmarkFramework

/-- `_PROJECT_POOL_BLOCKS` and `_BASELINE_POOL_BLOCKS`. -/
def poolBlocks : Target → Int
  | .project => 4096
  | .baseline => 1024

/-- `_PROJECT_POLICY` and `_BASELINE_POLICY`. -/
def defaultPolicy : Target → String
  | .project => "s3fifo"
  | .baseline => "lru"

/-- `_PROJECT_SLOW_FACTOR`. -/
def projectSlowFactor : Int := 4

/-- `_REQUIRED_CAPABILITIES`. -/
def requiredCapabilities : List (String × (HardwareProfile → Bool)) :=
  [("rdma_transfer_bench", (·.rdma)), ("gpu_direct_bench", (·.gpuDirect)),
    ("nvme_tier_bench", (·.nvme))]

def skipped (hardware : HardwareProfile) : List String :=
  let sorted := requiredCapabilities.mergeSort fun c c' => decide (c.1 ≤ c'.1)
  (sorted.filter fun c => !c.2 hardware).map (·.1)

/-- The percentiles of samples, of which there may be none. -/
def samplePercentiles (samples : List ℚ) : Except String (Percentiles ℚ) :=
  if samples.isEmpty then .ok ⟨0, 0, 0⟩ else percentiles samples

/-- The replay that the configuration asks for. -/
def simulate (records : List (TraceRecord α)) (cfg : RunConfig) :
    Except String (ReplayResult α ℚ) :=
  let plan := buildReplayPlan records
  let pool := poolBlocks cfg.target
  let policyName := if cfg.policy = "" then defaultPolicy cfg.target else cfg.policy
  match cfg.target with
  | .project =>
    simulateTieredReplay plan pool (pool * projectSlowFactor) policyName cfg.prefetch
  | .baseline => simulateReplay plan pool policyName

/-- `replay`, of the records that the trace holds. -/
def replay (records : List (TraceRecord α)) (env : Environment) (cfg : RunConfig) :
    Except ReplayError RunReport := do
  let result ← (simulate records cfg).mapError .valueError
  let (hitRate, reuseRate) := rates result.accessLog
  let commit ← if cfg.mooncakeCommit ≠ [] then .ok cfg.mooncakeCommit
    else ((readMooncakeLock env.lockPath env.lockText).map (·.commit)).mapError .lock
  return {
    config := cfg
    softwareVersions := softwareVersions env
    mooncakeCommit := commit
    throughputTokS := result.throughput
    ttftMs := ← (samplePercentiles result.ttftSamples).mapError .valueError
    e2eLatencyMs := ← (samplePercentiles result.e2eSamples).mapError .valueError
    cacheHitRate := hitRate
    reuseRate
    skipped := skipped cfg.hardware }

end BenchmarkFramework

end TieredKVCache.Bench
