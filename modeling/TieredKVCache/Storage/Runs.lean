import TieredKVCache.Storage.Ops

/-!
# Runs of a manager

`Moved` collects the outcomes of a public call, `runOps_returns` carries what every call
preserves along a run, together with the history of calls and replies. From a fresh
manager every run of public calls ends, keeps the representation invariant
(`runOps_repInv`) and leaves no tier over its threshold (`runOps_within`).
-/

namespace TieredKVCache.Storage

open Lib Relation

section

variable {D : Type} [DoubleArith D] {inval : Invalidation} {config : TierConfig D}

/-- The outcomes of a public call in a good state. -/
inductive Moved (inval : Invalidation) (config : TierConfig D) (s : State) :
    Op → Reply × State → Prop
  | write {block : KVCacheBlock} {target t : Tier} {tenantId : UInt32} {r : Status × State}
      (ht : config.resolveConfiguredTier target = some t)
      (hplaced : Placed inval config block t tenantId s r) :
      Moved inval config s (.write block target tenantId) (.status r.1, r.2)
  | read {key : BlockKey} {r : Result KVCacheBlock × State}
      (hread : ReadOutcome inval config key s r) :
      Moved inval config s (.read key) (.block r.1, r.2)
  | prefetch {predicted : List BlockKey} {fast : Tier} {s' : State}
      (hfast : config.fastestTierCache = some fast)
      (hkeys : Prefetched inval config fast predicted s s') :
      Moved inval config s (.prefetch predicted) (.status .success, s')
  | enforceCapacity (t : Tier) : Moved inval config s (.enforceCapacity t) (.status .success, s)
  | unconfigured {op : Op} (hnone : config.fastestTierCache = none)
      (hop : ∀ key, op ≠ .read key) :
      Moved inval config s op
        (.status (.make .invalidArgument "无任何已配置存储层"), s)

variable {s : State}

theorem write_returns (inval : Invalidation) (hgood : Good config s) (block : KVCacheBlock)
    (target : Tier) (tenantId : UInt32) :
    Returns (write inval config block target tenantId s) fun r =>
      Moved inval config s (.write block target tenantId) (.status r.1, r.2) ∧ Good config r.2 := by
  unfold write
  cases ht : config.resolveConfiguredTier target with
  | none =>
    refine returns_ok ⟨.unconfigured ?_ (by simp), hgood⟩
    cases hfast : config.fastestTierCache with
    | none => rfl
    | some fast =>
      have hconf := TierConfig.fastestTierCache_configured hfast
      have hsome : (config.resolveConfiguredTier target).isSome = true :=
        TierConfig.resolveConfiguredTier_isSome hconf
      rw [ht] at hsome
      cases hsome
  | some t =>
    have hconf := TierConfig.resolveConfiguredTier_configured ht
    apply (placeLocked_returns inval hgood hconf block tenantId).mono
    intro r hplaced
    refine ⟨.write ht hplaced, ?_⟩
    cases hplaced with
    | refused => exact hgood
    | placed hsize hsteps hgood' => exact hgood'

theorem prefetch_returns (inval : Invalidation) (hgood : Good config s)
    (predicted : List BlockKey) :
    Returns (prefetch inval config predicted s) fun r =>
      Moved inval config s (.prefetch predicted) (.status r.1, r.2) ∧ Good config r.2 := by
  unfold prefetch
  cases hfast : config.resolveConfiguredTier .hbm with
  | none => exact returns_ok ⟨.unconfigured hfast (by simp), hgood⟩
  | some fast =>
    have hconf := TierConfig.resolveConfiguredTier_configured hfast
    apply (prefetchKeys_returns hconf predicted hgood).mono
    intro ⟨status, s'⟩ ⟨hok, hkeys, hgood'⟩
    cases hok
    exact ⟨.prefetch hfast hkeys, hgood'⟩

/-- In a good state there is nothing to enforce. -/
theorem enforceCapacity_eq (hgood : Good config s) (t : Tier) :
    enforceCapacity inval config t s = .ok (.success, s) :=
  enforceCapacityLocked_of_le (hgood.within t)

theorem runOp_enforceCapacity (hgood : Good config s) (t : Tier) :
    runOp inval config (.enforceCapacity t) s = .ok (.status .success, s) := by
  simp only [runOp, enforceCapacity_eq hgood]
  rfl

theorem runOp_returns (hgood : Good config s) (op : Op) :
    Returns (runOp inval config op s) fun r => Moved inval config s op r ∧ Good config r.2 := by
  cases op with
  | write block target tenantId =>
    exact (write_returns inval hgood block target tenantId).bind fun r h => returns_ok h
  | read key =>
    apply (read_returns inval hgood key).bind
    intro r ⟨hread, hgood'⟩
    exact returns_ok ⟨.read hread, hgood'⟩
  | prefetch predicted =>
    exact (prefetch_returns inval hgood predicted).bind fun r h => returns_ok h
  | enforceCapacity t =>
    refine ⟨(.status .success, s), ?_, .enforceCapacity t, hgood⟩
    simp only [runOp, enforceCapacity_eq hgood]
    rfl

/-- What every call preserves holds after a run; the property may speak of the history. -/
theorem runOps_returns {P : List (Op × Reply) → State → Prop}
    (hstep : ∀ history s op, P history s →
      Returns (runOp inval config op s) fun r => P (history ++ [(op, r.1)]) r.2)
    (ops : List Op) (history : List (Op × Reply)) (hs : P history s) :
    Returns (runOps inval config ops s) fun r => P (history ++ ops.zip r.1) r.2 := by
  induction ops generalizing history s with
  | nil =>
    apply returns_ok
    simpa using hs
  | cons op ops ih =>
    apply (hstep history s op hs).bind
    intro ⟨reply, s₁⟩ hs₁
    apply (ih _ hs₁).bind
    intro ⟨replies, s'⟩ hs'
    apply returns_ok
    simpa using hs'

theorem runOps_good (ops : List Op) (hgood : Good config s) :
    Returns (runOps inval config ops s) fun r => Good config r.2 :=
  runOps_returns (P := fun _ s => Good config s)
    (fun _ _ op hgood => (runOp_returns hgood op).mono fun _ h => h.2) ops [] hgood

end

/-- **The representation invariant.** Every sequence of public calls on a fresh manager
runs to its end, and in the state it reaches every mirrored structure is exact. -/
theorem runOps_repInv {D : Type} [DoubleArith D] (config : TierConfig D) (ops : List Op) :
    Returns (runOps .lazy config ops State.fresh) fun r => RepInv config r.2 :=
  (runOps_good ops (good_fresh config)).mono fun _ hgood => hgood.inv

/-- **Capacity.** After every sequence of public calls each tier is within its threshold,
which is the smaller of its capacity and the truncated high-water mark; so enforcing the
capacity of any tier succeeds and changes nothing. -/
theorem runOps_within (config : TierConfig ℚ) (ops : List Op) :
    Returns (runOps .lazy config ops State.fresh) fun r => ∀ t,
      r.2.usedBytes t ≤ config.evictionThresholdOf t ∧
      config.evictionThresholdOf t =
        min (config.capacityOf t) ⌊(config.capacityOf t : ℚ) * config.highWaterRatio⌋₊ ∧
      config.evictionThresholdOf t ≤ config.capacityOf t ∧
      enforceCapacity .lazy config t r.2 = .ok (.success, r.2) := by
  apply (runOps_good ops (good_fresh config)).mono
  intro r hgood t
  refine ⟨hgood.within t, config.evictionThresholdOf_rat t, ?_, ?_⟩
  · rw [config.evictionThresholdOf_rat t]
    exact Nat.min_le_left _ _
  · exact enforceCapacity_eq hgood t

/-! ## Inputs of small runs -/

/-- Configured capacities without a high-water mark and without tenant weights. -/
def plainConfig (hbm dram nvme : Option Nat) : TierConfig ℚ where
  hbmCapacityBytes := hbm
  dramCapacityBytes := dram
  nvmeCapacityBytes := nvme
  highWaterRatio := 1

def oneTier : TierConfig ℚ := plainConfig (some 10) none none

def plainKey (hashId : UInt64) : BlockKey := { hashId }

/-- A block of zeros with all its bytes in `kPayload`. -/
def plainBlock (hashId : UInt64) (size : Nat) : KVCacheBlock where
  key := plainKey hashId
  kPayload := List.replicate size 0

end TieredKVCache.Storage
