import TieredKVCache.Core.Double
import TieredKVCache.Core.Types
import TieredKVCache.Lib.AssocSum

/-!
# Tiers and their configuration

`Tier`, `TierConfig` and the functions of `tiered_storage_manager.cpp` that only read the
configuration.
-/

namespace TieredKVCache.Storage

open Lib

/-! ## Tiers -/

inductive Tier where
  | hbm | dram | nvme
deriving DecidableEq, Repr

namespace Tier

/-- The underlying value, which grows from the fastest tier to the slowest. -/
def toNat : Tier → Nat
  | hbm => 0
  | dram => 1
  | nvme => 2

def name : Tier → String
  | hbm => "HBM"
  | dram => "DRAM"
  | nvme => "NVMe"

theorem toNat_lt (t : Tier) : t.toNat < 3 := by
  cases t <;> decide

theorem toNat_injective : Function.Injective toNat := by
  intro t u h
  cases t <;> cases u <;> simp_all [toNat]

end Tier

/-- `kTierOrder`. -/
def tierOrder : List Tier := [.hbm, .dram, .nvme]

/-! ## The configuration -/

structure TierConfig (D : Type) where
  hbmCapacityBytes : Option Nat
  dramCapacityBytes : Option Nat
  nvmeCapacityBytes : Option Nat
  highWaterRatio : D
  tenantWeights : AList fun _ : UInt32 => D := ∅

namespace TierConfig

section

variable {D : Type} (config : TierConfig D)

def capacityField : Tier → Option Nat
  | .hbm => config.hbmCapacityBytes
  | .dram => config.dramCapacityBytes
  | .nvme => config.nvmeCapacityBytes

def capacityOf (tier : Tier) : Nat := (config.capacityField tier).getD 0

/-- The lambda `configured` of `ResolveConfiguredTier`. -/
def configured (tier : Tier) : Bool := (config.capacityField tier).isSome

/-- The target itself, else the nearest faster configured tier, else the nearest slower
one. -/
def resolveConfiguredTier (target : Tier) : Option Tier :=
  if config.configured target then some target
  else
    match (tierOrder.take target.toNat).reverse.find? config.configured with
    | some tier => some tier
    | none => (tierOrder.drop (target.toNat + 1)).find? config.configured

/-- `fastest_tier_cache_`, which the constructor computes once. -/
def fastestTierCache : Option Tier := config.resolveConfiguredTier .hbm

def nextSlowerConfigured (tier : Tier) : Option Tier :=
  (tierOrder.drop (tier.toNat + 1)).find? config.configured

def quotaEnabledLocked : Bool := !config.tenantWeights.entries.isEmpty

/-! ## Which tiers are configured -/

variable {config}

theorem resolveConfiguredTier_configured {target t : Tier}
    (h : config.resolveConfiguredTier target = some t) : config.configured t = true := by
  unfold resolveConfiguredTier at h
  split at h
  next htarget =>
    cases h
    exact htarget
  next =>
    split at h
    next u hu =>
      cases h
      exact List.find?_some hu
    next => exact List.find?_some h

theorem resolveConfiguredTier_isSome {target t : Tier} (h : config.configured t = true) :
    (config.resolveConfiguredTier target).isSome = true := by
  cases ht : config.configured target
  · cases target <;> cases t <;>
      simp_all [resolveConfiguredTier, tierOrder, Tier.toNat] <;> split <;> simp_all
  · simp [resolveConfiguredTier, ht]

theorem fastestTierCache_configured {fast : Tier} (h : config.fastestTierCache = some fast) :
    config.configured fast = true :=
  resolveConfiguredTier_configured h

/-- The cached tier is the least configured one. -/
theorem fastestTierCache_le {fast t : Tier} (h : config.fastestTierCache = some fast)
    (ht : config.configured t = true) : fast.toNat ≤ t.toNat := by
  unfold fastestTierCache resolveConfiguredTier at h
  cases hh : config.configured .hbm <;> cases hd : config.configured .dram <;> cases t <;>
    cases fast <;> simp_all [tierOrder, Tier.toNat]

theorem exists_fastestTierCache {t : Tier} (ht : config.configured t = true) :
    ∃ fast, config.fastestTierCache = some fast :=
  Option.isSome_iff_exists.mp (resolveConfiguredTier_isSome ht)

theorem nextSlowerConfigured_configured {t u : Tier} (h : config.nextSlowerConfigured t = some u) :
    config.configured u = true :=
  List.find?_some h

theorem nextSlowerConfigured_lt {t u : Tier} (h : config.nextSlowerConfigured t = some u) :
    t.toNat < u.toNat := by
  have hmem := List.mem_of_find?_eq_some h
  cases t <;> cases u <;> simp_all [tierOrder, Tier.toNat]

/-- No configured tier lies between a tier and its next slower one. -/
theorem nextSlowerConfigured_le {t u v : Tier} (h : config.nextSlowerConfigured t = some u)
    (hv : config.configured v = true) (htv : t.toNat < v.toNat) : u.toNat ≤ v.toNat := by
  unfold nextSlowerConfigured at h
  cases hd : config.configured .dram <;> cases hn : config.configured .nvme <;> cases t <;>
    cases u <;> cases v <;> simp_all [tierOrder, Tier.toNat]

theorem nextSlowerConfigured_isSome {t v : Tier} (hv : config.configured v = true)
    (htv : t.toNat < v.toNat) : ∃ u, config.nextSlowerConfigured t = some u := by
  rw [← Option.isSome_iff_exists, nextSlowerConfigured, List.find?_isSome]
  refine ⟨v, ?_, hv⟩
  cases t <;> cases v <;> simp_all [tierOrder, Tier.toNat]

end

section

variable {D : Type} [DoubleArith D] (config : TierConfig D)

/-- `std::min(capacity, capacity * high_water_ratio)`, truncated. -/
def evictionThresholdOf (tier : Tier) : Nat :=
  let capacity : D := DoubleArith.ofSize (config.capacityOf tier)
  let highWater := capacity * config.highWaterRatio
  DoubleArith.toSize (if highWater < capacity then highWater else capacity)

def tenantShareOf (tenant : UInt32) (tier : Tier) : D :=
  let total := (inOrder config.tenantWeights).foldl (fun sum e => sum + e.2) 0
  if total ≤ 0 then 0
  else
    let weight := (config.tenantWeights.lookup tenant).getD 0
    DoubleArith.ofSize (config.capacityOf tier) * weight / total

end

/-! ## Exact arithmetic -/

/-- Read exactly, the threshold is the smaller of the capacity and the truncated high-water
mark. -/
theorem evictionThresholdOf_rat (config : TierConfig ℚ) (tier : Tier) :
    config.evictionThresholdOf tier =
      min (config.capacityOf tier) ⌊(config.capacityOf tier : ℚ) * config.highWaterRatio⌋₊ := by
  show ⌊(if _ < _ then _ else _ : ℚ)⌋.toNat = _
  rw [Int.floor_toNat]
  show ⌊(if (config.capacityOf tier : ℚ) * config.highWaterRatio < config.capacityOf tier then
    (config.capacityOf tier : ℚ) * config.highWaterRatio else config.capacityOf tier : ℚ)⌋₊ = _
  split
  next hlt =>
    refine (Nat.min_eq_right ?_).symm
    exact (Nat.floor_le_floor hlt.le).trans (Nat.floor_natCast _).le
  next hle =>
    rw [Nat.floor_natCast]
    exact (Nat.min_eq_left (Nat.le_floor (not_lt.mp hle))).symm

end TierConfig

end TieredKVCache.Storage
