import Mathlib.Algebra.BigOperators.Ring.List
import Mathlib.Algebra.Order.BigOperators.Group.Finset
import TieredKVCache.Storage.Cascade

/-!
# Room for blocks of one size

Where all blocks have one size, the configured tiers have room for a number of them. A storage that
has no room for one more block holds that many (`Good.roomFor_le`). So a write loses nothing as long
as the blocks after it are no more than there is room for (`write_keeps`).
-/

namespace TieredKVCache.Storage

open Lib

section

variable {D : Type} [DoubleArith D]

/-- The number of blocks of this size that the tiers have room for. -/
def roomFor (config : TierConfig D) (size : Nat) : Nat :=
  ∑ t ∈ {t ∈ {Tier.hbm, .dram, .nvme} | config.configured t = true},
    config.evictionThresholdOf t / size

variable {config : TierConfig D} {size : Nat} {t fast : Tier} {s : State} {key : BlockKey}
  {it : StoredBlock}

/-! ## Counting blocks -/

theorem usedBytes_eq (hgood : Good config s) (huniform : Uniform size s) (t : Tier) :
    s.usedBytes t = residentCount t s * size := by
  have hsizes : bytesOf (fun _ it => it.entry.tier = t) s.blocks =
      sumOver (fun _ it => if it.entry.tier = t then size else 0) s.blocks := by
    refine sumOver_congr (fun _ it => it.entry.tier = t) (fun _ _ h => if_neg h)
      (fun _ _ h => if_neg h) (fun k it hk ht => ?_) fun _ _ _ => Iff.rfl
    rw [if_pos ht, if_pos ht, hgood.inv.sized hk, huniform k it hk]
  rw [hgood.inv.used, hsizes, residentCount, sumOver, sumOver, ← List.sum_map_mul_right]
  simp only [ite_mul, one_mul, zero_mul]

theorem card_residents (hgood : Good config s) : (residents s).card =
    ∑ t ∈ {t ∈ {Tier.hbm, .dram, .nvme} | config.configured t = true}, residentCount t s := by
  have hcount : (residents s).card = sumOver (fun _ _ => 1) s.blocks := by
    rw [residents, List.toFinset_card_of_nodup s.blocks.keys_nodup, AList.keys, List.keys,
      List.length_map, sumOver, List.map_const', List.sum_replicate_nat, mul_one]
  rw [hcount]
  refine sumOver_fiberwise _ s.blocks (fun _ it => it.entry.tier) _ fun k it hk => ?_
  refine Finset.mem_filter.mpr ⟨?_, hgood.inv.placed hk⟩
  cases it.entry.tier <;> decide

/-- Without room for one more block, the storage is full. -/
theorem Good.roomFor_le (hgood : Good config s) (huniform : Uniform size s) (hsize : 0 < size)
    (hfast : config.fastestTierCache = some fast) (hfull : NoRoom config size fast s.usedBytes) :
    roomFor config size ≤ (residents s).card := by
  rw [card_residents hgood]
  refine Finset.sum_le_sum fun t ht => ?_
  have hconf : config.configured t = true := (Finset.mem_filter.mp ht).2
  have hlt := hfull t hconf (TierConfig.fastestTierCache_le hfast hconf)
  rw [usedBytes_eq hgood huniform, ← Nat.succ_mul] at hlt
  exact Nat.lt_succ_iff.mp ((Nat.div_lt_iff_lt_mul hsize).mpr hlt)

/-! ## Writes -/

/-- A write for whose blocks there is room loses none. -/
theorem write_keeps (hfits : FitsAll config size) (hgood : Good config s)
    (huniform : Uniform size s) (hsize : 0 < size)
    (hfast : config.fastestTierCache = some fast) {block : KVCacheBlock}
    (hblock : blockSizeBytes block = size)
    (hroom : (insert block.key (residents s)).card ≤ roomFor config size) (tenantId : UInt32) :
    Returns (write .lazy config block .hbm tenantId s) fun r =>
      residents r.2 = insert block.key (residents s) := by
  unfold write
  rw [show config.resolveConfiguredTier .hbm = some fast from hfast]
  have hconf := TierConfig.fastestTierCache_configured hfast
  apply (placeLocked_losesOne hfits hgood huniform hconf hblock tenantId).mono
  intro r ⟨hloses, _⟩
  by_cases hkey : block.key ∈ residents s
  · obtain ⟨it, hit⟩ := mem_residents.mp hkey
    have hplaced := hgood.inv.placed hit
    exact hloses.eq_of_room hplaced (TierConfig.fastestTierCache_le hfast hplaced)
      (hgood.room_left huniform hit)
  · have hnone : s.blocks.lookup block.key = none := by
      rw [AList.lookup_eq_none]
      exact fun hmem => hkey (List.mem_toFinset.mpr hmem)
    rw [removeLocked_of_none hnone] at hloses
    rcases hloses with hsame | ⟨lost, -, -, hfull⟩
    · exact hsame
    · have hle := hgood.roomFor_le huniform hsize hfast hfull
      rw [Finset.card_insert_of_notMem hkey] at hroom
      exact absurd (hroom.trans hle) (Nat.not_succ_le_self _)

end

end TieredKVCache.Storage
