import Mathlib.Algebra.BigOperators.Ring.Finset
import TieredKVCache.Storage.Room

/-!
# Room for blocks of several sizes

The sizes of the blocks are multiples of a unit and bounded by `most`. A block that moves down
leaves less than `most` bytes free in its tier, so that a tier is over its threshold only when no
faster one has room for a block of `most` bytes (`FilledAbove`). When the slowest tier is over its
threshold, the storage is thus full up to `most` less a unit in each of the other tiers; as long as
less is stored, capacity enforcement loses nothing (`EnforceSteps.residents_eq`), whichever victims
it picks.
-/

namespace TieredKVCache.Storage

open Lib Relation

section

variable {D : Type} [DoubleArith D] (config : TierConfig D) (unit most : Nat)

/-- The sizes of the blocks. -/
def SizedBy (s : State) : Prop :=
  ∀ key it, s.blocks.lookup key = some it →
    unit ∣ blockSizeBytes it.block ∧ blockSizeBytes it.block ≤ most

def storedBytes (blocks : AList fun _ : BlockKey => StoredBlock) : Nat :=
  bytesOf (fun _ _ => True) blocks

def configuredTiers : Finset Tier :=
  {t ∈ {Tier.hbm, .dram, .nvme} | config.configured t = true}

/-- With one block of `most` bytes more in each tier but one, the configured tiers are not yet all
over their thresholds. -/
def HasRoom (bytes : Nat) : Prop :=
  bytes + ((configuredTiers config).card - 1) * most <
    ∑ t ∈ configuredTiers config, unit * (config.evictionThresholdOf t / unit + 1)

/-- A tier is over its threshold only when no faster one has room. -/
def FilledAbove (s : State) : Prop :=
  ∀ v, config.evictionThresholdOf v < s.usedBytes v → ∀ t, config.configured t = true →
    t.toNat < v.toNat → config.evictionThresholdOf t < s.usedBytes t + most

/-- What capacity enforcement keeps while it loses nothing. -/
structure Roomy (s : State) : Prop where
  inv : RepInv config s
  sized : SizedBy unit most s
  filled : FilledAbove config most s
  room : HasRoom config unit most (storedBytes s.blocks)

end

section

variable {D : Type} {config : TierConfig D} {unit most : Nat} {t u v : Tier} {key : BlockKey}
  {it : StoredBlock} {s s' : State} {blocks : AList fun _ : BlockKey => StoredBlock}

/-! ## Sizes -/

omit D config in
theorem SizedBy.of_sub (h : SizedBy unit most s) (hsub : (contents s').Sub (contents s)) :
    SizedBy unit most s' := by
  intro k it hk
  have hcontents : contents s' k = some (it.block, it.entry.tenantId) := by
    rw [contents, hk, Option.map_some]
  obtain ⟨it', hk', heq⟩ := Option.map_eq_some_iff.mp (hsub hcontents)
  rw [← (Prod.mk.inj heq).1]
  exact h k it' hk'

theorem SizedBy.insert (h : SizedBy unit most s) (hblocks : s'.blocks = s.blocks.insert key it)
    (hunit : unit ∣ blockSizeBytes it.block) (hmost : blockSizeBytes it.block ≤ most) :
    SizedBy unit most s' := by
  intro k it' hk
  rw [hblocks] at hk
  rcases lookup_insert_eq_some.mp hk with ⟨-, rfl⟩ | ⟨-, hk⟩
  · exact ⟨hunit, hmost⟩
  · exact h k it' hk

theorem SizedBy.dvd_usedBytes (h : SizedBy unit most s) (hinv : RepInv config s) (t : Tier) :
    unit ∣ s.usedBytes t := by
  rw [hinv.used t]
  refine List.dvd_sum fun bytes hbytes => ?_
  obtain ⟨⟨k, it⟩, hentry, rfl⟩ := List.mem_map.mp hbytes
  dsimp only
  split
  · rw [hinv.sized (mem_entries_iff.mp hentry)]
    exact (h k it (mem_entries_iff.mp hentry)).1
  · exact dvd_zero unit

theorem mem_configuredTiers : t ∈ configuredTiers config ↔ config.configured t = true := by
  unfold configuredTiers
  cases t <;> simp

/-- What is stored is stored in the configured tiers. -/
theorem storedBytes_eq (hinv : RepInv config s) :
    storedBytes s.blocks = ∑ t ∈ configuredTiers config, s.usedBytes t := by
  have hsplit : storedBytes s.blocks = ∑ t ∈ configuredTiers config,
      sumOver (fun _ it => if it.entry.tier = t then it.entry.sizeBytes else 0) s.blocks := by
    unfold storedBytes bytesOf
    simp only [if_true]
    exact sumOver_fiberwise _ s.blocks (fun _ it => it.entry.tier) _ fun k it hk =>
      mem_configuredTiers.mpr (hinv.placed hk)
  rw [hsplit]
  exact Finset.sum_congr rfl fun t _ => (hinv.used t).symm

/-- What is stored, key by key. -/
theorem storedBytes_eq_sum (blocks : AList fun _ : BlockKey => StoredBlock) :
    storedBytes blocks = ∑ key ∈ blocks.keys.toFinset,
      ((blocks.lookup key).map fun it => it.entry.sizeBytes).getD 0 := by
  rw [List.sum_toFinset _ blocks.keys_nodup]
  unfold storedBytes bytesOf sumOver
  rw [AList.keys, List.keys, List.map_map]
  refine congrArg List.sum (List.map_congr_left fun e he => ?_)
  dsimp only
  rw [if_pos trivial, Function.comp_apply, mem_entries_iff.mp he, Option.map_some, Option.getD_some]

/-- A bound of what is stored, key by key. -/
theorem storedBytes_le {ids : Finset BlockKey} {size : BlockKey → Nat}
    (h : ∀ key it, blocks.lookup key = some it → key ∈ ids ∧ it.entry.sizeBytes ≤ size key) :
    storedBytes blocks ≤ ∑ key ∈ ids, size key := by
  have hstored {key : BlockKey} (hkey : key ∈ blocks.keys.toFinset) :
      ∃ it, blocks.lookup key = some it := by
    rw [List.mem_toFinset] at hkey
    exact Option.isSome_iff_exists.mp (AList.lookup_isSome.mpr hkey)
  rw [storedBytes_eq_sum]
  calc
    _ ≤ ∑ key ∈ blocks.keys.toFinset, size key := Finset.sum_le_sum fun key hkey => by
        obtain ⟨it, hit⟩ := hstored hkey
        rw [hit]
        exact (h key it hit).2
    _ ≤ ∑ key ∈ ids, size key := Finset.sum_le_sum_of_subset fun key hkey => by
        obtain ⟨it, hit⟩ := hstored hkey
        exact (h key it hit).1

/-- A part of the contents has no more bytes. -/
theorem storedBytes_le_of_sub (hinv : RepInv config s) (hinv' : RepInv config s')
    (hsub : (contents s').Sub (contents s)) : storedBytes s'.blocks ≤ storedBytes s.blocks := by
  rw [storedBytes_eq_sum s.blocks]
  refine storedBytes_le fun key it hit => ?_
  have hcontents : contents s' key = some (it.block, it.entry.tenantId) := by
    rw [contents, hit, Option.map_some]
  obtain ⟨it', hit', heq⟩ := Option.map_eq_some_iff.mp (hsub hcontents)
  have hblock : it'.block = it.block := (Prod.mk.inj heq).1
  refine ⟨mem_residents_of_lookup hit', ?_⟩
  rw [hit', hinv'.sized hit, ← hblock, ← hinv.sized hit']
  exact Nat.le_refl _

theorem HasRoom.mono [DoubleArith D] {bytes bytes' : Nat} (h : HasRoom config unit most bytes)
    (hle : bytes' ≤ bytes) : HasRoom config unit most bytes' :=
  Nat.lt_of_le_of_lt (Nat.add_le_add_right hle _) h

/-! ## The slowest tier -/

/-- The least multiple of the unit over a bound. -/
theorem unit_mul_le {bound bytes : Nat} (hlt : bound < bytes) (hunit : unit ∣ bytes) :
    unit * (bound / unit + 1) ≤ bytes := by
  obtain ⟨count, rfl⟩ := hunit
  exact Nat.mul_le_mul_left unit (Nat.div_lt_of_lt_mul hlt)

variable [DoubleArith D]

/-- With room, the slowest tier is not over its threshold. -/
theorem Roomy.slowest_within (h : Roomy config unit most s) (hmost : unit ∣ most)
    (hconf : config.configured v = true) (hslowest : config.nextSlowerConfigured v = none) :
    s.usedBytes v ≤ config.evictionThresholdOf v := by
  by_contra hover
  replace hover := Nat.lt_of_not_le hover
  have hfaster (t : Tier) (ht : config.configured t = true) (hne : t ≠ v) : t.toNat < v.toNat := by
    rcases Nat.lt_trichotomy t.toNat v.toNat with hlt | heq | hgt
    · exact hlt
    · exact absurd (Tier.toNat_injective heq) hne
    · have hsome := TierConfig.nextSlowerConfigured_isSome ht hgt
      rw [hslowest] at hsome
      obtain ⟨_, hnone⟩ := hsome
      cases hnone
  have hmem := mem_configuredTiers.mpr hconf
  have hsum : ∑ t ∈ configuredTiers config, unit * (config.evictionThresholdOf t / unit + 1) ≤
      ∑ t ∈ configuredTiers config, (s.usedBytes t + if t = v then 0 else most) := by
    refine Finset.sum_le_sum fun t ht => ?_
    have hdvd := h.sized.dvd_usedBytes h.inv t
    by_cases htv : t = v
    · subst htv
      rw [if_pos rfl]
      exact unit_mul_le hover hdvd
    · rw [if_neg htv]
      have ht := mem_configuredTiers.mp ht
      exact unit_mul_le (h.filled v hover t ht (hfaster t ht htv)) (Dvd.dvd.add hdvd hmost)
  have hrest : ∑ t ∈ configuredTiers config, (if t = v then 0 else most) =
      ((configuredTiers config).card - 1) * most := by
    rw [← Finset.sum_erase_add _ _ hmem, if_pos rfl, Nat.add_zero,
      Finset.sum_const_nat fun t ht => if_neg (Finset.ne_of_mem_erase ht),
      Finset.card_erase_of_mem hmem]
  rw [Finset.sum_add_distrib, hrest, ← storedBytes_eq h.inv] at hsum
  exact absurd h.room (Nat.not_lt_of_le hsum)

/-! ## Enforcement -/

/-- A block of `most` bytes fits every configured tier. -/
def FitsTiers (config : TierConfig D) (most : Nat) : Prop :=
  ∀ t, config.configured t = true → most ≤ config.capacityOf t

/-- An eviction fills the tier of its victim up. -/
theorem FilledAbove.demote (hinv : RepInv config s) (hinv' : RepInv config s')
    (h : FilledAbove config most s) (hover : config.evictionThresholdOf v < s.usedBytes v)
    {g : BlockKey} {itg it' : StoredBlock} (hg : s.blocks.lookup g = some itg)
    (htg : itg.entry.tier = v) (hmost : itg.entry.sizeBytes ≤ most)
    (hnext : config.nextSlowerConfigured v = some u) (hu : it'.entry.tier = u)
    (hblocks : s'.blocks = s.blocks.insert g it') : FilledAbove config most s' := by
  have hlt := TierConfig.nextSlowerConfigured_lt hnext
  have hused (t : Tier) : s.usedBytes t = (if itg.entry.tier = t then itg.entry.sizeBytes else 0) +
      bytesOf (fun _ it => it.entry.tier = t) (s.blocks.erase g) := by
    rw [hinv.used t, bytesOf_erase hg]
  have hused' (t : Tier) : s'.usedBytes t = (if it'.entry.tier = t then it'.entry.sizeBytes
      else 0) + bytesOf (fun _ it => it.entry.tier = t) (s.blocks.erase g) := by
    rw [hinv'.used t, hblocks, bytesOf_insert]
  -- Only the tier of the victim has fewer bytes than before, and it is still filled.
  have hkeeps (t : Tier) (ht : t ≠ v) : s.usedBytes t ≤ s'.usedBytes t := by
    rw [hused, hused', if_neg (htg.trans_ne (Ne.symm ht)), Nat.zero_add]
    exact Nat.le_add_left _ _
  have hfilled : config.evictionThresholdOf v < s'.usedBytes v + most := by
    have hle := hused v
    have hle' := hused' v
    rw [if_pos htg] at hle
    omega
  intro w hw t ht htw
  by_cases htv : t = v
  · rw [htv]
    exact hfilled
  · refine Nat.lt_of_lt_of_le ?_ (Nat.add_le_add_right (hkeeps t htv) most)
    by_cases hwu : w = u
    · -- The next tier is the one right below that of the victim.
      refine h v hover t ht ?_
      rcases Nat.lt_trichotomy t.toNat v.toNat with hlt' | heq | hgt
      · exact hlt'
      · exact absurd (Tier.toNat_injective heq) htv
      · have hle := TierConfig.nextSlowerConfigured_le hnext ht hgt
        rw [hwu] at htw
        omega
    · refine h w (Nat.lt_of_lt_of_le hw ?_) t ht htw
      rw [hused, hused', if_neg (hu.trans_ne (Ne.symm hwu)), Nat.zero_add]
      exact Nat.le_add_left _ _

/-- With room, a step of the enforcement loses nothing. -/
theorem Roomy.step (hfits : FitsTiers config most) (hmost : unit ∣ most)
    (h : Roomy config unit most s) (hstep : EnforceStep .lazy config v s s') :
    Roomy config unit most s' ∧ residents s' = residents s := by
  have hinv' := hstep.repInv h.inv
  have hsized' := h.sized.of_sub (hstep.contents_sub h.inv)
  cases hstep with
  | scan hover hfast hscan =>
    refine ⟨⟨hinv', hsized', ?_, ?_⟩, hscan.residents⟩
    · unfold FilledAbove
      rw [hscan.usedBytes]
      exact h.filled
    · rw [storedBytes, hscan.bytesOf_entry (p := fun _ => True)]
      exact h.room
  | @evict g itg s₁ hover hpick hg htg =>
    have hinv₁ := hpick.repInv h.inv
    have hkey := (hinv₁.keyed hg).2
    have hplaced : config.configured v = true := htg ▸ hinv₁.placed hg
    have hblocks : (evicted .lazy config v g itg s₁).blocks = _ := evicted_blocks hkey hplaced
    rw [hpick.blocks] at hg hblocks
    cases hnext : config.nextSlowerConfigured v with
    | none => exact absurd (h.slowest_within hmost hplaced hnext) (Nat.not_le_of_lt hover)
    | some slower =>
      have hsize : blockSizeBytes itg.block ≤ config.capacityOf slower :=
        (h.sized g itg hg).2.trans (hfits slower (TierConfig.nextSlowerConfigured_configured hnext))
      rw [hnext] at hblocks
      dsimp only at hblocks
      rw [if_pos hsize] at hblocks
      refine ⟨⟨hinv', hsized', ?_, ?_⟩, residents_replace hblocks (mem_residents_of_lookup hg)⟩
      · refine h.filled.demote h.inv hinv' hover hg htg ?_ hnext rfl hblocks
        rw [h.inv.sized hg]
        exact (h.sized g itg hg).2
      · have hbytes : bytesOf (fun _ _ => True)
            (s.blocks.insert g (demoted slower itg s₁.logicalClock)) =
            bytesOf (fun _ _ => True) s.blocks :=
          bytesOf_insert_of_iff hg Iff.rfl (h.inv.sized hg).symm
        rw [storedBytes, hblocks, hbytes]
        exact h.room

theorem Roomy.steps (hfits : FitsTiers config most) (hmost : unit ∣ most)
    (h : Roomy config unit most s) (hsteps : EnforceSteps .lazy config t s s') :
    Roomy config unit most s' ∧ residents s' = residents s := by
  refine hsteps.invariant
    (P := fun a => Roomy config unit most a ∧ residents a = residents s) ?_ ⟨h, rfl⟩
  intro v a b _ ⟨ha, hsame⟩ hstep
  obtain ⟨hb, hsame'⟩ := ha.step hfits hmost hstep
  exact ⟨hb, hsame'.trans hsame⟩

/-! ## The calls -/

/-- What a block of some size needs beside the other blocks. -/
def RoomBeside (config : TierConfig D) (unit most : Nat) (key : BlockKey) (size : Nat)
    (s : State) : Prop :=
  HasRoom config unit most (size + storedBytes (s.blocks.erase key))

/-- A block that enters the fastest tier of a good state. -/
theorem Good.roomy (hgood : Good config s) (hsized : SizedBy unit most s)
    (hfast : config.fastestTierCache = some t) (hinv' : RepInv config s')
    (hblocks : s'.blocks = s.blocks.insert key it) (ht : it.entry.tier = t)
    (hunit : unit ∣ it.entry.sizeBytes) (hmost : it.entry.sizeBytes ≤ most)
    (hroom : RoomBeside config unit most key it.entry.sizeBytes s) : Roomy config unit most s' := by
  have hsize : blockSizeBytes it.block = it.entry.sizeBytes :=
    (hinv'.sized (by rw [hblocks, AList.lookup_insert])).symm
  refine ⟨hinv', hsized.insert hblocks (hsize ▸ hunit) (hsize ▸ hmost), ?_, ?_⟩
  · intro v hv w hw hlt
    by_cases hvt : v = it.entry.tier
    · have hle := TierConfig.fastestTierCache_le hfast hw
      rw [hvt, ht] at hlt
      omega
    · exact absurd (hgood.within_of_insert hinv' hblocks v hvt) (Nat.not_le_of_lt hv)
  · rw [storedBytes, hblocks, bytesOf_insert, if_pos trivial]
    exact hroom

/-- A block that is stored has room beside the others. -/
theorem HasRoom.beside (hinv : RepInv config s)
    (hroom : HasRoom config unit most (storedBytes s.blocks)) (h : s.blocks.lookup key = some it) :
    RoomBeside config unit most key (blockSizeBytes it.block) s := by
  rw [storedBytes, bytesOf_erase h, if_pos trivial, hinv.sized h] at hroom
  exact hroom

theorem write_residents (hfits : FitsTiers config most) (hmost : unit ∣ most)
    (hgood : Good config s) (hsized : SizedBy unit most s)
    (hfast : config.fastestTierCache = some t) {block : KVCacheBlock}
    (hsmall : blockSizeBytes block ≤ config.evictionThresholdOf t)
    (hunit : unit ∣ blockSizeBytes block) (hle : blockSizeBytes block ≤ most)
    (hroom : RoomBeside config unit most block.key (blockSizeBytes block) s)
    (tenantId : UInt32) : Returns (write .lazy config block .hbm tenantId s) fun r =>
      residents r.2 = insert block.key (residents s) := by
  have hconf := TierConfig.fastestTierCache_configured hfast
  rw [write_eq (t := t) hfast]
  apply (placeLocked_returns .lazy hgood hconf block tenantId).mono
  intro r hplaced
  cases hplaced with
  | refused hlarge => exact absurd hlarge (Nat.not_lt_of_le hsmall)
  | placed _ hsteps _ =>
    have hblocks := admitLocked_blocks .lazy config block t tenantId s
    have hinv := admitLocked_repInv .lazy hgood.inv hconf block tenantId
    have hroomy := hgood.roomy hsized hfast hinv hblocks rfl hunit hle hroom
    exact (hroomy.steps hfits hmost hsteps).2.trans (residents_insert hblocks)

theorem read_keepsAll (hfits : FitsTiers config most) (hmost : unit ∣ most)
    (hgood : Good config s) (hsized : SizedBy unit most s)
    (hroom : HasRoom config unit most (storedBytes s.blocks)) (key : BlockKey) :
    Returns (read .lazy config key s) fun r => residents r.2 = residents s := by
  apply (read_returns .lazy hgood key).mono
  intro r ⟨hread, _⟩
  have hpromoted {it : StoredBlock} {fast : Tier} {s' : State}
      (h : s.blocks.lookup key = some it) (hfast : config.fastestTierCache = some fast)
      (hsteps : EnforceSteps .lazy config fast (promotedState .lazy config key it fast s) s') :
      residents s' = residents s := by
    have hblocks : (promotedState .lazy config key it fast s).blocks = _ :=
      promotedState_blocks hfast key it s
    obtain ⟨hunit, hle⟩ := hsized key it h
    have hbeside := hroom.beside hgood.inv h
    rw [← hgood.inv.sized h] at hunit hle hbeside
    have hroomy := hgood.roomy hsized hfast (promotedState_repInv .lazy hgood.inv h hfast) hblocks
      rfl hunit hle hbeside
    exact (hroomy.steps hfits hmost hsteps).2.trans
      (residents_replace hblocks (mem_residents_of_lookup h))
  cases hread with
  | miss h => rfl
  | hit h hfast => exact residents_replace rfl (mem_residents_of_lookup h)
  | stay h hfast hslow hsize => exact residents_replace rfl (mem_residents_of_lookup h)
  | promoted h hfast hslow hsize hsteps hgood' h' => exact hpromoted h hfast hsteps
  | lost h hfast hslow hsize hsteps hgood' h' => exact hpromoted h hfast hsteps

theorem Prefetched.keepsAll (hfits : FitsTiers config most) (hmost : unit ∣ most)
    (hfast : config.fastestTierCache = some t) {predicted : List BlockKey}
    (h : Prefetched .lazy config t predicted s s') (hgood : Good config s)
    (hsized : SizedBy unit most s) (hroom : HasRoom config unit most (storedBytes s.blocks)) :
    residents s' = residents s := by
  have hconf := TierConfig.fastestTierCache_configured hfast
  induction h with
  | nil => rfl
  | skip hskip hrest ih => exact ih hgood hsized hroom
  | @place key rest it s s₁ s' h hslow hsize hsteps hgood₁ hrest ih =>
    have hkey := (hgood.inv.keyed h).2
    have hblocks := admitLocked_blocks .lazy config it.block t it.entry.tenantId s
    have hinv := admitLocked_repInv .lazy hgood.inv hconf it.block it.entry.tenantId
    rw [hkey] at hblocks
    have hroomy := hgood.roomy hsized hfast hinv hblocks rfl (hsized key it h).1
      (hsized key it h).2 (hroom.beside hgood.inv h)
    obtain ⟨hroomy₁, hsame⟩ := hroomy.steps hfits hmost hsteps
    rw [ih hgood₁ hroomy₁.sized hroomy₁.room, hsame]
    exact residents_replace hblocks (mem_residents_of_lookup h)

/-! ## One size -/

/-- With blocks of one size, the room is a number of blocks. -/
theorem hasRoom_iff_le_roomFor {size count : Nat} (hsize : 0 < size)
    (hfast : config.fastestTierCache = some t) :
    HasRoom config size size (count * size) ↔ count ≤ roomFor config size := by
  have hmem := mem_configuredTiers.mpr (TierConfig.fastestTierCache_configured hfast)
  have hsum : ∑ t ∈ configuredTiers config, size * (config.evictionThresholdOf t / size + 1) =
      (roomFor config size + (configuredTiers config).card) * size := by
    rw [← Finset.mul_sum, Finset.sum_add_distrib, Finset.sum_const_nat fun _ _ => rfl,
      Nat.mul_one, Nat.mul_comm]
    rfl
  rw [HasRoom, hsum, ← Nat.add_mul, Nat.mul_lt_mul_right hsize]
  have hpos := Finset.card_pos.mpr ⟨t, hmem⟩
  omega

/-- A good state holds no more blocks than there is room for. -/
theorem Good.card_residents_le {size : Nat} (hgood : Good config s) (huniform : Uniform size s)
    (hsize : 0 < size) : (residents s).card ≤ roomFor config size := by
  rw [card_residents hgood]
  refine Finset.sum_le_sum fun t _ => (Nat.le_div_iff_mul_le hsize).mpr ?_
  rw [← usedBytes_eq hgood huniform]
  exact hgood.within t

end

end TieredKVCache.Storage
