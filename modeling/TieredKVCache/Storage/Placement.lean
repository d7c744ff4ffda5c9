import TieredKVCache.Storage.Fate

/-!
# Where writes, reads and prefetches leave a block

The fate of a placed block, read off the state before the call. `placeLeft` and
`promoteLeft` are the bytes that are left in the fastest tier at the turn of the block; the
call leaves it there exactly if they fit the threshold. The new block itself can thus be
evicted by the call that places it, and a promoted one can be lost.
-/

namespace TieredKVCache.Storage

open Lib Relation

/-! ## The state before the call -/

section

variable {D : Type} (config : TierConfig D) (fast : Tier)

/-- The bytes left at the turn of a block that a read promotes. -/
def promoteLeft (key : BlockKey) (size : Nat) (s : State) : Nat :=
  size + restMainAt config fast key s

/-- The bytes left at the turn of a block that is placed in the fastest tier. -/
def placeLeft (block : KVCacheBlock) (s : State) : Nat :=
  if Reused block.key s then promoteLeft config fast block.key (blockSizeBytes block) s
  else restSmallAt config fast block.key (blockSizeBytes block) s

end

section

variable {D : Type} {config : TierConfig D} {fast : Tier} {x key : BlockKey} {itx it : StoredBlock}
  {block : KVCacheBlock} {tenantId : UInt32} {s : State}

/-- Joining its queue does not change what is left at the turn of a block. -/
theorem turnBytes_enqueue (small main : List BlockKey)
    (blocks : AList fun _ : BlockKey => StoredBlock) :
    turnBytes config fast x itx (if itx.s3InMain = true then small else small ++ [x])
        (if itx.s3InMain = true then main ++ [x] else main) blocks =
      turnBytes config fast x itx small main blocks := by
  unfold turnBytes
  cases hin : itx.s3InMain with
  | true =>
    simp only [if_true]
    congr 1
    refine bytesOf_congr fun k it _ => and_congr_right fun _ => not_congr ?_
    exact SpentBefore.congr (fun _ => by rw [before_append_self])
      fun _ => by rw [before_append_self]
  | false =>
    simp only [Bool.false_eq_true, if_false]
    refine restSmall_congr ?_ fun _ => ?_
    · exact bytesOf_congr fun z it _ => by rw [before_append_self]
    · exact bytesOf_congr fun k it _ => by rw [before_append_self]

theorem turnBytesAt_admitLocked (hfast : config.fastestTierCache = some fast)
    (hinv : RepInv config s) (block : KVCacheBlock) (tenantId : UInt32) :
    turnBytesAt config fast block.key (admitted config block fast tenantId s)
        (admitLocked .lazy config block fast tenantId s) =
      placeLeft config fast block s := by
  have hin := admitted_inMain_iff hfast hinv block tenantId
  unfold turnBytesAt
  rw [admitLocked_blocks, erase_insert, admitLocked_eq]
  rw [(enter_queues hfast).1, (enter_queues hfast).2]
  simp only [removeLocked_s3SmallFifo_lazy, removeLocked_s3MainFifo_lazy]
  apply (turnBytes_enqueue _ _ _).trans
  unfold turnBytes placeLeft
  simp only [hin]
  rfl

theorem usedBytes_le_add [DoubleArith D] {s' : State} {t : Tier} (hgood : Good config s)
    (hinv' : RepInv config s') (hblocks : s'.blocks = s.blocks.insert key it)
    (ht : it.entry.tier = t) :
    s'.usedBytes t ≤ config.evictionThresholdOf t + it.entry.sizeBytes := by
  have hold := hgood.within t
  have hle := bytesOf_erase_le (fun _ it => it.entry.tier = t) s.blocks key
  rw [hgood.inv.used t] at hold
  rw [hinv'.used t, hblocks, bytesOf_insert, if_pos ht]
  omega

/-- A block that is placed in the fastest tier waits there for its turn. -/
theorem admitLocked_waiting [DoubleArith D] (hfast : config.fastestTierCache = some fast)
    (hgood : Good config s) (block : KVCacheBlock) (tenantId : UInt32) :
    Waiting config block.key block fast (placeLeft config fast block s)
      (admitLocked .lazy config block fast tenantId s) := by
  have hinv := admitLocked_repInv .lazy hgood.inv (TierConfig.fastestTierCache_configured hfast)
    block tenantId
  have hblocks := admitLocked_blocks .lazy config block fast tenantId s
  refine ⟨admitted config block fast tenantId s, ?_, rfl, rfl, rfl,
    turnBytesAt_admitLocked hfast hgood.inv block tenantId,
    usedBytes_le_add hgood hinv hblocks rfl⟩
  rw [hblocks, AList.lookup_insert]

/-- A block that a read promotes waits for its turn in the main queue. -/
theorem promotedState_waiting [DoubleArith D] (hfast : config.fastestTierCache = some fast)
    (hgood : Good config s) (h : s.blocks.lookup key = some it) :
    Waiting config key it.block fast (promoteLeft config fast key (blockSizeBytes it.block) s)
      (promotedState .lazy config key it fast s) := by
  have hinv := promotedState_repInv .lazy hgood.inv h hfast
  have hblocks : (promotedState .lazy config key it fast s).blocks = _ :=
    promotedState_blocks hfast key it s
  refine ⟨promoted key fast (touched it s.logicalClock), ?_, rfl, rfl, rfl, ?_,
    usedBytes_le_add hgood hinv hblocks rfl⟩
  · rw [hblocks, AList.lookup_insert]
  · unfold turnBytesAt
    rw [hblocks, erase_insert, promotedState, promoteLocked_eq hfast]
    rw [(enter_queues hfast).1, (enter_queues hfast).2]
    simp only [removeLocked_s3SmallFifo_lazy, removeLocked_s3MainFifo_lazy]
    apply (turnBytes_enqueue _ _ _).trans
    unfold promoteLeft
    rw [← hgood.inv.sized h]
    exact if_pos rfl

/-- A block that is placed in a slower tier settles there as the newest one. -/
theorem admitLocked_settling [DoubleArith D] {t : Tier} (ht : config.configured t = true)
    (hslow : config.fastestTierCache ≠ some t) (hgood : Good config s) (block : KVCacheBlock)
    (tenantId : UInt32) :
    Settling config block.key block t (admitLocked .lazy config block t tenantId s) := by
  have hinv := admitLocked_repInv .lazy hgood.inv ht block tenantId
  have hblocks := admitLocked_blocks .lazy config block t tenantId s
  refine ⟨⟨admitted config block t tenantId s, ?_, rfl, rfl, ?_⟩, ?_, hslow⟩
  · rw [hblocks, AList.lookup_insert]
  · intro k it' hk _
    apply (hinv.stampLe hk).trans
    rw [admitLocked_eq]
    exact Nat.le_refl _
  · intro u hu
    refine hgood.within_of_insert hinv hblocks u fun heq => ?_
    change u = t at heq
    rw [heq] at hu
    omega

end

/-! ## Writing -/

section

variable {D : Type} [DoubleArith D] {config : TierConfig D} {s : State}

/-- Where a key is, with its block. -/
def Holds (key : BlockKey) (t : Tier) (block : KVCacheBlock) (s : State) : Prop :=
  locate key s = ⟨true, t, key⟩ ∧ (s.blocks.lookup key).map StoredBlock.block = some block

theorem holds_iff {key : BlockKey} {t : Tier} {block : KVCacheBlock} :
    Holds key t block s ↔
      ∃ it, s.blocks.lookup key = some it ∧ it.entry.tier = t ∧ it.block = block := by
  unfold Holds locate
  cases h : s.blocks.lookup key with
  | none => simp
  | some it => simp

/-- A write that returns `Ok` into a tier with room leaves its block there. -/
def WriteLands (config : TierConfig D) (block : KVCacheBlock) (target : Tier) (tenantId : UInt32)
    (s : State) : Prop :=
  ∀ t status s', config.resolveConfiguredTier target = some t →
    s.usedBytes t < config.evictionThresholdOf t →
    write .lazy config block target tenantId s = .ok (status, s') → status.isOk = true →
    Holds block.key t block s'

/-- A block that fits the fastest tier, and is written there while it has room, has room at
its turn as well. -/
def WriteFits (config : TierConfig D) (block : KVCacheBlock) (target : Tier) (s : State) : Prop :=
  ∀ t, config.resolveConfiguredTier target = some t →
    s.usedBytes t < config.evictionThresholdOf t →
    blockSizeBytes block ≤ config.evictionThresholdOf t →
    config.fastestTierCache = some t → placeLeft config t block s ≤ config.evictionThresholdOf t

theorem write_eq {target t : Tier} (ht : config.resolveConfiguredTier target = some t)
    (block : KVCacheBlock) (tenantId : UInt32) :
    write .lazy config block target tenantId s =
      placeLocked .lazy config block t tenantId s := by
  rw [write, ht]

theorem writeLands_iff (hq : config.quotaEnabledLocked = false) (hgood : Good config s)
    (block : KVCacheBlock) (target : Tier) (tenantId : UInt32) :
    WriteLands config block target tenantId s ↔ WriteFits config block target s := by
  constructor
  · intro hlands t ht hroom hsize hfast
    have hconf := TierConfig.resolveConfiguredTier_configured ht
    obtain ⟨⟨status, s'⟩, hplace, hplaced⟩ :=
      placeLocked_returns .lazy hgood hconf block tenantId
    cases hplaced with
    | refused hrefused => omega
    | placed _ hsteps hgood' =>
      have hholds := hlands t _ _ ht hroom ((write_eq ht block tenantId).trans hplace) rfl
      obtain ⟨it, hk, htier, _⟩ := holds_iff.mp hholds
      rcases (admitLocked_waiting hfast hgood block tenantId).fate hfast hq
          (admitLocked_repInv .lazy hgood.inv hconf block tenantId) hsteps hgood' with
        ⟨hle, _⟩ | ⟨_, _, it', hk', htier', _⟩ | ⟨_, _, hnone⟩
      · exact hle
      · cases hk.symm.trans hk'
        exact absurd htier htier'
      · cases hk.symm.trans hnone
  · intro hfits t status s' ht hroom hwrite hok
    have hconf := TierConfig.resolveConfiguredTier_configured ht
    rw [write_eq ht] at hwrite
    have hplaced := (placeLocked_returns .lazy hgood hconf block tenantId).of_eq hwrite
    cases hplaced with
    | refused => cases hok
    | placed hsize hsteps hgood' =>
      have hinv := admitLocked_repInv .lazy hgood.inv hconf block tenantId
      apply holds_iff.mpr
      by_cases hfast : config.fastestTierCache = some t
      · rcases (admitLocked_waiting hfast hgood block tenantId).fate hfast hq hinv hsteps
            hgood' with ⟨_, hstay⟩ | ⟨hover, _⟩ | ⟨hover, _⟩
        · exact hstay
        · exact absurd (hfits t ht hroom hsize hfast) (Nat.not_le_of_lt hover)
        · exact absurd (hfits t ht hroom hsize hfast) (Nat.not_le_of_lt hover)
      · obtain ⟨it, hk, htier, hblock, _⟩ :=
          ((admitLocked_settling hconf hfast hgood block tenantId).steps hq hinv hsize
            hsteps).resident
        exact ⟨it, hk, htier, hblock⟩

/-- **Threshold-respecting placement.** Without tenant weights, in every state a run
reaches: a write that returns `Ok` into a tier with room leaves its block there exactly if
the tier is not the fastest one or what is left at the turn of the block fits. -/
theorem runOps_writeLands_iff (config : TierConfig D) (hq : config.quotaEnabledLocked = false)
    (ops : List Op) :
    Returns (runOps .lazy config ops State.fresh) fun r => ∀ block target tenantId,
      WriteLands config block target tenantId r.2 ↔ WriteFits config block target r.2 :=
  (runOps_good ops (good_fresh config)).mono fun _ hgood => writeLands_iff hq hgood

end

def rereadOps : List Op := [.write (plainBlock 1 4) .hbm 0, .read (plainKey 1)]

theorem runOps_writeLands_iff_oneTier :
    Returns (runOps .lazy oneTier rereadOps State.fresh) fun r => ∀ block target tenantId,
      WriteLands oneTier block target tenantId r.2 ↔ WriteFits oneTier block target r.2 :=
  runOps_writeLands_iff oneTier (by decide) rereadOps

/-- The block that was read moves on to the main queue, and the one just written is next in
the small queue: the write evicts its own block. -/
theorem oneTier_write_evicts_its_block :
    Returns (runOps .lazy oneTier rereadOps State.fresh) fun r =>
      ¬ WriteLands oneTier (plainBlock 2 7) .hbm 0 r.2 := by
  refine returns_of_toOption (b := (4, Status.success, none))
    (f := fun r => (write .lazy oneTier (plainBlock 2 7) .hbm 0 r.2).toOption.map fun w =>
      (r.2.usedBytes .hbm, w.1, w.2.blocks.lookup (plainKey 2))) (by decide +kernel) ?_
  intro r hr hlands
  obtain ⟨⟨status, s'⟩, hwrite, hw⟩ := Option.map_eq_some_iff.mp hr
  simp only [Prod.mk.injEq] at hw
  obtain ⟨hused, rfl, hgone⟩ := hw
  have hroom : r.2.usedBytes .hbm < oneTier.evictionThresholdOf .hbm := by
    rw [hused]
    decide +kernel
  obtain ⟨it, hk, _⟩ := holds_iff.mp (hlands .hbm .success s' rfl hroom
    (eq_ok_of_toOption hwrite) rfl)
  cases hk.symm.trans hgone

/-! ## Promotion -/

section

variable {D : Type} [DoubleArith D] {config : TierConfig D} {s : State}

/-- After a prefetch of the key that returns `Ok`, and after a read of it that does, the
key is in the fastest tier with its block. -/
def PromotionLands (config : TierConfig D) (fast : Tier) (key : BlockKey) (block : KVCacheBlock)
    (s : State) : Prop :=
  (∀ status s', prefetch .lazy config [key] s = .ok (status, s') → status.isOk = true →
    Holds key fast block s') ∧
  ∀ b s', read .lazy config key s = .ok (.ok b, s') → Holds key fast block s'

theorem promotionLands_iff {key : BlockKey} {it : StoredBlock} {fast : Tier}
    (hq : config.quotaEnabledLocked = false) (hgood : Good config s)
    (h : s.blocks.lookup key = some it) (hfast : config.fastestTierCache = some fast)
    (hslow : it.entry.tier ≠ fast)
    (hsize : blockSizeBytes it.block ≤ config.evictionThresholdOf fast) :
    PromotionLands config fast key it.block s ↔
      promoteLeft config fast key (blockSizeBytes it.block) s ≤
        config.evictionThresholdOf fast := by
  have hconf := TierConfig.fastestTierCache_configured hfast
  have hkey := (hgood.inv.keyed h).2
  have hreused : Reused it.block.key s := .inr (by rw [hkey, h]; rfl)
  have hleft : placeLeft config fast it.block s =
      promoteLeft config fast key (blockSizeBytes it.block) s := by
    rw [placeLeft, if_pos hreused, hkey]
  -- A prefetch of the key alone places its block.
  have hprefetch (status : Status) (s' : State)
      (hcall : prefetch .lazy config [key] s = .ok (status, s')) :
      EnforceSteps .lazy config fast
        (admitLocked .lazy config it.block fast it.entry.tenantId s) s' ∧ Good config s' := by
    obtain ⟨hmoved, hgood'⟩ := (prefetch_returns .lazy hgood [key]).of_eq hcall
    cases hmoved with
    | unconfigured hnone => cases hfast.symm.trans hnone
    | prefetch hfast' hkeys =>
      cases hfast.symm.trans hfast'
      cases hkeys with
      | skip hskip _ => exact absurd (hskip it h hslow) (Nat.not_lt_of_le hsize)
      | place h' _ _ hsteps _ hrest =>
        cases h.symm.trans h'
        cases hrest
        exact ⟨hsteps, hgood'⟩
  have hfate (s' : State) (hsteps : EnforceSteps .lazy config fast
      (admitLocked .lazy config it.block fast it.entry.tenantId s) s') (hgood' : Good config s') :=
    (hleft ▸ hkey ▸ admitLocked_waiting hfast hgood it.block it.entry.tenantId :
      Waiting config key it.block fast _ _).fate hfast hq
      (admitLocked_repInv .lazy hgood.inv hconf it.block it.entry.tenantId) hsteps hgood'
  constructor
  · intro hlands
    obtain ⟨⟨status, s'⟩, hcall, hmoved, _⟩ := prefetch_returns .lazy hgood [key]
    have hok : status.isOk = true := by
      cases hmoved with
      | unconfigured hnone => cases hfast.symm.trans hnone
      | prefetch => rfl
    obtain ⟨it', hk', htier', _⟩ := holds_iff.mp (hlands.1 status s' hcall hok)
    obtain ⟨hsteps, hgood'⟩ := hprefetch status s' hcall
    rcases hfate s' hsteps hgood' with ⟨hle, _⟩ | ⟨_, _, it₁, hk₁, htier₁, _⟩ | ⟨_, _, hnone⟩
    · exact hle
    · cases hk'.symm.trans hk₁
      exact absurd htier' htier₁
    · cases hk'.symm.trans hnone
  · intro hle
    constructor
    · intro status s' hcall _
      obtain ⟨hsteps, hgood'⟩ := hprefetch status s' hcall
      rcases hfate s' hsteps hgood' with ⟨_, hstay⟩ | ⟨hover, _⟩ | ⟨hover, _⟩
      · exact holds_iff.mpr hstay
      · exact absurd hle (Nat.not_le_of_lt hover)
      · exact absurd hle (Nat.not_le_of_lt hover)
    · intro b s' hcall
      obtain ⟨hread, _⟩ := (read_returns .lazy hgood key).of_eq hcall
      cases hread with
      | hit h' hfast' =>
        cases h.symm.trans h'
        exact absurd (Option.some.inj (hfast'.symm.trans hfast)) hslow
      | stay h' hfast' _ hsize' =>
        cases h.symm.trans h'
        cases hfast.symm.trans hfast'
        rw [hgood.inv.sized h] at hsize'
        omega
      | promoted h' hfast' _ _ hsteps hgood' _ =>
        cases h.symm.trans h'
        cases hfast.symm.trans hfast'
        rcases (promotedState_waiting hfast hgood h).fate hfast hq
            (promotedState_repInv .lazy hgood.inv h hfast) hsteps hgood' with
          ⟨_, hstay⟩ | ⟨hover, _⟩ | ⟨hover, _⟩
        · exact holds_iff.mpr hstay
        · exact absurd hle (Nat.not_le_of_lt hover)
        · exact absurd hle (Nat.not_le_of_lt hover)

/-- **Promotion.** Without tenant weights, in every state a run reaches: a block of a slower
tier that fits the fastest one is there after a successful prefetch or read of its key
exactly if what is left at its turn fits. -/
theorem runOps_promotionLands_iff (config : TierConfig D)
    (hq : config.quotaEnabledLocked = false) (ops : List Op) :
    Returns (runOps .lazy config ops State.fresh) fun r => ∀ key it fast,
      r.2.blocks.lookup key = some it → config.fastestTierCache = some fast →
      it.entry.tier ≠ fast → blockSizeBytes it.block ≤ config.evictionThresholdOf fast →
      (PromotionLands config fast key it.block r.2 ↔
        promoteLeft config fast key (blockSizeBytes it.block) r.2 ≤
          config.evictionThresholdOf fast) :=
  (runOps_good ops (good_fresh config)).mono fun _ hgood _ _ _ h hfast hslow hsize =>
    promotionLands_iff hq hgood h hfast hslow hsize

end

def twoTiers : TierConfig ℚ := plainConfig (some 10) (some 100) none

def slowWriteOps : List Op :=
  [.write (plainBlock 1 6) .hbm 0, .read (plainKey 1), .write (plainBlock 2 5) .dram 0]

theorem slowWriteOps_resident {r : List Reply × State}
    (hr : runOps .lazy twoTiers slowWriteOps State.fresh = .ok r) :
    ∃ it, r.2.blocks.lookup (plainKey 2) = some it ∧ it.entry.tier = .dram ∧
      blockSizeBytes it.block = 5 := by
  have hrun : Returns (runOps .lazy twoTiers slowWriteOps State.fresh) fun r =>
      (r.2.blocks.lookup (plainKey 2)).map (fun it => (it.entry.tier, blockSizeBytes it.block)) =
        some (.dram, 5) :=
    returns_of_toOption (f := fun r => (r.2.blocks.lookup (plainKey 2)).map fun it =>
      (it.entry.tier, blockSizeBytes it.block)) (by decide +kernel) fun _ h => h
  obtain ⟨it, hk, hit⟩ := Option.map_eq_some_iff.mp (hrun.of_eq hr)
  exact ⟨it, hk, (Prod.mk.inj hit).1, (Prod.mk.inj hit).2⟩

theorem runOps_promotionLands_iff_twoTiers :
    Returns (runOps .lazy twoTiers slowWriteOps State.fresh) fun r => ∃ it,
      r.2.blocks.lookup (plainKey 2) = some it ∧
        (PromotionLands twoTiers .hbm (plainKey 2) it.block r.2 ↔
          promoteLeft twoTiers .hbm (plainKey 2) (blockSizeBytes it.block) r.2 ≤
            twoTiers.evictionThresholdOf .hbm) := by
  obtain ⟨r, hr, hlands⟩ := runOps_promotionLands_iff twoTiers (by decide) slowWriteOps
  obtain ⟨it, hk, htier, hsize⟩ := slowWriteOps_resident hr
  refine ⟨r, hr, it, hk, hlands (plainKey 2) it .hbm hk rfl ?_ ?_⟩
  · rw [htier]
    decide
  · rw [hsize]
    decide +kernel

/-- A prefetch that returns `Ok` and leaves its block where it was: the block that was read
has a second chance, and the promoted one is next in the main queue. -/
theorem twoTiers_prefetch_demotes_its_block :
    Returns (runOps .lazy twoTiers slowWriteOps State.fresh) fun r => ∃ it,
      r.2.blocks.lookup (plainKey 2) = some it ∧ it.entry.tier ≠ .hbm ∧
        blockSizeBytes it.block ≤ twoTiers.evictionThresholdOf .hbm ∧
        ¬ PromotionLands twoTiers .hbm (plainKey 2) it.block r.2 := by
  have hrun : Returns (runOps .lazy twoTiers slowWriteOps State.fresh) fun r =>
      Returns (prefetch .lazy twoTiers [plainKey 2] r.2) fun w =>
        w.1 = .success ∧ locate (plainKey 2) w.2 = ⟨true, .dram, plainKey 2⟩ := by
    refine returns_of_toOption (b := (.success, ⟨true, .dram, plainKey 2⟩))
      (f := fun r => (prefetch .lazy twoTiers [plainKey 2] r.2).toOption.map fun w =>
        (w.1, locate (plainKey 2) w.2)) (by decide +kernel) ?_
    intro r hr
    obtain ⟨w, hcall, hw⟩ := Option.map_eq_some_iff.mp hr
    exact ⟨w, eq_ok_of_toOption hcall, (Prod.mk.inj hw).1, (Prod.mk.inj hw).2⟩
  obtain ⟨r, hr, ⟨status, s'⟩, hcall, hok, hwhere⟩ := hrun
  obtain ⟨it, hk, htier, hsize⟩ := slowWriteOps_resident hr
  refine ⟨r, hr, it, hk, ?_, ?_, ?_⟩
  · rw [htier]
    decide
  · rw [hsize]
    decide +kernel
  · intro hlands
    cases hok
    have hholds := (hlands.1 .success s' hcall rfl).1
    rw [hwhere] at hholds
    cases hholds

end TieredKVCache.Storage
