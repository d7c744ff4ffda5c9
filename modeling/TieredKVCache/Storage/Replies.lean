import TieredKVCache.Storage.Rounds

/-!
# What the calls reply

A write is accepted by the size of its block alone (`Accepts`), whatever the manager holds, and a
call that is refused leaves the state as it is. Every iteration of `EnforceCapacityLocked` over the
threshold has a victim, so that the branch without one is never taken (`roundsOps_chooseVictim`).
-/

namespace TieredKVCache.Storage

open Lib

theorem resolveConfiguredTier_isSome_iff {D : Type} {config : TierConfig D} (target : Tier) :
    (∃ t, config.resolveConfiguredTier target = some t) ↔ ∃ u, config.configured u = true := by
  constructor
  · rintro ⟨t, ht⟩
    exact ⟨t, TierConfig.resolveConfiguredTier_configured ht⟩
  · rintro ⟨u, hu⟩
    exact Option.isSome_iff_exists.mp (TierConfig.resolveConfiguredTier_isSome hu)

section

variable {D : Type} [DoubleArith D] {inval : Invalidation} {config : TierConfig D} {s : State}

/-- A tier is found for the target, and the block is within its threshold. -/
def Accepts (config : TierConfig D) (block : KVCacheBlock) (target : Tier) : Prop :=
  ∃ t, config.resolveConfiguredTier target = some t ∧
    blockSizeBytes block ≤ config.evictionThresholdOf t

theorem accepts_iff {block : KVCacheBlock} {target : Tier} :
    Accepts config block target ↔ (∃ u, config.configured u = true) ∧
      ∀ t, config.resolveConfiguredTier target = some t →
        blockSizeBytes block ≤ config.evictionThresholdOf t := by
  rw [← resolveConfiguredTier_isSome_iff target]
  constructor
  · rintro ⟨t, ht, hsize⟩
    refine ⟨⟨t, ht⟩, fun u hu => ?_⟩
    cases ht.symm.trans hu
    exact hsize
  · rintro ⟨⟨t, ht⟩, hsize⟩
    exact ⟨t, ht, hsize t ht⟩

theorem placeLocked_replies (inval : Invalidation) (hgood : Good config s) {t : Tier}
    (ht : config.configured t = true) (block : KVCacheBlock) (tenantId : UInt32) :
    Returns (placeLocked inval config block t tenantId s) fun r =>
      (r.1.isOk = true ↔ blockSizeBytes block ≤ config.evictionThresholdOf t) ∧
        (r.1.isOk = false → r.2 = s) ∧ Good config r.2 := by
  apply (placeLocked_returns inval hgood ht block tenantId).mono
  intro r hplaced
  cases hplaced with
  | refused hsize =>
    refine ⟨?_, fun _ => rfl, hgood⟩
    simp [Status.make, Status.isOk, hsize]
  | placed hsize hsteps hgood' => exact ⟨by simp [hsize], by simp, hgood'⟩

theorem write_replies (inval : Invalidation) (hgood : Good config s) (block : KVCacheBlock)
    (target : Tier) (tenantId : UInt32) :
    Returns (write inval config block target tenantId s) fun r =>
      (r.1.isOk = true ↔ Accepts config block target) ∧
        (r.1.isOk = false → r.2 = s) ∧ Good config r.2 := by
  unfold write
  cases ht : config.resolveConfiguredTier target with
  | none => exact returns_ok ⟨by simp [Status.make, Status.isOk, Accepts, ht], fun _ => rfl, hgood⟩
  | some t =>
    have hconf := TierConfig.resolveConfiguredTier_configured ht
    apply (placeLocked_replies inval hgood hconf block tenantId).mono
    rintro r ⟨hok, hsame, hgood'⟩
    exact ⟨by simpa [Accepts, ht] using hok, hsame, hgood'⟩

theorem prefetch_replies (inval : Invalidation) (hgood : Good config s)
    (predicted : List BlockKey) :
    Returns (prefetch inval config predicted s) fun r =>
      (r.1.isOk = true ↔ ∃ u, config.configured u = true) ∧
        (r.1.isOk = false → r.2 = s) ∧ Good config r.2 := by
  rw [← resolveConfiguredTier_isSome_iff .hbm]
  unfold prefetch
  cases hfast : config.resolveConfiguredTier .hbm with
  | none => exact returns_ok ⟨by simp [Status.make, Status.isOk], fun _ => rfl, hgood⟩
  | some fast =>
    have hconf := TierConfig.resolveConfiguredTier_configured hfast
    apply (prefetchKeys_returns hconf predicted hgood).mono
    rintro r ⟨hok, -, hgood'⟩
    rw [hok]
    exact ⟨by simp, by simp, hgood'⟩

/-- In every iteration of every run, a tier over its threshold has a block to evict. -/
theorem roundsOps_chooseVictim (ops : List Op) :
    ∀ round ∈ roundsOps config ops State.fresh,
      config.evictionThresholdOf round.1 < round.2.usedBytes round.1 →
        ∃ key s', chooseVictim config round.1 round.2 = .ok (some key, s') := by
  intro round hround hover
  obtain ⟨v, hvictim, -⟩ := (roundsOps_inv ops (good_fresh config) round hround).evicts hover
  exact ⟨v.key, v.state, (roundVictim_chosen hvictim).1⟩

/-- **Replies.** Every run of public calls ends. After it, a write is accepted if and only if a
tier is configured and the block is within the threshold of the resolved one, and a write that
is not accepted changes nothing; a prefetch succeeds if and only if a tier is configured, and the
enforcement of a capacity always. In no iteration of the run is a tier over its threshold without a
victim. -/
theorem runOps_replies (config : TierConfig D) (ops : List Op) :
    (Returns (runOps .lazy config ops State.fresh) fun r =>
      (∀ block target tenantId, Returns (write .lazy config block target tenantId r.2) fun w =>
        (w.1.isOk = true ↔ (∃ u, config.configured u = true) ∧
          ∀ t, config.resolveConfiguredTier target = some t →
            blockSizeBytes block ≤ config.evictionThresholdOf t) ∧
        (w.1.isOk = false → w.2 = r.2)) ∧
      (∀ predicted, Returns (prefetch .lazy config predicted r.2) fun p =>
        p.1.isOk = true ↔ ∃ u, config.configured u = true) ∧
      (∀ t, Returns (enforceCapacity .lazy config t r.2) fun e => e.1.isOk = true) ∧
      ∀ key, Returns (read .lazy config key r.2) fun _ => True) ∧
    ∀ round ∈ roundsOps config ops State.fresh,
      config.evictionThresholdOf round.1 < round.2.usedBytes round.1 →
        ∃ key s', chooseVictim config round.1 round.2 = .ok (some key, s') := by
  refine ⟨(runOps_good ops (good_fresh config)).mono ?_, roundsOps_chooseVictim ops⟩
  intro r hgood
  refine ⟨fun block target tenantId => ?write, fun predicted => ?prefetch, fun t => ?enforce,
    fun key => (read_returns .lazy hgood key).mono fun _ _ => trivial⟩
  case write =>
    apply (write_replies .lazy hgood block target tenantId).mono
    rintro w ⟨hok, hsame, -⟩
    exact ⟨hok.trans accepts_iff, hsame⟩
  case prefetch => exact (prefetch_replies .lazy hgood predicted).mono fun _ h => h.1
  case enforce => exact ⟨_, enforceCapacity_eq hgood t, rfl⟩

end

end TieredKVCache.Storage
