import TieredKVCache.Storage.Fate
import TieredKVCache.Storage.Rounds

/-!
# Demotions that flush a tier

A victim is demoted where its size is within the capacity of the slower tier, and the loop of that
tier then ends at its threshold, which is lower where `high_water_ratio` is below 1. The demoted
block is the newest one of the tier, so it is the last to be evicted. A size within the threshold
keeps it there. A size above it is never reached before the tier is empty: the loop evicts every
block of the tier, and the demoted one after them (`demotions_spare_iff`).
-/

namespace TieredKVCache.Storage

open Lib Relation

/-- The block of the key is in the tier. -/
def ResidentIn (t : Tier) (key : BlockKey) (s : State) : Prop :=
  (s.blocks.lookup key).map (fun it => it.entry.tier) = some t

instance (t : Tier) (key : BlockKey) (s : State) : Decidable (ResidentIn t key s) :=
  inferInstanceAs (Decidable (_ = _))

section

variable {t : Tier} {key : BlockKey} {s : State}

theorem residentIn_iff :
    ResidentIn t key s ↔ ∃ it, s.blocks.lookup key = some it ∧ it.entry.tier = t :=
  Option.map_eq_some_iff

theorem ResidentIn.occupied (h : ResidentIn t key s) : Occupied t s :=
  ⟨key, residentIn_iff.mp h⟩

end

section

variable {D : Type} [DoubleArith D] {config : TierConfig D} {x : BlockKey} {block : KVCacheBlock}
  {t u w : Tier} {a b s s' : State} {v : Victim}

/-! ## The enforcement of the slower tier -/

/-- The newest block of a tier is evicted when it is alone there and over the threshold. -/
theorem NewestIn.step (hquota : config.quotaEnabledLocked = false)
    (hslow : config.fastestTierCache ≠ some u) (hinv : RepInv config s)
    (h : NewestIn x block u s) (hle : u.toNat ≤ w.toNat)
    (hstep : EnforceStep .lazy config w s s') :
    NewestIn x block u s' ∨
      config.evictionThresholdOf u < blockSizeBytes block ∧ ¬ Occupied u s' := by
  rcases Nat.eq_or_lt_of_le hle with heq | hlt
  · obtain rfl : u = w := Tier.toNat_injective heq
    rcases h.step_or hquota hslow hinv hstep with hnewest | ⟨it, halone⟩
    · exact .inl hnewest
    · exact .inr ⟨halone.large hinv, halone.not_occupied hinv⟩
  · exact .inl (h.sameIn (hstep.sameIn hinv hlt))

/-- A tier that is empty stays so. -/
theorem not_occupied_step (hinv : RepInv config s) (h : ¬ Occupied u s)
    (hle : u.toNat ≤ w.toNat) (hstep : EnforceStep .lazy config w s s') : ¬ Occupied u s' := by
  rcases Nat.eq_or_lt_of_le hle with heq | hlt
  · obtain rfl : u = w := Tier.toNat_injective heq
    have hwithin {bound : Nat} : ¬ bound < s.usedBytes u := fun hover => h (hinv.occupied hover)
    cases hstep with
    | scan hover => exact absurd hover hwithin
    | evict hover => exact absurd hover hwithin
  · rintro ⟨k, it, hk, ht⟩
    exact h ⟨k, it, (hstep.sameIn hinv hlt k it ht).mpr hk, ht⟩

theorem NewestIn.steps (hquota : config.quotaEnabledLocked = false)
    (hslow : config.fastestTierCache ≠ some u) (hinv : RepInv config s)
    (h : NewestIn x block u s) (hsteps : EnforceSteps .lazy config u s s') :
    NewestIn x block u s' ∨
      config.evictionThresholdOf u < blockSizeBytes block ∧ ¬ Occupied u s' := by
  refine (hsteps.invariant (P := fun a => RepInv config a ∧ (NewestIn x block u a ∨
    config.evictionThresholdOf u < blockSizeBytes block ∧ ¬ Occupied u a)) ?_ ⟨hinv, .inl h⟩).2
  rintro w a b hle ⟨hinv, hcase⟩ hstep
  refine ⟨hstep.repInv hinv, ?_⟩
  rcases hcase with hnewest | ⟨hlarge, hempty⟩
  · exact hnewest.step hquota hslow hinv hle hstep
  · exact .inr ⟨hlarge, not_occupied_step hinv hempty hle hstep⟩

/-- Enforcement of a tier ends with its newest block, or with nothing. -/
theorem RoundInv.enforce_newest (hround : RoundInv config u b)
    (hquota : config.quotaEnabledLocked = false) (hslow : config.fastestTierCache ≠ some u)
    (h : NewestIn x block u b) :
    Returns (enforceCapacityLocked .lazy config u b) fun r =>
      if blockSizeBytes block ≤ config.evictionThresholdOf u then ResidentIn u x r.2
      else ¬ Occupied u r.2 := by
  refine (enforceCapacityLocked_returns hround.inv hround.slower).mono ?_
  rintro r ⟨-, hsteps, hwithin⟩
  have hinv := hsteps.repInv hround.inv
  split
  next hfits =>
    rcases h.steps hquota hslow hround.inv hsteps with hnewest | ⟨hlarge, -⟩
    · obtain ⟨it, hx, ht, -⟩ := hnewest
      exact residentIn_iff.mpr ⟨it, hx, ht⟩
    · omega
  next hlarge =>
    rcases h.steps hquota hslow hround.inv hsteps with hnewest | ⟨-, hempty⟩
    · have hle := hnewest.le_usedBytes hinv
      have hend := hwithin u (Nat.le_refl _)
      omega
    · exact hempty

/-! ## The demotions of a run -/

theorem RoundInv.demotion_spares_iff (h : RoundInv config t a)
    (hquota : config.quotaEnabledLocked = false) (hvictim : roundVictim config t a = some v)
    (hcall : nestedCall config t a = some (u, b)) :
    Returns (enforceCapacityLocked .lazy config u b) fun r =>
      ((¬ ResidentIn u v.key r.2 → ∀ k, ResidentIn u k a → ResidentIn u k r.2) ↔
        blockSizeBytes v.it.block ≤ config.evictionThresholdOf u ∨ ∀ k, ¬ ResidentIn u k a) := by
  obtain ⟨hb, -⟩ := h.nested hcall
  obtain ⟨v', hvictim', hnext, hfits, -⟩ := nestedCall_eq_some hcall
  cases hvictim.symm.trans hvictim'
  have hev := h.evicts_of_victim hvictim
  have hslow := fastestTierCache_ne_of_nextSlower hnext hev.placed
  have hnewest : NewestIn v.key v.it.block u b := by
    obtain rfl := evicted_of_nestedCall hcall hvictim
    exact newestIn_evicted hev.inv hev.keyed hev.placed hnext hfits
  refine (hb.enforce_newest hquota hslow hnewest).mono fun r hr => ?_
  by_cases hsize : blockSizeBytes v.it.block ≤ config.evictionThresholdOf u
  · rw [if_pos hsize] at hr
    exact iff_of_true (fun hgone => absurd hr hgone) (.inl hsize)
  · rw [if_neg hsize] at hr
    rw [or_iff_right hsize]
    constructor
    · intro hkept k hk
      exact hr (hkept (fun hkey => hr hkey.occupied) k hk).occupied
    · exact fun hnone _ k hk => absurd hk (hnone k)

/-- **Flushing.** Without tenant weights, in every demotion of every run: a block that does not
stay in the slower tier leaves the blocks there alone exactly if it fits the threshold of the tier,
where it does stay, or the tier was empty. -/
theorem demotions_spare_iff (config : TierConfig D) (hquota : config.quotaEnabledLocked = false)
    (ops : List Op) (round : Tier × State) (hround : round ∈ roundsOps config ops State.fresh)
    (v : Victim) (hvictim : roundVictim config round.1 round.2 = some v) (u : Tier) (b : State)
    (hcall : nestedCall config round.1 round.2 = some (u, b)) :
    Returns (enforceCapacityLocked .lazy config u b) fun r =>
      ((¬ ResidentIn u v.key r.2 → ∀ k, ResidentIn u k round.2 → ResidentIn u k r.2) ↔
        blockSizeBytes v.it.block ≤ config.evictionThresholdOf u ∨
          ∀ k, ¬ ResidentIn u k round.2) :=
  (roundsOps_inv ops (good_fresh config) round hround).demotion_spares_iff hquota hvictim hcall

end

/-- A threshold of half the capacity. -/
def halfWater : TierConfig ℚ :=
  { plainConfig (some 20) (some 10) none with highWaterRatio := 1 / 2 }

/-- The second block of the faster tier demotes the first one, of 8 bytes. -/
def halfWaterOps : List Op :=
  [.write (plainBlock 1 4) .dram 0, .write (plainBlock 2 8) .hbm 0, .write (plainBlock 3 8) .hbm 0]

theorem halfWater_demotion :
    ∃ round ∈ roundsOps halfWater halfWaterOps State.fresh, ∃ v u b,
      roundVictim halfWater round.1 round.2 = some v ∧
        nestedCall halfWater round.1 round.2 = some (u, b) ∧ ResidentIn u (plainKey 1) round.2 ∧
          halfWater.evictionThresholdOf u < blockSizeBytes v.it.block := by
  have hfound : ((roundsOps halfWater halfWaterOps State.fresh).find? fun round =>
      (roundVictim halfWater round.1 round.2).any fun v =>
        (nestedCall halfWater round.1 round.2).any fun call =>
          ResidentIn call.1 (plainKey 1) round.2 ∧
            halfWater.evictionThresholdOf call.1 < blockSizeBytes v.it.block).isSome := by
    decide +kernel
  obtain ⟨round, hround⟩ := Option.isSome_iff_exists.mp hfound
  have hany := List.find?_some hround
  obtain ⟨v, hvictim, hany⟩ := (Option.any_eq_true _ _).mp hany
  obtain ⟨⟨u, b⟩, hcall, hcond⟩ := (Option.any_eq_true _ _).mp hany
  exact ⟨round, List.mem_of_find?_eq_some hround, v, u, b, hvictim, hcall, of_decide_eq_true hcond⟩

theorem demotions_spare_iff_halfWater :
    ∃ round ∈ roundsOps halfWater halfWaterOps State.fresh, ∃ (v : Victim) (u : Tier) (b : State),
      Returns (enforceCapacityLocked .lazy halfWater u b) fun r =>
        ((¬ ResidentIn u v.key r.2 → ∀ k, ResidentIn u k round.2 → ResidentIn u k r.2) ↔
          blockSizeBytes v.it.block ≤ halfWater.evictionThresholdOf u ∨
            ∀ k, ¬ ResidentIn u k round.2) := by
  obtain ⟨round, hround, v, u, b, hvictim, hcall, -⟩ := halfWater_demotion
  have hquota : halfWater.quotaEnabledLocked = false := rfl
  exact ⟨round, hround, v, u, b,
    demotions_spare_iff halfWater hquota halfWaterOps round hround v hvictim u b hcall⟩

/-- The demoted block takes the block of the slower tier with it. -/
theorem halfWater_flushed :
    ¬ ∀ round ∈ roundsOps halfWater halfWaterOps State.fresh, ∀ v u b,
      roundVictim halfWater round.1 round.2 = some v →
        nestedCall halfWater round.1 round.2 = some (u, b) →
          Returns (enforceCapacityLocked .lazy halfWater u b) fun r =>
            (¬ ResidentIn u v.key r.2 → ∀ k, ResidentIn u k round.2 → ResidentIn u k r.2) := by
  intro hall
  obtain ⟨round, hround, v, u, b, hvictim, hcall, hresident, hlarge⟩ := halfWater_demotion
  have hinv := roundsOps_inv halfWaterOps (good_fresh halfWater) round hround
  obtain ⟨r, hr, hspares⟩ := hall round hround v u b hvictim hcall
  rcases ((hinv.demotion_spares_iff rfl hvictim hcall).of_eq hr).mp hspares with hfits | hempty
  · omega
  · exact hempty _ hresident

end TieredKVCache.Storage
