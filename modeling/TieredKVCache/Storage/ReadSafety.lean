import TieredKVCache.Storage.TenantTurn

/-!
# Reading a block that is present

Reading a block of a slower tier promotes it, and capacity enforcement may evict the
promoted block down the tiers and out of the last one; the read then reports an internal
error and the block is gone. `ReadSafe` is the condition on the state before the read under
which this does not happen. Without tenant quotas it is exact. With them it asks that the
promoted block is not a victim in the fastest tier itself (`tenantPromoteLeft`, which is exact
for that), or that some tier has room for everything above it (`RoomDownTo`).
-/

namespace TieredKVCache.Storage

open Lib Relation

section

variable {D : Type} [DoubleArith D] {config : TierConfig D} {inval : Invalidation} {x : BlockKey}
  {block : KVCacheBlock} {fast bottom t v : Tier} {s s' : State}

/-! ## Room for everything above a tier -/

/-- The bytes from the fastest tier down to one. -/
def bytesDownTo (bottom : Tier) (blocks : AList fun _ : BlockKey => StoredBlock) : Nat :=
  bytesOf (fun _ it => it.entry.tier.toNat ≤ bottom.toNat) blocks

/-- The block fits every tier from the fastest down to `bottom`, and `bottom` has room for
it together with everything else down to there. -/
def RoomDownTo (config : TierConfig D) (fast bottom : Tier) (x : BlockKey) (size : Nat)
    (s : State) : Prop :=
  config.configured bottom = true ∧
    (∀ t, config.configured t = true → fast.toNat < t.toNat → t.toNat ≤ bottom.toNat →
      size ≤ config.capacityOf t) ∧
    size + bytesDownTo bottom (s.blocks.erase x) ≤ config.evictionThresholdOf bottom

/-- The block is somewhere down to `bottom`, and all that is there fits in `bottom`. -/
def KeptDownTo (config : TierConfig D) (bottom : Tier) (x : BlockKey) (block : KVCacheBlock)
    (s : State) : Prop :=
  (∃ it, s.blocks.lookup x = some it ∧ it.entry.tier.toNat ≤ bottom.toNat ∧ it.block = block) ∧
    bytesDownTo bottom s.blocks ≤ config.evictionThresholdOf bottom

omit [DoubleArith D] in
theorem usedBytes_le_bytesDownTo (hinv : RepInv config s) (ht : t.toNat ≤ bottom.toNat) :
    s.usedBytes t ≤ bytesDownTo bottom s.blocks := by
  rw [hinv.used t]
  refine bytesOf_le fun k it _ htier => ?_
  rw [htier]
  exact ht

theorem KeptDownTo.step (hconf : config.configured bottom = true)
    (hfits : ∀ t, config.configured t = true → fast.toNat < t.toNat → t.toNat ≤ bottom.toNat →
      blockSizeBytes block ≤ config.capacityOf t)
    (hinv : RepInv config s) (h : KeptDownTo config bottom x block s) (hv : fast.toNat ≤ v.toNat)
    (hstep : EnforceStep inval config v s s') : KeptDownTo config bottom x block s' := by
  obtain ⟨⟨it, hx, ht, hblock⟩, hroom⟩ := h
  rcases Nat.lt_or_ge bottom.toNat v.toNat with hgt | hle
  · -- The step is below `bottom`.
    have hsame (k : BlockKey) (it' : StoredBlock) (ht' : it'.entry.tier.toNat ≤ bottom.toNat) :
        s.blocks.lookup k = some it' ↔ s'.blocks.lookup k = some it' :=
      hstep.sameIn hinv (Nat.lt_of_le_of_lt ht' hgt) k it' rfl
    refine ⟨⟨it, (hsame x it ht).mp hx, ht, hblock⟩, Nat.le_trans (Nat.le_of_eq ?_) hroom⟩
    unfold bytesDownTo bytesOf
    symm
    exact sumOver_congr (fun _ it => it.entry.tier.toNat ≤ bottom.toNat) (fun _ _ h => if_neg h)
      (fun _ _ h => if_neg h) (fun _ _ _ _ => rfl) hsame
  · have hused := usedBytes_le_bytesDownTo hinv hle
    cases hstep with
    | scan hover hfast h =>
      obtain ⟨it', hx', hblock', hentry⟩ := h.lookup_entry hx
      refine ⟨⟨it', hx', hentry ▸ ht, hblock'.trans hblock⟩, ?_⟩
      refine Nat.le_trans (Nat.le_of_eq ?_) hroom
      exact h.bytesOf_entry (p := fun entry => entry.tier.toNat ≤ bottom.toNat)
    | @evict g itg s₁ hover hpick h htg =>
      have hinv₁ := hpick.repInv hinv
      have hkey := (hinv₁.keyed h).2
      have hplaced : config.configured v = true := htg ▸ hinv₁.placed h
      have hblocks : (evicted inval config v g itg s₁).blocks = _ := evicted_blocks hkey hplaced
      rw [hpick.blocks] at h hblocks
      -- `bottom` has room for everything above it, so the tier is above `bottom`.
      have hlt : v.toNat < bottom.toNat := by
        refine Nat.lt_of_le_of_ne hle fun heq => ?_
        cases Tier.toNat_injective heq
        omega
      obtain ⟨slower, hslower⟩ := TierConfig.nextSlowerConfigured_isSome hconf hlt
      have hslowle := TierConfig.nextSlowerConfigured_le hslower hconf hlt
      have hfit : g = x → blockSizeBytes itg.block ≤ config.capacityOf slower := by
        intro heq
        subst heq
        cases h.symm.trans hx
        rw [hblock]
        exact hfits slower (TierConfig.nextSlowerConfigured_configured hslower)
          (Nat.lt_of_le_of_lt hv (TierConfig.nextSlowerConfigured_lt hslower)) hslowle
      have hbytes : bytesDownTo bottom (s.blocks.erase g) + itg.entry.sizeBytes ≤
          config.evictionThresholdOf bottom := by
        rw [bytesDownTo, bytesOf_erase h, if_pos (by rw [htg]; exact hle)] at hroom
        rw [bytesDownTo]
        omega
      rw [hslower] at hblocks
      dsimp only at hblocks
      split at hblocks
      next =>
        constructor
        · by_cases hg : g = x
          · subst hg
            cases h.symm.trans hx
            exact ⟨demoted slower it s₁.logicalClock, by rw [hblocks, AList.lookup_insert],
              hslowle, hblock⟩
          · exact ⟨it, by rw [hblocks, AList.lookup_insert_ne (Ne.symm hg), hx], ht, hblock⟩
        · rw [hblocks, bytesDownTo, bytesOf_insert]
          have hsize : (demoted slower itg s₁.logicalClock).entry.sizeBytes = itg.entry.sizeBytes :=
            (hinv.sized h).symm
          rw [bytesDownTo] at hbytes
          split
          · omega
          · omega
      next hnofit =>
        have hg : g ≠ x := fun heq => hnofit (hfit heq)
        refine ⟨⟨it, by rw [hblocks, AList.lookup_erase_ne (Ne.symm hg), hx], ht, hblock⟩, ?_⟩
        rw [hblocks]
        omega

theorem KeptDownTo.steps (hconf : config.configured bottom = true)
    (hfits : ∀ t, config.configured t = true → fast.toNat < t.toNat → t.toNat ≤ bottom.toNat →
      blockSizeBytes block ≤ config.capacityOf t)
    (hinv : RepInv config s) (h : KeptDownTo config bottom x block s)
    (hsteps : EnforceSteps inval config fast s s') : KeptDownTo config bottom x block s' := by
  refine (hsteps.invariant
    (P := fun a => RepInv config a ∧ KeptDownTo config bottom x block a) ?_ ⟨hinv, h⟩).2
  intro u a b hu ⟨hinv, h⟩ hstep
  exact ⟨hstep.repInv hinv, h.step hconf hfits hinv hu hstep⟩

/-! ## The contract of reading -/

/-- The read does not promote a block that would be lost. -/
def ReadSafe (config : TierConfig D) (key : BlockKey) (s : State) : Prop :=
  ∀ it fast, s.blocks.lookup key = some it → config.fastestTierCache = some fast →
    it.entry.tier ≠ fast → it.entry.sizeBytes ≤ config.evictionThresholdOf fast →
    if config.quotaEnabledLocked = true then
      tenantPromoteLeft config fast key it s ≤ config.evictionThresholdOf fast ∨
        ∃ bottom, fast.toNat ≤ bottom.toNat ∧
          RoomDownTo config fast bottom key it.entry.sizeBytes s
    else
      promoteLeft config fast key it.entry.sizeBytes s ≤ config.evictionThresholdOf fast ∨
        ¬ LostBelow config it.entry.sizeBytes (slowerTiers config fast)

theorem locate_hit {key : BlockKey} : (locate key s).hit = (s.blocks.lookup key).isSome := by
  unfold locate
  cases s.blocks.lookup key <;> rfl

/-- The promoted block is still there when a safe read has enforced the capacity. -/
theorem ReadSafe.kept {key : BlockKey} {it : StoredBlock} (hgood : Good config s)
    (hsizes : config.quotaEnabledLocked = true → OrderedSizes D) (hsafe : ReadSafe config key s)
    (h : s.blocks.lookup key = some it)
    (hfast : config.fastestTierCache = some fast) (hslow : it.entry.tier ≠ fast)
    (hsize : it.entry.sizeBytes ≤ config.evictionThresholdOf fast)
    (hsteps : EnforceSteps .lazy config fast (promotedState .lazy config key it fast s) s')
    (hgood' : Good config s') : s'.blocks.lookup key ≠ none := by
  have hinv := promotedState_repInv .lazy hgood.inv h hfast
  have hsized := hgood.inv.sized h
  have hsafe := hsafe it fast h hfast hslow hsize
  split at hsafe
  next hq =>
    rcases hsafe with hleft | ⟨bottom, hle, hconf, hfits, hroom⟩
    · obtain ⟨it', hk', _⟩ := ((promotedState_tenantWaiting hfast hgood key it).stays_iff
        (hsizes hq) hq hfast hinv hsteps hgood').mpr hleft
      rw [hk']
      simp
    rw [hsized] at hfits hroom
    have hblocks : (promotedState .lazy config key it fast s).blocks = _ :=
      promotedState_blocks hfast key it s
    have hkept : KeptDownTo config bottom key it.block
        (promotedState .lazy config key it fast s) := by
      refine ⟨⟨promoted key fast (touched it s.logicalClock),
        by rw [hblocks, AList.lookup_insert], hle, rfl⟩, ?_⟩
      have hin : (promoted key fast (touched it s.logicalClock)).entry.tier.toNat ≤
          bottom.toNat := hle
      rw [hblocks, bytesDownTo, bytesOf_insert, if_pos hin]
      rw [← hsized, bytesDownTo] at hroom
      exact hroom
    obtain ⟨⟨it', hk', _⟩, _⟩ := hkept.steps hconf hfits hinv hsteps
    rw [hk']
    simp
  next hq =>
    rw [hsized] at hsafe
    intro hnone
    rcases (promotedState_waiting hfast hgood h).fate hfast (by simpa using hq) hinv hsteps
        hgood' with ⟨_, it', hk', _⟩ | ⟨_, _, it', hk', _⟩ | ⟨hover, hlost, _⟩
    · cases hnone.symm.trans hk'
    · cases hnone.symm.trans hk'
    · rcases hsafe with hle | hnot
      · exact absurd hle (Nat.not_le_of_lt hover)
      · exact hnot hlost

end

/-- The tier in the middle is too small for the blocks of the other two. -/
def narrowMiddle : TierConfig ℚ := plainConfig (some 10) (some 1) (some 100)

end TieredKVCache.Storage
