import TieredKVCache.Storage.Ledger
import TieredKVCache.Storage.Turn

/-!
# The fate of a placed block

Where a block ends up when it is placed and capacity is enforced, without tenant quotas.
In the fastest tier it waits for its turn: it stays there exactly if the bytes left at its
turn fit the threshold (`Waiting`). In a slower tier it is the newest block, so it is
evicted only when it is alone there and over the threshold (`Settling`); from there it
falls further, and `LostBelow` says for which sizes it falls out of the last tier.
-/

namespace TieredKVCache.Storage

open Lib Relation

section

variable {D : Type} (config : TierConfig D)

/-- The configured tiers below one, from the fastest to the slowest. -/
def slowerTiers (t : Tier) : List Tier := (tierOrder.drop (t.toNat + 1)).filter config.configured

variable {config}

theorem slowerTiers_of_none {t : Tier} (h : config.nextSlowerConfigured t = none) :
    slowerTiers config t = [] := by
  rw [slowerTiers, List.filter_eq_nil_iff]
  exact List.find?_eq_none.mp h

theorem slowerTiers_of_some {t u : Tier} (h : config.nextSlowerConfigured t = some u) :
    slowerTiers config t = u :: slowerTiers config u := by
  unfold TierConfig.nextSlowerConfigured at h
  cases hd : config.configured .dram <;> cases hn : config.configured .nvme <;> cases t <;>
    cases u <;> simp_all [slowerTiers, tierOrder, Tier.toNat]

variable [DoubleArith D]

variable (config) in
/-- A block of this size that is evicted into a list of tiers falls out of the last one:
each of them cannot hold it, or holds it only until its threshold is enforced. -/
def LostBelow (size : Nat) : List Tier → Prop
  | [] => True
  | t :: slower =>
    config.capacityOf t < size ∨ config.evictionThresholdOf t < size ∧ LostBelow size slower

instance (size : Nat) : (tiers : List Tier) → Decidable (LostBelow config size tiers)
  | [] => .isTrue trivial
  | _ :: slower =>
    have : Decidable (LostBelow config size slower) := instDecidableLostBelow size slower
    inferInstanceAs (Decidable (_ ∨ _ ∧ _))

end

section

variable {D : Type} {inval : Invalidation} {config : TierConfig D} {x g : BlockKey}
  {block : KVCacheBlock} {t u : Tier} {it : StoredBlock} {s s' s₁ : State}

/-! ## The newest block of a tier -/

/-- The block is the newest one of the tier. -/
def NewestIn (x : BlockKey) (block : KVCacheBlock) (u : Tier) (s : State) : Prop :=
  ∃ it, s.blocks.lookup x = some it ∧ it.entry.tier = u ∧ it.block = block ∧
    ∀ k it', s.blocks.lookup k = some it' → it'.entry.tier = u →
      it'.entry.stats.lastAccessTs ≤ it.entry.stats.lastAccessTs

theorem NewestIn.sameIn (h : NewestIn x block u s) (hsame : SameIn u s s') :
    NewestIn x block u s' := by
  obtain ⟨it, hx, ht, hblock, hnewest⟩ := h
  refine ⟨it, (hsame x it ht).mp hx, ht, hblock, fun k it' hk ht' => ?_⟩
  exact hnewest k it' ((hsame k it' ht').mpr hk) ht'

/-- Another block of the tier is evicted. -/
theorem NewestIn.evicted (h : NewestIn x block u s) (hkey : it.block.key = g)
    (hplaced : config.configured u = true) (hg : g ≠ x) :
    NewestIn x block u (evicted inval config u g it s) := by
  obtain ⟨itx, hx, ht, hblock, hnewest⟩ := h
  refine ⟨itx, (evicted_lookup_of_ne hkey hplaced (Ne.symm hg)).trans hx, ht, hblock, ?_⟩
  exact fun k it' hk ht' => hnewest k it' (evicted_lookup_in hkey hplaced hk ht').2 ht'

/-- A tier that holds a block is as full as the block is large. -/
theorem NewestIn.le_usedBytes (h : NewestIn x block u s) (hinv : RepInv config s) :
    blockSizeBytes block ≤ s.usedBytes u := by
  obtain ⟨it, hx, ht, hblock, -⟩ := h
  rw [hinv.used u, bytesOf_erase hx, if_pos ht, hinv.sized hx, hblock]
  exact Nat.le_add_right _ _

/-- A block that is the oldest one of the tier too is alone there. -/
theorem NewestIn.alone (h : NewestIn x block u s) (hinv : RepInv config s)
    (hold : ∀ {k it it'}, s.blocks.lookup x = some it → s.blocks.lookup k = some it' →
      it'.entry.tier = u → it.entry.stats.lastAccessTs ≤ it'.entry.stats.lastAccessTs)
    {k : BlockKey} {it' : StoredBlock} (hk : s.blocks.lookup k = some it')
    (ht' : it'.entry.tier = u) : k = x := by
  obtain ⟨it, hx, ht, -, hnewest⟩ := h
  have hstamp : it'.entry.stats.lastAccessTs = it.entry.stats.lastAccessTs :=
    Nat.le_antisymm (hnewest k it' hk ht') (hold hx hk ht')
  exact hinv.stampInj hk hx hstamp

/-- A demoted block is the newest one of its new tier. -/
theorem newestIn_evicted (hinv' : RepInv config (evicted inval config t x it s₁))
    (hkey : it.block.key = x) (hplaced : config.configured t = true)
    (hnext : config.nextSlowerConfigured t = some u)
    (hfits : blockSizeBytes it.block ≤ config.capacityOf u) :
    NewestIn x it.block u (evicted inval config t x it s₁) := by
  have hblocks : (evicted inval config t x it s₁).blocks = _ := evicted_blocks hkey hplaced
  rw [hnext] at hblocks
  dsimp only at hblocks
  rw [if_pos hfits] at hblocks
  refine ⟨demoted u it s₁.logicalClock, by rw [hblocks, AList.lookup_insert], rfl, rfl, ?_⟩
  intro k it' hk _
  apply Nat.le_trans (hinv'.stampLe hk)
  unfold Storage.evicted
  rw [hnext]
  dsimp only
  rw [if_pos hfits, demoteLocked_eq (fastestTierCache_ne_of_nextSlower hnext hplaced)]
  simp [enter, demoted]

end

section

variable {D : Type} [DoubleArith D] {inval : Invalidation} {config : TierConfig D}
  {x g : BlockKey} {block : KVCacheBlock} {t u v fast : Tier} {it : StoredBlock} {s s' s₁ : State}

/-! ## In a slower tier -/

/-- The newest block of a slower tier is evicted: it is the oldest one too, so it is alone. -/
structure EvictedAlone (inval : Invalidation) (config : TierConfig D) (x : BlockKey)
    (block : KVCacheBlock) (u : Tier) (s s' : State) (it : StoredBlock) : Prop where
  found : s.blocks.lookup x = some it
  tier : it.entry.tier = u
  block_eq : it.block = block
  exceeds : config.evictionThresholdOf u < s.usedBytes u
  picked : Picked config u s x s
  alone : ∀ {k it'}, s.blocks.lookup k = some it' → it'.entry.tier = u → k = x
  after : s' = evicted inval config u x it s

theorem EvictedAlone.rest (h : EvictedAlone inval config x block u s s' it) :
    bytesOf (fun _ it => it.entry.tier = u) (s.blocks.erase x) = 0 := by
  refine sumOver_eq_zero fun k it' hk => if_neg fun ht' => ?_
  obtain ⟨hne, hk⟩ := lookup_erase_eq_some.mp hk
  exact hne (h.alone hk ht')

/-- Alone in its tier, the block is larger than the threshold. -/
theorem EvictedAlone.large (h : EvictedAlone inval config x block u s s' it)
    (hinv : RepInv config s) : config.evictionThresholdOf u < blockSizeBytes block := by
  have hover := h.exceeds
  rw [hinv.used u, bytesOf_erase h.found, if_pos h.tier, h.rest, hinv.sized h.found,
    h.block_eq] at hover
  exact hover

theorem EvictedAlone.not_occupied (h : EvictedAlone inval config x block u s s' it)
    (hinv : RepInv config s) : ¬ Occupied u s' := by
  rintro ⟨k, it', hk, ht'⟩
  have hplaced : config.configured u = true := h.tier ▸ hinv.placed h.found
  rw [h.after] at hk
  obtain ⟨hne, hk⟩ := evicted_lookup_in (hinv.keyed h.found).2 hplaced hk ht'
  exact hne (h.alone hk ht')

/-- A step in its tier leaves the newest block there, or evicts it when it is alone. -/
theorem NewestIn.step_or (hq : config.quotaEnabledLocked = false)
    (hslow : config.fastestTierCache ≠ some u) (hinv : RepInv config s)
    (h : NewestIn x block u s) (hstep : EnforceStep inval config u s s') :
    NewestIn x block u s' ∨ ∃ it, EvictedAlone inval config x block u s s' it := by
  cases hstep with
  | scan hover hfast => exact absurd hfast hslow
  | @evict g itg s₁ hover hpick hg htg =>
    have hkey := ((hpick.repInv hinv).keyed hg).2
    have hplaced : config.configured u = true := htg ▸ (hpick.repInv hinv).placed hg
    cases hpick with
    | quota hq' => cases hq.symm.trans hq'
    | popped hfast => exact absurd hfast hslow
    | oldest _ hold =>
      by_cases hgx : g = x
      · subst hgx
        have halone {k : BlockKey} {it' : StoredBlock} (hk : s.blocks.lookup k = some it')
            (ht' : it'.entry.tier = u) : k = g := h.alone hinv hold hk ht'
        obtain ⟨it, hx, ht, hblock, -⟩ := h
        cases hg.symm.trans hx
        exact .inr ⟨itg, hx, ht, hblock, hover, .oldest hslow hold, halone, rfl⟩
      · exact .inl (h.evicted hkey hplaced hgx)

/-- The block is the newest one of a slower tier, and the faster tiers have room. -/
structure Settling (config : TierConfig D) (x : BlockKey) (block : KVCacheBlock) (u : Tier)
    (s : State) : Prop where
  resident : ∃ it, s.blocks.lookup x = some it ∧ it.entry.tier = u ∧ it.block = block ∧
    ∀ k it', s.blocks.lookup k = some it' → it'.entry.tier = u →
      it'.entry.stats.lastAccessTs ≤ it.entry.stats.lastAccessTs
  faster : ∀ t, t.toNat < u.toNat → s.usedBytes t ≤ config.evictionThresholdOf t
  slow : config.fastestTierCache ≠ some u

/-- Where a block is after its eviction from a tier: in the next one, or nowhere. -/
def Fallen (config : TierConfig D) (x : BlockKey) (block : KVCacheBlock) (u : Tier) (s : State) :
    Prop :=
  (∃ slower, config.nextSlowerConfigured u = some slower ∧
      blockSizeBytes block ≤ config.capacityOf slower ∧ Settling config x block slower s) ∨
    s.blocks.lookup x = none ∧
      ∀ slower, config.nextSlowerConfigured u = some slower →
        config.capacityOf slower < blockSizeBytes block

/-- An evicted block falls, where its tier and the faster ones have room without it. -/
theorem fallen_of_evicted (hinv : RepInv config s)
    (hover : config.evictionThresholdOf u < s.usedBytes u) (hpick : Picked config u s x s₁)
    (h : s₁.blocks.lookup x = some it) (ht : it.entry.tier = u) (hblock : it.block = block)
    (hfaster : ∀ t, t.toNat < u.toNat → s.usedBytes t ≤ config.evictionThresholdOf t)
    (hrest : bytesOf (fun _ it => it.entry.tier = u) (s.blocks.erase x) ≤
      config.evictionThresholdOf u) :
    Fallen config x block u (evicted inval config u x it s₁) := by
  have hstep : EnforceStep inval config u s (evicted inval config u x it s₁) :=
    .evict hover hpick h ht
  have hinv₁ := hpick.repInv hinv
  have hinv' := hstep.repInv hinv
  have hplaced : config.configured u = true := ht ▸ hinv₁.placed h
  have hblocks : (evicted inval config u x it s₁).blocks = _ :=
    evicted_blocks (hinv₁.keyed h).2 hplaced
  cases hslower : config.nextSlowerConfigured u with
  | none =>
    rw [hslower] at hblocks
    refine .inr ⟨?_, by simp [hslower]⟩
    rw [hblocks]
    exact AList.lookup_erase x s₁.blocks
  | some slower =>
    have hlt := TierConfig.nextSlowerConfigured_lt hslower
    rw [hslower] at hblocks
    dsimp only at hblocks
    by_cases hfits : blockSizeBytes it.block ≤ config.capacityOf slower
    · rw [if_pos hfits] at hblocks
      refine .inl ⟨slower, hslower, hblock ▸ hfits, ?_, ?_,
        fastestTierCache_ne_of_nextSlower hslower hplaced⟩
      · exact hblock ▸ newestIn_evicted hinv' (hinv₁.keyed h).2 hplaced hslower hfits
      · intro t hts
        rcases Nat.lt_trichotomy t.toNat u.toNat with hlt' | heq | hgt
        · rw [← (hstep.sameIn hinv hlt').usedBytes hinv hinv']
          exact hfaster t hlt'
        · obtain rfl : u = t := (Tier.toNat_injective heq).symm
          rw [hinv'.used, hblocks, bytesOf_insert, if_neg, Nat.zero_add, hpick.blocks]
          · exact hrest
          · intro heq
            change slower = u at heq
            rw [heq] at hlt
            omega
        · rw [hinv'.usedBytes_of_not_configured]
          · exact Nat.zero_le _
          · by_contra hconf
            have hle := TierConfig.nextSlowerConfigured_le hslower (by simpa using hconf) hgt
            omega
    · rw [if_neg hfits] at hblocks
      refine .inr ⟨?_, ?_⟩
      · rw [hblocks]
        exact AList.lookup_erase x s₁.blocks
      · intro slower' hslower'
        cases hslower.symm.trans hslower'
        exact hblock ▸ Nat.lt_of_not_le hfits

/-- A settling block stays, or it is over the threshold of its tier and falls. -/
theorem Settling.step (hq : config.quotaEnabledLocked = false) (hinv : RepInv config s)
    (h : Settling config x block u s) (hstep : EnforceStep inval config v s s') :
    Settling config x block u s' ∨
      config.evictionThresholdOf u < blockSizeBytes block ∧ Fallen config x block u s' := by
  obtain ⟨hresident, hfaster, hslow⟩ := h
  have hnewest : NewestIn x block u s := hresident
  have hinv' := hstep.repInv hinv
  have hfaster' (hle : u.toNat ≤ v.toNat) (t : Tier) (htu : t.toNat < u.toNat) :
      s'.usedBytes t ≤ config.evictionThresholdOf t := by
    rw [← (hstep.sameIn hinv (by omega)).usedBytes hinv hinv']
    exact hfaster t htu
  rcases Nat.lt_trichotomy v.toNat u.toNat with hlt | heq | hgt
  · -- A faster tier has room, so nothing happens there.
    have hwithin := hfaster v hlt
    cases hstep with
    | scan hover => omega
    | evict hover => omega
  · obtain rfl : u = v := (Tier.toNat_injective heq).symm
    rcases hnewest.step_or hq hslow hinv hstep with hnewest' | ⟨it, halone⟩
    · exact .inl ⟨hnewest', hfaster' (Nat.le_refl _), hslow⟩
    · refine .inr ⟨halone.large hinv, ?_⟩
      rw [halone.after]
      apply fallen_of_evicted hinv halone.exceeds halone.picked halone.found halone.tier
        halone.block_eq hfaster
      rw [halone.rest]
      exact Nat.zero_le _
  · exact .inl ⟨hnewest.sameIn (hstep.sameIn hinv hgt), hfaster' (by omega), hslow⟩

/-- A block that fits its slower tier stays there. -/
theorem Settling.steps (hq : config.quotaEnabledLocked = false) (hinv : RepInv config s)
    (h : Settling config x block u s)
    (hsize : blockSizeBytes block ≤ config.evictionThresholdOf u)
    (hsteps : EnforceSteps inval config t s s') : Settling config x block u s' := by
  refine (hsteps.invariant (P := fun a => RepInv config a ∧ Settling config x block u a) ?_
    ⟨hinv, h⟩).2
  intro w a b _ ⟨hinv, h⟩ hstep
  refine ⟨hstep.repInv hinv, (h.step hq hinv hstep).resolve_right ?_⟩
  intro hfallen
  omega

/-! ## In the fastest tier -/

/-- The block waits for its turn in the fastest tier; without it the tier has room, and
`left` bytes are left at its turn. -/
def Waiting (config : TierConfig D) (x : BlockKey) (block : KVCacheBlock) (fast : Tier)
    (left : Nat) (s : State) : Prop :=
  ∃ it, s.blocks.lookup x = some it ∧ it.entry.tier = fast ∧ it.s3Freq = 0 ∧ it.block = block ∧
    turnBytesAt config fast x it s = left ∧
    s.usedBytes fast ≤ config.evictionThresholdOf fast + it.entry.sizeBytes

/-- A waiting block stays, or it is evicted because what is left at its turn is over the
threshold. -/
theorem Waiting.step {left : Nat} (hfast : config.fastestTierCache = some fast)
    (hq : config.quotaEnabledLocked = false) (hinv : RepInv config s)
    (h : Waiting config x block fast left s) (hv : fast.toNat ≤ v.toNat)
    (hstep : EnforceStep .lazy config v s s') :
    Waiting config x block fast left s' ∨
      config.evictionThresholdOf fast < left ∧ Fallen config x block fast s' := by
  obtain ⟨it, hx, ht, hfreq, hblock, hleft, hused⟩ := h
  have hinv' := hstep.repInv hinv
  rcases Nat.eq_or_lt_of_le hv with heq | hgt
  · obtain rfl := Tier.toNat_injective heq
    cases hstep with
    | scan hover _ h =>
      refine .inl ⟨it, h.waiting hx hfreq, ht, hfreq, hblock, ?_, ?_⟩
      · rw [h.turnBytesAt_eq hfast hinv hx ht hfreq, hleft]
      · rw [h.usedBytes]
        exact hused
    | @evict g itg s₁ hover hpick h htg =>
      have hinv₁ := hpick.repInv hinv
      have hkey := (hinv₁.keyed h).2
      have hplaced : config.configured fast = true := htg ▸ hinv₁.placed h
      have hblocks₁ := hpick.blocks
      have hpick₀ := hpick
      cases hpick with
      | quota hq' => rw [hq] at hq'; cases hq'
      | oldest hslow _ => exact absurd hfast hslow
      | popped _ hpop =>
        by_cases hg : g = x
        · subst hg
          rw [hblocks₁] at h
          cases h.symm.trans hx
          refine .inr ⟨?_, ?_⟩
          · rw [← hleft, hpop.turnBytesAt_turn hfast hinv hx ht]
            exact hover
          · refine fallen_of_evicted hinv hover hpick₀ (hblocks₁.symm ▸ hx) ht hblock ?_ ?_
            · intro t htv
              rw [hinv.usedBytes_of_not_configured]
              · exact Nat.zero_le _
              · by_contra hconf
                have hle := TierConfig.fastestTierCache_le hfast (by simpa using hconf)
                omega
            · rw [hinv.used fast, bytesOf_erase hx, if_pos ht] at hused
              omega
        · refine .inl ⟨it, ?_, ht, hfreq, hblock, ?_, ?_⟩
          · rw [evicted_lookup_of_ne hkey hplaced (Ne.symm hg), hblocks₁]
            exact hx
          · obtain ⟨hsmall, hmain⟩ := evicted_queues .lazy h hplaced
            rw [leaveQueue_lazy] at hsmall hmain
            rw [← hleft, ← hpop.turnBytes_victim hfast hinv hx ht hg, turnBytesAt, hsmall, hmain]
            refine turnBytes_congr hfast fun k it' ht' => ?_
            rw [lookup_erase_eq_some, evicted_lookup_iff hkey hplaced ht', hblocks₁,
              lookup_erase_eq_some, lookup_erase_eq_some, lookup_erase_eq_some]
            exact and_left_comm
          · refine Nat.le_trans ?_ hused
            rw [hinv.used fast, hinv'.used fast, bytesOf_evicted hkey hplaced, hblocks₁]
            exact bytesOf_erase_le _ _ _
  · have hsame := hstep.sameIn hinv hgt
    have hslow : config.fastestTierCache ≠ some v := by
      rw [hfast]
      intro heq
      cases heq
      omega
    obtain ⟨hsmall, hmain⟩ := hstep.queues hinv hslow
    refine .inl ⟨it, (hsame x it ht).mp hx, ht, hfreq, hblock, ?_, ?_⟩
    · rw [← hleft, turnBytesAt, turnBytesAt, hsmall, hmain]
      refine turnBytes_congr hfast fun k it' ht' => ?_
      rw [lookup_erase_eq_some, lookup_erase_eq_some, hsame k it' ht']
    · rw [← hsame.usedBytes hinv hinv']
      exact hused

/-! ## The outcome -/

/-- The block has left the fastest tier: it settles in a slower one, where its fate is still
that of the tiers below, or it is lost. -/
def Below (config : TierConfig D) (x : BlockKey) (block : KVCacheBlock) (fast : Tier)
    (s : State) : Prop :=
  (∃ u, fast.toNat < u.toNat ∧ Settling config x block u s ∧
    (LostBelow config (blockSizeBytes block) (slowerTiers config fast) ↔
      config.evictionThresholdOf u < blockSizeBytes block ∧
        LostBelow config (blockSizeBytes block) (slowerTiers config u))) ∨
  s.blocks.lookup x = none ∧ LostBelow config (blockSizeBytes block) (slowerTiers config fast)

theorem Fallen.below (h : Fallen config x block u s) (hu : fast.toNat ≤ u.toNat)
    (hlost : LostBelow config (blockSizeBytes block) (slowerTiers config fast) ↔
      LostBelow config (blockSizeBytes block) (slowerTiers config u)) :
    Below config x block fast s := by
  rcases h with ⟨slower, hslower, hfits, hsettling⟩ | ⟨hnone, hnofit⟩
  · have hlt := TierConfig.nextSlowerConfigured_lt hslower
    refine .inl ⟨slower, by omega, hsettling, hlost.trans ?_⟩
    rw [slowerTiers_of_some hslower, LostBelow]
    exact or_iff_right (Nat.not_lt_of_le hfits)
  · refine .inr ⟨hnone, hlost.mpr ?_⟩
    cases hslower : config.nextSlowerConfigured u with
    | none =>
      rw [slowerTiers_of_none hslower]
      trivial
    | some slower =>
      rw [slowerTiers_of_some hslower]
      exact .inl (hnofit slower hslower)

theorem Below.step (hq : config.quotaEnabledLocked = false) (hinv : RepInv config s)
    (h : Below config x block fast s) (hstep : EnforceStep inval config v s s') :
    Below config x block fast s' := by
  rcases h with ⟨u, hu, hsettling, hlost⟩ | ⟨hnone, hlost⟩
  · rcases hsettling.step hq hinv hstep with hsettling' | ⟨hover, hfallen⟩
    · exact .inl ⟨u, hu, hsettling', hlost⟩
    · exact hfallen.below (Nat.le_of_lt hu) (hlost.trans (and_iff_right hover))
  · refine .inr ⟨?_, hlost⟩
    by_contra hsome
    obtain ⟨it, hx⟩ := Option.ne_none_iff_exists'.mp hsome
    have hcontents : contents s' x = some (it.block, it.entry.tenantId) := by
      rw [contents, hx, Option.map_some]
    have hcontents := hstep.contents_sub hinv hcontents
    rw [contents, hnone] at hcontents
    cases hcontents

/-- **The fate of a waiting block.** It stays in the fastest tier exactly if the bytes left
at its turn fit the threshold; otherwise it is in a slower tier, or lost where no tier below
keeps it. -/
theorem Waiting.fate {left : Nat} (hfast : config.fastestTierCache = some fast)
    (hq : config.quotaEnabledLocked = false) (hinv : RepInv config s)
    (h : Waiting config x block fast left s) (hsteps : EnforceSteps .lazy config fast s s')
    (hgood : Good config s') :
    (left ≤ config.evictionThresholdOf fast ∧
      ∃ it, s'.blocks.lookup x = some it ∧ it.entry.tier = fast ∧ it.block = block) ∨
    (config.evictionThresholdOf fast < left ∧
      ¬ LostBelow config (blockSizeBytes block) (slowerTiers config fast) ∧
      ∃ it, s'.blocks.lookup x = some it ∧ it.entry.tier ≠ fast ∧ it.block = block) ∨
    (config.evictionThresholdOf fast < left ∧
      LostBelow config (blockSizeBytes block) (slowerTiers config fast) ∧
      s'.blocks.lookup x = none) := by
  have hfate : RepInv config s' ∧ (Waiting config x block fast left s' ∨
      config.evictionThresholdOf fast < left ∧ Below config x block fast s') := by
    refine hsteps.invariant (P := fun a => RepInv config a ∧ (Waiting config x block fast left a ∨
      config.evictionThresholdOf fast < left ∧ Below config x block fast a)) ?_ ⟨hinv, .inl h⟩
    intro u a b hu ⟨hinv, hfate⟩ hstep
    refine ⟨hstep.repInv hinv, ?_⟩
    rcases hfate with hwaiting | ⟨hover, hbelow⟩
    · rcases hwaiting.step hfast hq hinv hu hstep with hwaiting' | ⟨hover, hfallen⟩
      · exact .inl hwaiting'
      · exact .inr ⟨hover, hfallen.below (Nat.le_refl _) Iff.rfl⟩
    · exact .inr ⟨hover, hbelow.step hq hinv hstep⟩
  obtain ⟨hinv', hwaiting | ⟨hover, hbelow⟩⟩ := hfate
  · obtain ⟨it, hx, ht, _, hblock, hleft, _⟩ := hwaiting
    refine .inl ⟨?_, it, hx, ht, hblock⟩
    rw [← hleft]
    exact (turnBytesAt_le hfast hinv' hx ht).trans (hgood.within fast)
  · rcases hbelow with ⟨u, hu, ⟨⟨it, hx, ht, hblock, _⟩, _, _⟩, hlost⟩ | ⟨hnone, hlost⟩
    · refine .inr (.inl ⟨hover, ?_, it, hx, ?_, hblock⟩)
      · intro h
        have hsize : blockSizeBytes block ≤ s'.usedBytes u := by
          rw [← hblock, ← hinv'.sized hx, hinv'.used u, bytesOf_erase hx, if_pos ht]
          exact Nat.le_add_right _ _
        have hover := (hlost.mp h).1
        have hwithin := hgood.within u
        omega
      · rw [ht]
        intro heq
        rw [heq] at hu
        omega
    · exact .inr (.inr ⟨hover, hlost, hnone⟩)

end

end TieredKVCache.Storage
