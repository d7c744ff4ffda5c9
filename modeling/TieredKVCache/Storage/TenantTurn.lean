import TieredKVCache.Storage.Placement
import TieredKVCache.Storage.TenantOrder

/-!
# The turn of a promoted block with tenant weights

With tenant weights a promoted block is the newest one of its tenant in the fastest tier. A tenant
that this block alone puts over its share loses it after its other blocks, and after those of the
tenants that are served before it; `quotaLeft` is what is left then. Otherwise the quotas never
take the block: they bring every tenant down to its share (`withinShare`), and only then the
S3-FIFO queues decide. So the block stays in the fastest tier exactly if `tenantTurn` fits the
threshold (`TenantWaiting.stays_iff`).
-/

namespace TieredKVCache.Storage

open Lib Relation

section

variable {D : Type} [DoubleArith D] (config : TierConfig D) (fast : Tier)

/-- The bytes of the tenant of a block from the block on, by age. The waiting block, of `size` bytes
and of tenant `owner`, is the newest one and not among `blocks`. -/
def bytesFrom (owner : UInt32) (size : Nat) (blocks : AList fun _ : BlockKey => StoredBlock)
    (it : StoredBlock) : Nat :=
  (if it.entry.tenantId = owner then size else 0) +
    bytesOf (fun _ it' => it'.entry.tier = fast ∧ it'.entry.tenantId = it.entry.tenantId ∧
      it.entry.stats.lastAccessTs ≤ it'.entry.stats.lastAccessTs) blocks

/-- The quotas take the block before the waiting one. -/
def TakenBefore (owner : UInt32) (size : Nat) (blocks : AList fun _ : BlockKey => StoredBlock)
    (it : StoredBlock) : Prop :=
  it.entry.tenantId = owner ∨
    Beats config fast it.entry.tenantId (bytesFrom fast owner size blocks it) owner size

instance (owner : UInt32) (size : Nat) (blocks : AList fun _ : BlockKey => StoredBlock)
    (it : StoredBlock) : Decidable (TakenBefore config fast owner size blocks it) :=
  inferInstanceAs (Decidable (_ ∨ _))

/-- What is left when the quotas take the waiting block. -/
def quotaLeft (owner : UInt32) (size : Nat) (blocks : AList fun _ : BlockKey => StoredBlock) :
    Nat :=
  size + bytesOf (fun _ it => it.entry.tier = fast ∧
    ¬ TakenBefore config fast owner size blocks it) blocks

/-- The blocks that the quotas leave. -/
def withinShare (owner : UInt32) (size : Nat) (blocks : AList fun _ : BlockKey => StoredBlock) :
    AList fun _ : BlockKey => StoredBlock :=
  keep (fun _ it =>
    ¬ OverShare config fast it.entry.tenantId (bytesFrom fast owner size blocks it)) blocks

/-- What is left at the turn of a waiting block. -/
def tenantTurn (x : BlockKey) (itx : StoredBlock) (small main : List BlockKey)
    (blocks : AList fun _ : BlockKey => StoredBlock) : Nat :=
  if OverShare config fast itx.entry.tenantId itx.entry.sizeBytes then
    quotaLeft config fast itx.entry.tenantId itx.entry.sizeBytes blocks
  else turnBytes config fast x itx small main
    (withinShare config fast itx.entry.tenantId itx.entry.sizeBytes blocks)

/-- What is left at the turn of `x`, in a state. -/
def tenantTurnAt (x : BlockKey) (itx : StoredBlock) (s : State) : Nat :=
  tenantTurn config fast x itx s.s3SmallFifo s.s3MainFifo (s.blocks.erase x)

end

section

variable {D : Type} [DoubleArith D] {config : TierConfig D} {fast v : Tier} {x g k : BlockKey}
  {itx it itg : StoredBlock} {owner : UInt32} {size : Nat} {small main : List BlockKey}
  {blocks blocks' : AList fun _ : BlockKey => StoredBlock} {s s' s₁ : State}

/-! ## The blocks of the tier -/

theorem bytesFrom_congr (hm : ∀ k it, it.entry.tier = fast →
    (blocks.lookup k = some it ↔ blocks'.lookup k = some it)) (it : StoredBlock) :
    bytesFrom fast owner size blocks it = bytesFrom fast owner size blocks' it :=
  congrArg _ (bytesOf_congr_on fast hm (fun _ _ hp => hp.1) (fun _ _ hp => hp.1)
    fun _ _ _ _ => Iff.rfl)

/-- The turn depends on the blocks of the fastest tier alone. -/
theorem tenantTurn_congr (hfast : config.fastestTierCache = some fast)
    (hm : ∀ k it, it.entry.tier = fast →
      (blocks.lookup k = some it ↔ blocks'.lookup k = some it)) :
    tenantTurn config fast x itx small main blocks =
      tenantTurn config fast x itx small main blocks' := by
  unfold tenantTurn
  split
  next =>
    unfold quotaLeft TakenBefore
    congr 1
    refine bytesOf_congr_on fast hm (fun _ _ hp => hp.1) (fun _ _ hp => hp.1) fun k it _ _ => ?_
    rw [bytesFrom_congr hm it]
  next =>
    refine turnBytes_congr hfast fun k it ht => ?_
    unfold withinShare
    rw [lookup_keep, lookup_keep, hm k it ht, bytesFrom_congr hm it]

omit [DoubleArith D] in
theorem turnBytes_le (hfast : config.fastestTierCache = some fast) :
    turnBytes config fast x itx small main blocks ≤
      itx.entry.sizeBytes + bytesOf (fun _ it => it.entry.tier = fast) blocks := by
  unfold turnBytes restSmall
  split
  next => exact Nat.add_le_add_left (bytesOf_le fun _ _ _ hp => hp.1) _
  next =>
    split
    next => exact Nat.add_le_add_left (bytesOf_le fun _ _ _ hp => hp.1) _
    next =>
      refine Nat.add_le_add_left (bytesOf_le fun _ _ _ hp => ?_) _
      exact Option.some.inj (hp.1.1.symm.trans hfast)

/-- What is left at the turn is in the tier now. -/
theorem tenantTurnAt_le (hfast : config.fastestTierCache = some fast) (hinv : RepInv config s)
    (hx : s.blocks.lookup x = some itx) (htier : itx.entry.tier = fast) :
    tenantTurnAt config fast x itx s ≤ s.usedBytes fast := by
  rw [hinv.used fast, bytesOf_erase hx, if_pos htier]
  unfold tenantTurnAt tenantTurn
  split
  next => exact Nat.add_le_add_left (bytesOf_le fun _ _ _ hp => hp.1) _
  next => exact (turnBytes_le hfast).trans (Nat.add_le_add_left (sumOver_keep_le _ _ _) _)

/-- The bytes of a tenant, with the waiting block told apart. -/
theorem tenantBytes_eq (hx : s.blocks.lookup x = some itx) (htier : itx.entry.tier = fast)
    (tenant : UInt32) : tenantBytes fast tenant s =
      (if tenant = itx.entry.tenantId then itx.entry.sizeBytes else 0) +
        bytesOf (fun _ it => it.entry.tier = fast ∧ it.entry.tenantId = tenant)
          (s.blocks.erase x) := by
  rw [tenantBytes, bytesOf_erase hx]
  simp only [htier, true_and, eq_comm]

theorem bytesFrom_le (hx : s.blocks.lookup x = some itx) (htier : itx.entry.tier = fast)
    (it : StoredBlock) :
    bytesFrom fast itx.entry.tenantId itx.entry.sizeBytes (s.blocks.erase x) it ≤
      tenantBytes fast it.entry.tenantId s := by
  rw [tenantBytes_eq hx htier, bytesFrom]
  exact Nat.add_le_add_left (bytesOf_le fun _ _ _ hp => ⟨hp.1, hp.2.1⟩) _

/-- The oldest block of a tenant has all its bytes from there on. -/
theorem bytesFrom_of_oldest (hx : s.blocks.lookup x = some itx) (htier : itx.entry.tier = fast)
    (h : TenantVictim config fast g itg s) :
    bytesFrom fast itx.entry.tenantId itx.entry.sizeBytes (s.blocks.erase x) itg =
      tenantBytes fast itg.entry.tenantId s := by
  rw [tenantBytes_eq hx htier, bytesFrom]
  congr 1
  refine bytesOf_congr fun k it hk => ?_
  rw [← and_assoc]
  exact and_iff_left_of_imp fun hp => h.oldest k it (lookup_others hk) hp.1 hp.2

/-- The bytes from a younger block on do not change when the oldest one goes. -/
theorem bytesFrom_erase_oldest (hinv : RepInv config s) (h : TenantVictim config fast g itg s)
    (hgx : (s.blocks.erase x).lookup g = some itg)
    (hk : (s.blocks.erase x).lookup k = some it) (ht : it.entry.tier = fast) (hne : k ≠ g) :
    bytesFrom fast owner size ((s.blocks.erase x).erase g) it =
      bytesFrom fast owner size (s.blocks.erase x) it := by
  unfold bytesFrom
  congr 1
  refine bytesOf_drop hgx ?_ fun _ _ _ _ => Iff.rfl
  rintro ⟨-, htenant, hle⟩
  have hk := lookup_others hk
  have hge := h.oldest k it hk ht htenant.symm
  exact hne (hinv.stampInj hk h.found (Nat.le_antisymm hle hge))

/-! ## The quotas -/

/-- Taking the quota victim leaves the turn of the waiting block as it is. -/
theorem TenantVictim.turn_eq (hsizes : OrderedSizes D)
    (hfast : config.fastestTierCache = some fast) (hinv : RepInv config s)
    (hx : s.blocks.lookup x = some itx) (htier : itx.entry.tier = fast) (hg : g ≠ x)
    (h : TenantVictim config fast g itg s) :
    tenantTurn config fast x itx small main ((s.blocks.erase x).erase g) =
      tenantTurn config fast x itx small main (s.blocks.erase x) := by
  have hgx : (s.blocks.erase x).lookup g = some itg := (AList.lookup_erase_ne hg).trans h.found
  have hbytes := bytesFrom_of_oldest hx htier h
  have hsame {k : BlockKey} {it : StoredBlock} (hne : k ≠ g)
      (hk : (s.blocks.erase x).lookup k = some it) (ht : it.entry.tier = fast) :
      bytesFrom fast itx.entry.tenantId itx.entry.sizeBytes ((s.blocks.erase x).erase g) it =
        bytesFrom fast itx.entry.tenantId itx.entry.sizeBytes (s.blocks.erase x) it :=
    bytesFrom_erase_oldest hinv h hgx hk ht hne
  unfold tenantTurn
  split
  next hover =>
    unfold quotaLeft
    congr 1
    refine bytesOf_drop hgx ?_ fun k it hne hk => and_congr_right fun ht => not_congr ?_
    · refine fun hleft => hleft.2 ?_
      by_cases htenant : itg.entry.tenantId = itx.entry.tenantId
      · exact .inl htenant
      · refine .inr ?_
        rw [hbytes]
        refine (h.first x itx hx htier (Ne.symm htenant)).anti hsizes ?_
        rw [tenantBytes_eq hx htier, if_pos rfl]
        exact Nat.le_add_right _ _
    · rw [TakenBefore, TakenBefore, hsame hne hk ht]
  next =>
    refine turnBytes_congr hfast fun k it ht => ?_
    unfold withinShare
    rw [lookup_keep, lookup_keep, lookup_erase_eq_some]
    constructor
    · rintro ⟨⟨hne, hk⟩, hshare⟩
      rw [hsame hne hk ht] at hshare
      exact ⟨hk, hshare⟩
    · rintro ⟨hk, hshare⟩
      have hne : k ≠ g := by
        intro heq
        subst heq
        cases hk.symm.trans hgx
        rw [hbytes] at hshare
        exact hshare h.exceeds
      refine ⟨⟨hne, hk⟩, ?_⟩
      rw [hsame hne hk ht]
      exact hshare

/-- No tenant is over its share in the tier. -/
def UnderShare (config : TierConfig D) (fast : Tier) (s : State) : Prop :=
  ∀ k it, s.blocks.lookup k = some it → it.entry.tier = fast →
    ¬ OverShare config fast it.entry.tenantId (tenantBytes fast it.entry.tenantId s)

/-- Where no tenant is over its share, the queues decide. -/
theorem UnderShare.tenantTurnAt_eq (hunder : UnderShare config fast s) (hsizes : OrderedSizes D)
    (hfast : config.fastestTierCache = some fast) (hx : s.blocks.lookup x = some itx)
    (htier : itx.entry.tier = fast) :
    tenantTurnAt config fast x itx s = turnBytesAt config fast x itx s := by
  have hshare {k : BlockKey} {it : StoredBlock} (hk : s.blocks.lookup k = some it)
      (ht : it.entry.tier = fast) {bytes : Nat}
      (hle : bytes ≤ tenantBytes fast it.entry.tenantId s) :
      ¬ OverShare config fast it.entry.tenantId bytes := fun hover =>
    hunder k it hk ht (hover.mono hsizes hle)
  have hnot : ¬ OverShare config fast itx.entry.tenantId itx.entry.sizeBytes := by
    refine hshare hx htier ?_
    rw [tenantBytes_eq hx htier, if_pos rfl]
    exact Nat.le_add_right _ _
  unfold tenantTurnAt tenantTurn
  rw [if_neg hnot]
  refine turnBytes_congr hfast fun k it ht => ?_
  unfold withinShare
  rw [lookup_keep]
  exact and_iff_left_of_imp fun hk => hshare (lookup_others hk) ht (bytesFrom_le hx htier it)

/-- An eviction puts no tenant over its share. -/
theorem UnderShare.evicted (hunder : UnderShare config fast s) (hsizes : OrderedSizes D)
    (hkey : itg.block.key = g) (hplaced : config.configured fast = true)
    (hblocks : s₁.blocks = s.blocks) :
    UnderShare config fast (evicted .lazy config fast g itg s₁) := by
  intro k it hk ht hover
  obtain ⟨-, hk⟩ := evicted_lookup_in hkey hplaced hk ht
  refine hunder k it (hblocks ▸ hk) ht (hover.mono hsizes ?_)
  have hbytes : tenantBytes fast it.entry.tenantId (Storage.evicted .lazy config fast g itg s₁) =
      bytesOf (fun _ it' => it'.entry.tier = fast ∧ it'.entry.tenantId = it.entry.tenantId)
        (s₁.blocks.erase g) :=
    bytesOf_congr_on fast (fun _ _ ht => evicted_lookup_iff hkey hplaced ht)
      (fun _ _ hp => hp.1) (fun _ _ hp => hp.1) fun _ _ _ _ => Iff.rfl
  rw [hbytes, hblocks]
  exact bytesOf_erase_le _ _ _

/-- The newest block of its tenant is its last one when the quotas take it; then all that is in the
tier is left. -/
theorem TenantVictim.tenantTurnAt_self (hsizes : OrderedSizes D) (hinv : RepInv config s)
    (hnewest : ∀ k it, s.blocks.lookup k = some it → it.entry.tier = fast →
      it.entry.tenantId = itx.entry.tenantId →
        it.entry.stats.lastAccessTs ≤ itx.entry.stats.lastAccessTs)
    (h : TenantVictim config fast x itx s) :
    tenantTurnAt config fast x itx s = s.usedBytes fast := by
  have halone {k : BlockKey} {it : StoredBlock} (hk : s.blocks.lookup k = some it)
      (ht : it.entry.tier = fast) (htenant : it.entry.tenantId = itx.entry.tenantId) : k = x :=
    hinv.stampInj hk h.found
      (Nat.le_antisymm (hnewest k it hk ht htenant) (h.oldest k it hk ht htenant))
  have hbytes : tenantBytes fast itx.entry.tenantId s = itx.entry.sizeBytes := by
    rw [tenantBytes_eq h.found h.tier, if_pos rfl, bytesOf, sumOver_eq_zero]
    · rfl
    · intro k it hk
      refine if_neg fun hp => ?_
      obtain ⟨hne, hk⟩ := lookup_erase_eq_some.mp hk
      exact hne (halone hk hp.1 hp.2)
  have hover := h.exceeds
  rw [hbytes] at hover
  unfold tenantTurnAt tenantTurn
  rw [if_pos hover, hinv.used fast, bytesOf_erase h.found, if_pos h.tier, quotaLeft]
  congr 1
  refine bytesOf_congr fun k it hk => and_iff_left_of_imp fun ht => ?_
  obtain ⟨hne, hk'⟩ := lookup_erase_eq_some.mp hk
  rintro (htenant | hbeats)
  · exact hne (halone hk' ht htenant)
  · have hfirst := h.first k it hk' ht fun htenant => hne (halone hk' ht htenant)
    rw [hbytes] at hfirst
    exact hfirst.asymm hsizes (hbeats.mono hsizes (bytesFrom_le h.found h.tier it))

/-! ## Waiting -/

/-- The block waits for its turn in the fastest tier, as the newest one there. -/
def TenantWaiting (config : TierConfig D) (fast : Tier) (x : BlockKey) (block : KVCacheBlock)
    (left : Nat) (s : State) : Prop :=
  ∃ it, s.blocks.lookup x = some it ∧ it.entry.tier = fast ∧ it.s3Freq = 0 ∧ it.block = block ∧
    tenantTurnAt config fast x it s = left ∧
    ∀ k it', s.blocks.lookup k = some it' → it'.entry.tier = fast →
      it'.entry.stats.lastAccessTs ≤ it.entry.stats.lastAccessTs

/-- The block is not in the tier. -/
def NotIn (fast : Tier) (x : BlockKey) (s : State) : Prop :=
  ∀ it, s.blocks.lookup x = some it → it.entry.tier ≠ fast

omit [DoubleArith D] in
/-- A round of the scan changes no entry. -/
theorem S3Step.entry_of_lookup (h : S3Step config fast s (.inl s'))
    (hk : s'.blocks.lookup k = some it) :
    ∃ it', s.blocks.lookup k = some it' ∧ it'.entry = it.entry := by
  have hinsert {key : BlockKey} {it₀ it₁ : StoredBlock} (h : s.blocks.lookup key = some it₀)
      (hk : (s.blocks.insert key it₁).lookup k = some it) (hentry : it₀.entry = it₁.entry) :
      ∃ it', s.blocks.lookup k = some it' ∧ it'.entry = it.entry :=
    of_lookup_insert hk ⟨it₀, h, hentry⟩ fun hk => ⟨_, hk, rfl⟩
  cases h with
  | staleSmall => exact ⟨it, hk, rfl⟩
  | staleMain => exact ⟨it, hk, rfl⟩
  | promote hfrom hq h hlive hfreq => exact hinsert h hk rfl
  | second hfrom hq h hlive hfreq => exact hinsert h hk rfl

theorem NotIn.step (hinv : RepInv config s) (h : NotIn fast x s) (hv : fast.toNat ≤ v.toNat)
    (hstep : EnforceStep .lazy config v s s') : NotIn fast x s' := by
  intro it hk ht
  rcases Nat.eq_or_lt_of_le hv with heq | hlt
  · obtain rfl := Tier.toNat_injective heq
    cases hstep with
    | scan hover hfast hscan =>
      obtain ⟨it', hk', hentry⟩ := hscan.entry_of_lookup hk
      exact h it' hk' (hentry ▸ ht)
    | @evict g itg s₁ hover hpick hg htg =>
      have hinv₁ := hpick.repInv hinv
      obtain ⟨-, hk⟩ := evicted_lookup_in (hinv₁.keyed hg).2 (htg ▸ hinv₁.placed hg) hk ht
      exact h it (hpick.blocks ▸ hk) ht
  · exact h it ((hstep.sameIn hinv hlt x it ht).mpr hk) ht

omit [DoubleArith D] in
/-- The scan pops another block. -/
theorem turnBytesAt_evicted (hfast : config.fastestTierCache = some fast) (hinv : RepInv config s)
    (hx : s.blocks.lookup x = some itx) (htier : itx.entry.tier = fast) (hg : g ≠ x)
    (hkey : itg.block.key = g) (hplaced : config.configured fast = true)
    (hpop : S3Step config fast s (.inr (some g, s₁))) (hblocks : s'.blocks = s.blocks)
    (hsmall : s'.s3SmallFifo = s₁.s3SmallFifo) (hmain : s'.s3MainFifo = s₁.s3MainFifo)
    (hfound : s'.blocks.lookup g = some itg) :
    turnBytesAt config fast x itx (evicted .lazy config fast g itg s') =
      turnBytesAt config fast x itx s := by
  obtain ⟨hsmall', hmain'⟩ := evicted_queues .lazy hfound hplaced
  rw [leaveQueue_lazy, hsmall] at hsmall'
  rw [leaveQueue_lazy, hmain] at hmain'
  rw [← hpop.turnBytes_victim hfast hinv hx htier hg, turnBytesAt, hsmall', hmain']
  refine turnBytes_congr hfast fun k it ht => ?_
  rw [lookup_erase_eq_some, evicted_lookup_iff hkey hplaced ht, hblocks, lookup_erase_eq_some,
    lookup_erase_eq_some, lookup_erase_eq_some]
  exact and_left_comm

/-- A waiting block stays, or it is evicted because what is left at its turn is over the
threshold. -/
theorem TenantWaiting.step {block : KVCacheBlock} {left : Nat} (hsizes : OrderedSizes D)
    (hq : config.quotaEnabledLocked = true) (hfast : config.fastestTierCache = some fast)
    (hinv : RepInv config s) (h : TenantWaiting config fast x block left s)
    (hv : fast.toNat ≤ v.toNat) (hstep : EnforceStep .lazy config v s s') :
    TenantWaiting config fast x block left s' ∨
      config.evictionThresholdOf fast < left ∧ NotIn fast x s' := by
  obtain ⟨it, hx, ht, hfreq, hblock, rfl, hnewest⟩ := h
  have hinv' := hstep.repInv hinv
  rcases Nat.eq_or_lt_of_le hv with heq | hgt
  · obtain rfl := Tier.toNat_injective heq
    cases hstep with
    | scan hover _ hscan hunder =>
      have hx' := hscan.waiting hx hfreq
      have hbefore : UnderShare config fast s := fun _ _ hk ht =>
        hunder.not_overShare hsizes hinv hq hk ht
      have hafter : UnderShare config fast s' := fun _ _ hk ht =>
        (hscan.noQuotaVictim hunder).not_overShare hsizes hinv' hq hk ht
      refine .inl ⟨it, hx', ht, hfreq, hblock, ?_, fun k it' hk ht' => ?_⟩
      · rw [hafter.tenantTurnAt_eq hsizes hfast hx' ht, hbefore.tenantTurnAt_eq hsizes hfast hx ht,
          hscan.turnBytesAt_eq hfast hinv hx ht hfreq]
      · obtain ⟨it₀, hk₀, hentry⟩ := hscan.entry_of_lookup hk
        rw [← hentry] at ht' ⊢
        exact hnewest k it₀ hk₀ ht'
    | @evict g itg s₁ hover hpick hg htg =>
      have hinv₁ := hpick.repInv hinv
      have hkey := (hinv₁.keyed hg).2
      have hplaced : config.configured fast = true := htg ▸ hinv₁.placed hg
      have hblocks := hpick.blocks
      have hgone : NotIn fast g (evicted .lazy config fast g itg s₁) := fun it' hk ht' =>
        (evicted_lookup_in hkey hplaced hk ht').1 rfl
      have hnewest' (k : BlockKey) (it' : StoredBlock)
          (hk : (evicted .lazy config fast g itg s₁).blocks.lookup k = some it')
          (ht' : it'.entry.tier = fast) :
          it'.entry.stats.lastAccessTs ≤ it.entry.stats.lastAccessTs :=
        hnewest k it' (hblocks ▸ (evicted_lookup_in hkey hplaced hk ht').2) ht'
      have hx' (hne : g ≠ x) :
          (evicted .lazy config fast g itg s₁).blocks.lookup x = some it := by
        rw [evicted_lookup_of_ne hkey hplaced (Ne.symm hne), hblocks]
        exact hx
      cases hpick with
      | oldest hslow _ => exact absurd hfast hslow
      | quota _ hpick =>
        obtain ⟨itv, hvictim⟩ := tenantVictim_of_pick hsizes hinv hq hpick
        by_cases hgx : g = x
        · subst hgx
          cases hvictim.found.symm.trans hx
          refine .inr ⟨?_, hgone⟩
          rw [hvictim.tenantTurnAt_self hsizes hinv fun k it' hk ht' _ => hnewest k it' hk ht']
          exact hover
        · refine .inl ⟨it, hx' hgx, ht, hfreq, hblock, ?_, hnewest'⟩
          obtain ⟨hsmall, hmain⟩ := evicted_queues .lazy hg hplaced
          rw [leaveQueue_lazy] at hsmall hmain
          rw [tenantTurnAt, tenantTurnAt, hsmall, hmain,
            ← hvictim.turn_eq hsizes hfast hinv hx ht hgx]
          refine tenantTurn_congr hfast fun k it' ht' => ?_
          rw [lookup_erase_eq_some, evicted_lookup_iff hkey hplaced ht', lookup_erase_eq_some,
            lookup_erase_eq_some, lookup_erase_eq_some]
          exact and_left_comm
      | popped _ hpop hunder =>
        have hbefore : UnderShare config fast s := fun _ _ hk ht =>
          hunder.not_overShare hsizes hinv hq hk ht
        have hturn := hbefore.tenantTurnAt_eq hsizes hfast hx ht
        by_cases hgx : g = x
        · subst hgx
          refine .inr ⟨?_, hgone⟩
          rw [hturn, hpop.turnBytesAt_turn hfast hinv hx ht]
          exact hover
        · refine .inl ⟨it, hx' hgx, ht, hfreq, hblock, ?_, hnewest'⟩
          have hafter := hbefore.evicted hsizes hkey hplaced hblocks
          rw [hafter.tenantTurnAt_eq hsizes hfast (hx' hgx) ht, hturn]
          exact turnBytesAt_evicted hfast hinv hx ht hgx hkey hplaced hpop hblocks rfl rfl hg
  · have hsame := hstep.sameIn hinv hgt
    have hslow : config.fastestTierCache ≠ some v := by
      rw [hfast]
      intro heq
      cases heq
      omega
    obtain ⟨hsmall, hmain⟩ := hstep.queues hinv hslow
    refine .inl ⟨it, (hsame x it ht).mp hx, ht, hfreq, hblock, ?_, fun k it' hk ht' => ?_⟩
    · rw [tenantTurnAt, tenantTurnAt, hsmall, hmain]
      refine tenantTurn_congr hfast fun k it' ht' => ?_
      rw [lookup_erase_eq_some, lookup_erase_eq_some, hsame k it' ht']
    · exact hnewest k it' ((hsame k it' ht').mpr hk) ht'

/-- **The turn of a waiting block.** It stays in the fastest tier exactly if what is left at its
turn fits the threshold. -/
theorem TenantWaiting.stays_iff {block : KVCacheBlock} {left : Nat} (hsizes : OrderedSizes D)
    (hq : config.quotaEnabledLocked = true) (hfast : config.fastestTierCache = some fast)
    (hinv : RepInv config s) (h : TenantWaiting config fast x block left s)
    (hsteps : EnforceSteps .lazy config fast s s') (hgood : Good config s') :
    (∃ it, s'.blocks.lookup x = some it ∧ it.entry.tier = fast ∧ it.block = block) ↔
      left ≤ config.evictionThresholdOf fast := by
  have hfate : RepInv config s' ∧ (TenantWaiting config fast x block left s' ∨
      config.evictionThresholdOf fast < left ∧ NotIn fast x s') := by
    refine hsteps.invariant (P := fun a => RepInv config a ∧
      (TenantWaiting config fast x block left a ∨
        config.evictionThresholdOf fast < left ∧ NotIn fast x a)) ?_ ⟨hinv, .inl h⟩
    intro u a b hu ⟨hinv, hfate⟩ hstep
    refine ⟨hstep.repInv hinv, ?_⟩
    rcases hfate with hwaiting | ⟨hover, hgone⟩
    · exact hwaiting.step hsizes hq hfast hinv hu hstep
    · exact .inr ⟨hover, hgone.step hinv hu hstep⟩
  obtain ⟨hinv', ⟨it, hx, ht, _, hblock, rfl, _⟩ | ⟨hover, hgone⟩⟩ := hfate
  · refine iff_of_true ⟨it, hx, ht, hblock⟩ ?_
    exact (tenantTurnAt_le hfast hinv' hx ht).trans (hgood.within fast)
  · exact iff_of_false (fun ⟨it, hx, ht, _⟩ => hgone it hx ht) (Nat.not_le_of_lt hover)

/-! ## The state before the read -/

/-- The bytes left at the turn of a block that a read promotes, with tenant weights. -/
def tenantPromoteLeft (config : TierConfig D) (fast : Tier) (key : BlockKey) (it : StoredBlock)
    (s : State) : Nat :=
  let owner := it.entry.tenantId
  let size := it.entry.sizeBytes
  let blocks := s.blocks.erase key
  if OverShare config fast owner size then quotaLeft config fast owner size blocks
  else size + restMain config fast key s.s3SmallFifo s.s3MainFifo
    (withinShare config fast owner size blocks)

/-- A block that a read promotes waits for its turn. -/
theorem promotedState_tenantWaiting (hfast : config.fastestTierCache = some fast)
    (hgood : Good config s) (x : BlockKey) (it : StoredBlock) :
    TenantWaiting config fast x it.block (tenantPromoteLeft config fast x it s)
      (promotedState .lazy config x it fast s) := by
  have hblocks : (promotedState .lazy config x it fast s).blocks = _ :=
    promotedState_blocks hfast x it s
  refine ⟨promoted x fast (touched it s.logicalClock), ?_, rfl, rfl, rfl, ?_, ?_⟩
  · rw [hblocks, AList.lookup_insert]
  · unfold tenantTurnAt
    rw [hblocks, erase_insert, promotedState, promoteLocked_eq hfast]
    rw [(enter_queues hfast).1, (enter_queues hfast).2]
    simp only [removeLocked_s3SmallFifo_lazy, removeLocked_s3MainFifo_lazy]
    by_cases hover : OverShare config fast it.entry.tenantId it.entry.sizeBytes
    · exact (if_pos hover).trans (if_pos hover).symm
    · refine (if_neg hover).trans (Eq.trans ?_ (if_neg hover).symm)
      exact (turnBytes_enqueue _ _ _).trans (if_pos rfl)
  · intro k it' hk _
    rw [hblocks] at hk
    refine of_lookup_insert hk (Nat.le_refl _) fun {_ v} hk => ?_
    exact (hgood.inv.stampLe hk).trans (Nat.le_succ _)

end

end TieredKVCache.Storage
