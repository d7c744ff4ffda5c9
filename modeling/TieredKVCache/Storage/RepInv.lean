import TieredKVCache.Storage.Updates

/-!
# The representation invariant

`RepInv` says that every mirrored structure of the manager is the function of the block map
it is meant to be: byte counters, victim indexes, the byte count of the small queue, tenant
accounts. Between popping a victim and removing it, one key may be missing from the queues
of the fastest tier: `RepInvExcept` leaves that key out. The invariant is kept by the three
updates of the block map (`leave`, `enter`, `retouch`).
-/

namespace TieredKVCache.Storage

open Lib

structure RepInvExcept {D : Type} (config : TierConfig D) (except : Option BlockKey)
    (s : State) : Prop where
  keyed : ∀ {k it}, s.blocks.lookup k = some it → it.entry.key = k ∧ it.block.key = k
  placed : ∀ {k it}, s.blocks.lookup k = some it → config.configured it.entry.tier = true
  sized : ∀ {k it}, s.blocks.lookup k = some it → it.entry.sizeBytes = blockSizeBytes it.block
  counted : ∀ {k it}, s.blocks.lookup k = some it → 1 ≤ it.entry.stats.accessCount
  used : ∀ t, s.usedBytes t = bytesOf (fun _ it => it.entry.tier = t) s.blocks
  /-- In particular the index of the fastest tier is empty. -/
  index : ∀ t, Indexes (fun it => config.fastestTierCache ≠ some t ∧ it.entry.tier = t)
    s.blocks (s.victimIndex t)
  smallUsed : s.s3SmallUsedBytes = bytesOf (fun _ it => InSmall config it) s.blocks
  queued : ∀ {k it}, s.blocks.lookup k = some it →
    config.fastestTierCache = some it.entry.tier → except ≠ some k →
      k ∈ if it.s3InMain then s.s3MainFifo else s.s3SmallFifo
  tenantUsed : config.quotaEnabledLocked = true → ∀ t tenant,
    tenantUsedAt s.tenantUsed t tenant =
      bytesOf (fun _ it => it.entry.tier = t ∧ it.entry.tenantId = tenant) s.blocks
  tenantIndex : config.quotaEnabledLocked = true → ∀ t tenant,
    Indexes (fun it => it.entry.tier = t ∧ it.entry.tenantId = tenant) s.blocks
      (tenantIndexAt s.tenantVictimIndex t tenant)
  stampLe : ∀ {k it}, s.blocks.lookup k = some it → it.entry.stats.lastAccessTs ≤ s.logicalClock
  stampInj : ∀ {k k' it it'}, s.blocks.lookup k = some it → s.blocks.lookup k' = some it' →
    it.entry.stats.lastAccessTs = it'.entry.stats.lastAccessTs → k = k'

/-- The representation invariant. -/
abbrev RepInv {D : Type} (config : TierConfig D) (s : State) : Prop := RepInvExcept config none s

section

variable {D : Type} {config : TierConfig D} {inval : Invalidation} {except : Option BlockKey}
  {key : BlockKey} {it it' : StoredBlock} {s : State}

theorem repInv_fresh (config : TierConfig D) : RepInv config State.fresh where
  keyed h := by simp [State.fresh] at h
  placed h := by simp [State.fresh] at h
  sized h := by simp [State.fresh] at h
  counted h := by simp [State.fresh] at h
  used _ := rfl
  index _ := indexes_empty _
  smallUsed := rfl
  queued h := by simp [State.fresh] at h
  tenantUsed _ _ _ := rfl
  tenantIndex _ _ _ := indexes_empty _
  stampLe h := by simp [State.fresh] at h
  stampInj h := by simp [State.fresh] at h

/-- No operation of the manager reads the ghost queue or the history to keep the
invariant, and the clock may run ahead. -/
theorem RepInvExcept.tick (hinv : RepInvExcept config except s) (clock : Nat)
    (hclock : s.logicalClock ≤ clock) (ghost : Finset BlockKey) (ghostFifo : List BlockKey)
    (s3Victims : List (Option BlockKey)) :
    RepInvExcept config except
      { s with logicalClock := clock, ghost := ghost, ghostFifo := ghostFifo,
               s3Victims := s3Victims } :=
  { hinv with stampLe := fun h => (hinv.stampLe h).trans hclock }

/-! ## Leaving -/

theorem RepInvExcept.leave (hinv : RepInvExcept config except s)
    (hexcept : ∀ k, except = some k → k = key) (h : s.blocks.lookup key = some it) :
    RepInv config (removeLocked config inval key s) := by
  have hkey : it.entry.key = key := (hinv.keyed h).1
  have hold {k : BlockKey} {it' : StoredBlock} (hk : (s.blocks.erase key).lookup k = some it') :=
    lookup_erase_eq_some.mp hk
  rw [removeLocked_eq h]
  refine
    { keyed := fun hk => hinv.keyed (hold hk).2
      placed := fun hk => hinv.placed (hold hk).2
      sized := fun hk => hinv.sized (hold hk).2
      counted := fun hk => hinv.counted (hold hk).2
      used := ?used
      index := ?index
      smallUsed := ?smallUsed
      queued := ?queued
      tenantUsed := ?tenantUsed
      tenantIndex := ?tenantIndex
      stampLe := fun hk => hinv.stampLe (hold hk).2
      stampInj := fun hk hk' => hinv.stampInj (hold hk).2 (hold hk').2 }
  case used =>
    intro t
    have hbytes := (hinv.used t).trans (bytesOf_erase h)
    dsimp only
    by_cases ht : t = it.entry.tier
    · subst ht
      rw [Function.update_self, hbytes, if_pos rfl, Nat.add_sub_cancel_left]
    · rw [Function.update_of_ne ht, hbytes, if_neg (Ne.symm ht), Nat.zero_add]
  case index =>
    intro t
    have hidx := hinv.index t
    subst hkey
    by_cases hfast : config.fastestTierCache = some it.entry.tier
    · dsimp only
      rw [if_pos hfast]
      apply hidx.erase_of_not h
      intro ⟨hne, ht⟩
      exact hne (ht ▸ hfast)
    · dsimp only [indexEraseLocked]
      rw [if_neg hfast]
      by_cases ht : t = it.entry.tier
      · subst ht
        rw [Function.update_self]
        exact hidx.erase h
      · rw [Function.update_of_ne ht]
        exact hidx.erase_of_not h (fun hp => ht hp.2.symm)
  case smallUsed =>
    have hbytes := hinv.smallUsed.trans (bytesOf_erase h)
    dsimp only
    split
    next hsmall => rw [hbytes, if_pos hsmall, Nat.add_sub_cancel_left]
    next hsmall => rw [hbytes, if_neg hsmall, Nat.zero_add]
  case queued =>
    intro k it' hk hfast _
    obtain ⟨hne, hk⟩ := hold hk
    have hmem := hinv.queued hk hfast (fun heq => hne (hexcept k heq))
    split at hmem
    next hmain => rwa [if_pos hmain, mem_leaveQueue hne]
    next hmain => rwa [if_neg hmain, mem_leaveQueue hne]
  case tenantUsed =>
    intro hq t tenant
    have hbytes := (hinv.tenantUsed hq t tenant).trans (bytesOf_erase h)
    dsimp only
    rw [tenantUsedAt_accountErase hq, hbytes, Nat.add_sub_cancel_left]
  case tenantIndex =>
    intro hq t tenant
    have hidx := hinv.tenantIndex hq t tenant
    refine Indexes.congr ?_ (mem_tenantIndexAt_accountErase hq t tenant)
    subst hkey
    dsimp only
    split
    next => exact hidx.erase h
    next hp => exact hidx.erase_of_not h hp

/-! ## Entering -/

/-- What a stored block has to satisfy to enter: its entry describes it, and its stamp is
new. -/
structure Enters (config : TierConfig D) (it : StoredBlock) (s : State) : Prop where
  absent : s.blocks.lookup it.entry.key = none
  keyed : it.block.key = it.entry.key
  placed : config.configured it.entry.tier = true
  sized : it.entry.sizeBytes = blockSizeBytes it.block
  counted : 1 ≤ it.entry.stats.accessCount
  stampLe : it.entry.stats.lastAccessTs ≤ s.logicalClock
  stampNew : ∀ {k it'}, s.blocks.lookup k = some it' →
    it'.entry.stats.lastAccessTs ≠ it.entry.stats.lastAccessTs

/-- A new stamp leaves the stamps distinct. -/
theorem stampInj_insert {blocks : AList fun _ : BlockKey => StoredBlock}
    (hinj : ∀ {k k' it it'}, blocks.lookup k = some it → blocks.lookup k' = some it' →
      it.entry.stats.lastAccessTs = it'.entry.stats.lastAccessTs → k = k')
    (hnew : ∀ {k it'}, blocks.lookup k = some it' →
      it'.entry.stats.lastAccessTs ≠ it.entry.stats.lastAccessTs)
    {k k' : BlockKey} {it₁ it₂ : StoredBlock} (hk : (blocks.insert key it).lookup k = some it₁)
    (hk' : (blocks.insert key it).lookup k' = some it₂)
    (hts : it₁.entry.stats.lastAccessTs = it₂.entry.stats.lastAccessTs) : k = k' := by
  rcases lookup_insert_eq_some.mp hk with ⟨rfl, rfl⟩ | ⟨_, hold⟩ <;>
    rcases lookup_insert_eq_some.mp hk' with ⟨rfl, rfl⟩ | ⟨_, hold'⟩
  · rfl
  · exact absurd hts.symm (hnew hold')
  · exact absurd hts (hnew hold)
  · exact hinj hold hold' hts

theorem RepInvExcept.enter (hinv : RepInv config s) (hit : Enters config it s) :
    RepInv config (enter config it s) := by
  refine
    { keyed := fun hk => of_lookup_insert hk ⟨rfl, hit.keyed⟩ hinv.keyed
      placed := fun hk => of_lookup_insert hk hit.placed hinv.placed
      sized := fun hk => of_lookup_insert hk hit.sized hinv.sized
      counted := fun hk => of_lookup_insert hk hit.counted hinv.counted
      used := ?used
      index := ?index
      smallUsed := ?smallUsed
      queued := ?queued
      tenantUsed := ?tenantUsed
      tenantIndex := ?tenantIndex
      stampLe := fun hk => of_lookup_insert hk hit.stampLe hinv.stampLe
      stampInj := stampInj_insert hinv.stampInj hit.stampNew }
  case used =>
    intro t
    show Function.update s.usedBytes it.entry.tier _ t = bytesOf _ (s.blocks.insert _ it)
    rw [bytesOf_insert_of_none hit.absent, ← hinv.used t]
    by_cases ht : t = it.entry.tier
    · subst ht
      rw [Function.update_self, if_pos rfl, Nat.add_comm]
    · rw [Function.update_of_ne ht, if_neg (Ne.symm ht), Nat.zero_add]
  case index =>
    intro t
    have hidx := hinv.index t
    by_cases hfast : config.fastestTierCache = some it.entry.tier
    · dsimp only [Storage.enter]
      rw [if_pos hfast]
      apply hidx.insert_of_not hit.absent
      intro ⟨hne, ht⟩
      exact hne (ht ▸ hfast)
    · dsimp only [Storage.enter, indexInsertLocked]
      rw [if_neg hfast]
      by_cases ht : t = it.entry.tier
      · subst ht
        rw [Function.update_self]
        exact hidx.insert hit.absent ⟨hfast, rfl⟩
      · rw [Function.update_of_ne ht]
        exact hidx.insert_of_not hit.absent (fun hp => ht hp.2.symm)
  case smallUsed =>
    simp only [Storage.enter]
    rw [bytesOf_insert_of_none hit.absent, ← hinv.smallUsed]
    split
    · exact Nat.add_comm _ _
    · exact (Nat.zero_add _).symm
  case queued =>
    intro k it' hk hfast _
    simp only [Storage.enter]
    rcases lookup_insert_eq_some.mp hk with ⟨rfl, rfl⟩ | ⟨_, hk⟩
    · cases hmain : it'.s3InMain <;> simp [InSmall, InMain, hfast, hmain]
    · have hmem := hinv.queued hk hfast (by simp)
      split at hmem
      next hmain =>
        rw [if_pos hmain]
        split
        · exact List.mem_append_left _ hmem
        · exact hmem
      next hmain =>
        rw [if_neg hmain]
        split
        · exact List.mem_append_left _ hmem
        · exact hmem
  case tenantUsed =>
    intro hq t tenant
    simp only [Storage.enter]
    rw [tenantUsedAt_accountInsert hq, bytesOf_insert_of_none hit.absent,
      hinv.tenantUsed hq t tenant]
  case tenantIndex =>
    intro hq t tenant
    have hidx := hinv.tenantIndex hq t tenant
    refine Indexes.congr ?_ (mem_tenantIndexAt_accountInsert hq t tenant)
    simp only [Storage.enter]
    split
    next hp => exact hidx.insert hit.absent hp
    next hp => exact hidx.insert_of_not hit.absent hp

/-! ## Stamping anew -/

theorem RepInvExcept.retouch {count : Nat} (hinv : RepInv config s)
    (h : s.blocks.lookup key = some it) (hcount : 1 ≤ count)
    (hentry : it'.entry = { it.entry with stats := ⟨count, s.logicalClock + 1⟩ })
    (hblock : it'.block = it.block) (hmain : it'.s3InMain = it.s3InMain) :
    RepInv config (retouch config key it it' s) := by
  have hkey := hinv.keyed h
  have htier : it'.entry.tier = it.entry.tier := by rw [hentry]
  have htenant : it'.entry.tenantId = it.entry.tenantId := by rw [hentry]
  have hsize : it'.entry.sizeBytes = it.entry.sizeBytes := by rw [hentry]
  have hkey' : it'.entry.key = key := by rw [hentry]; exact hkey.1
  have hsmall : InSmall config it' ↔ InSmall config it := by
    unfold InSmall
    rw [htier, hmain]
  have hclock : it'.entry.stats = ⟨count, s.logicalClock + 1⟩ := by rw [hentry]
  have hnew {k : BlockKey} {it₀ : StoredBlock} (hk : s.blocks.lookup k = some it₀) :
      it₀.entry.stats.lastAccessTs ≠ it'.entry.stats.lastAccessTs := by
    rw [hclock]
    exact Nat.ne_of_lt (Nat.lt_succ_of_le (hinv.stampLe hk))
  refine
    { keyed := fun hk => of_lookup_insert hk ⟨hkey', hblock ▸ hkey.2⟩ hinv.keyed
      placed := fun hk => of_lookup_insert hk (htier ▸ hinv.placed h) hinv.placed
      sized := fun hk => of_lookup_insert hk (by rw [hsize, hblock, hinv.sized h]) hinv.sized
      counted := fun hk => of_lookup_insert hk (by rwa [hclock]) hinv.counted
      used := ?used
      index := ?index
      smallUsed := ?smallUsed
      queued := ?queued
      tenantUsed := ?tenantUsed
      tenantIndex := ?tenantIndex
      stampLe := fun hk => of_lookup_insert hk (by rw [hclock]; exact Nat.le_refl _) fun hk =>
        (hinv.stampLe hk).trans (Nat.le_succ _)
      stampInj := stampInj_insert hinv.stampInj hnew }
  case used =>
    intro t
    rw [Storage.retouch, bytesOf_insert_of_iff h (by rw [htier]) hsize]
    exact hinv.used t
  case index =>
    intro t
    have hidx := hinv.index t
    by_cases hfast : config.fastestTierCache = some it.entry.tier
    · dsimp only [Storage.retouch]
      rw [if_pos hfast]
      refine hidx.restamp_of_not h hkey.1 hkey' ?_ ?_
      · intro ⟨hne, ht⟩
        exact hne (ht ▸ hfast)
      · intro ⟨hne, ht⟩
        exact hne (ht ▸ htier ▸ hfast)
    · dsimp only [Storage.retouch, indexInsertLocked, indexEraseLocked]
      rw [if_neg hfast, htier, Function.update_self, Function.update_idem]
      by_cases ht : t = it.entry.tier
      · subst ht
        rw [Function.update_self]
        exact hidx.restamp h hkey.1 hkey' ⟨hfast, htier⟩
      · rw [Function.update_of_ne ht]
        exact hidx.restamp_of_not h hkey.1 hkey' (fun hp => ht hp.2.symm)
          fun hp => ht (hp.2.symm.trans htier)
  case smallUsed =>
    rw [Storage.retouch, bytesOf_insert_of_iff h hsmall hsize]
    exact hinv.smallUsed
  case queued =>
    intro k it₀ hk hfast hne
    rcases lookup_insert_eq_some.mp hk with ⟨rfl, rfl⟩ | ⟨_, hk⟩
    · rw [hmain]
      exact hinv.queued h (htier ▸ hfast) hne
    · exact hinv.queued hk hfast hne
  case tenantUsed =>
    intro hq t tenant
    have hle : (if it.entry.tier = t ∧ it.entry.tenantId = tenant then it.entry.sizeBytes else 0) ≤
        bytesOf (fun _ it => it.entry.tier = t ∧ it.entry.tenantId = tenant) s.blocks := by
      rw [bytesOf_erase h]
      exact Nat.le_add_right _ _
    dsimp only [Storage.retouch]
    rw [tenantUsedAt_accountInsert hq, tenantUsedAt_accountErase hq, hinv.tenantUsed hq t tenant,
      htier, htenant, hsize, bytesOf_insert_of_iff h (by rw [htier, htenant]) hsize]
    omega
  case tenantIndex =>
    intro hq t tenant
    have hidx := hinv.tenantIndex hq t tenant
    refine Indexes.congr ?_ (mem_tenantIndexAt_accountInsert hq t tenant)
    rw [htier, htenant]
    dsimp only [Storage.retouch]
    split
    next hp =>
      refine Indexes.congr (hidx.restamp h hkey.1 hkey' ?_) ?_
      · exact ⟨htier.trans hp.1, htenant.trans hp.2⟩
      intro v
      rw [Finset.mem_insert, Finset.mem_insert, mem_tenantIndexAt_accountErase hq, if_pos hp]
    next hp =>
      refine Indexes.congr (hidx.restamp_of_not h hkey.1 hkey' hp fun hp' => hp ?_) ?_
      · exact ⟨htier.symm.trans hp'.1, htenant.symm.trans hp'.2⟩
      · intro v
        rw [mem_tenantIndexAt_accountErase hq, if_neg hp]

end

end TieredKVCache.Storage
