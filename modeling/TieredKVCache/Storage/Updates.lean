import TieredKVCache.Storage.Manager

/-!
# The updates of the block map

Every operation changes the block map in one of three ways: a stored block leaves
(`removeLocked`), a stored block enters (`enter`, the common form of admission, demotion
and promotion), or a stored block is stamped anew by a hit (`retouch`). Here each of the
three is one update of the record, and the operations of the source are rewritten into
them. `bytesOf` and `Indexes` say what a byte counter and a victim index are of a block
map, with what leaving and entering does to them.
-/

namespace TieredKVCache.Storage

open Lib

/-! ## Byte counters and victim indexes of a block map -/

/-- The bytes of the blocks of a kind. -/
def bytesOf (p : BlockKey → StoredBlock → Prop) [∀ k it, Decidable (p k it)]
    (blocks : AList fun _ : BlockKey => StoredBlock) : Nat :=
  sumOver (fun k it => if p k it then it.entry.sizeBytes else 0) blocks

/-- The index holds the order of each block of a kind, and nothing else. -/
def Indexes (p : StoredBlock → Prop) (blocks : AList fun _ : BlockKey => StoredBlock)
    (index : Finset VictimOrder) : Prop :=
  ∀ ts k, toLex (ts, k) ∈ index ↔
    ∃ it, blocks.lookup k = some it ∧ p it ∧ it.entry.stats.lastAccessTs = ts

section

variable {p : BlockKey → StoredBlock → Prop} [∀ k it, Decidable (p k it)]
  {blocks : AList fun _ : BlockKey => StoredBlock} {key : BlockKey} {it : StoredBlock}

theorem bytesOf_erase (h : blocks.lookup key = some it) :
    bytesOf p blocks =
      (if p key it then it.entry.sizeBytes else 0) + bytesOf p (blocks.erase key) :=
  sumOver_erase h

theorem bytesOf_insert (blocks : AList fun _ : BlockKey => StoredBlock) (key : BlockKey)
    (it : StoredBlock) : bytesOf p (blocks.insert key it) =
      (if p key it then it.entry.sizeBytes else 0) + bytesOf p (blocks.erase key) :=
  sumOver_insert _ blocks key it

theorem bytesOf_insert_of_none (h : blocks.lookup key = none) (it : StoredBlock) :
    bytesOf p (blocks.insert key it) =
      (if p key it then it.entry.sizeBytes else 0) + bytesOf p blocks :=
  sumOver_insert_of_none _ it h

theorem bytesOf_insert_of_iff {it' : StoredBlock} (h : blocks.lookup key = some it)
    (hp : p key it' ↔ p key it) (hsize : it'.entry.sizeBytes = it.entry.sizeBytes) :
    bytesOf p (blocks.insert key it') = bytesOf p blocks := by
  apply sumOver_insert_of_eq h
  simp only [hp, hsize]

variable {p' : BlockKey → StoredBlock → Prop} [∀ k it, Decidable (p' k it)]

theorem bytesOf_congr (h : ∀ k it, blocks.lookup k = some it → (p k it ↔ p' k it)) :
    bytesOf p blocks = bytesOf p' blocks :=
  sumOver_congr (fun _ _ => True) (fun _ _ hf => absurd trivial hf)
    (fun _ _ hf => absurd trivial hf) (fun k it hk _ => by simp only [h k it hk])
    (fun _ _ _ => Iff.rfl)

/-- Two maps that agree on a tier hold the same bytes of any kind within it. -/
theorem bytesOf_congr_on {blocks' : AList fun _ : BlockKey => StoredBlock} (t : Tier)
    (hm : ∀ k it, it.entry.tier = t → (blocks.lookup k = some it ↔ blocks'.lookup k = some it))
    (hp : ∀ k it, p k it → it.entry.tier = t) (hp' : ∀ k it, p' k it → it.entry.tier = t)
    (h : ∀ k it, blocks.lookup k = some it → it.entry.tier = t → (p k it ↔ p' k it)) :
    bytesOf p blocks = bytesOf p' blocks' :=
  sumOver_congr (fun _ it => it.entry.tier = t) (fun k it ht => if_neg fun h => ht (hp k it h))
    (fun k it ht => if_neg fun h => ht (hp' k it h))
    (fun k it hk ht => by simp only [h k it hk ht]) hm

theorem bytesOf_le (h : ∀ k it, blocks.lookup k = some it → p k it → p' k it) :
    bytesOf p blocks ≤ bytesOf p' blocks := by
  refine sumOver_le fun k it hk => ?_
  split
  next hp => rw [if_pos (h k it hk hp)]
  next => exact Nat.zero_le _

/-- The bytes of blocks of one size. -/
theorem bytesOf_eq_length_mul {keys : List BlockKey} {size : Nat} (hkeys : keys.Nodup)
    (hmem : ∀ k, k ∈ keys ↔ ∃ it, blocks.lookup k = some it ∧ p k it)
    (hsize : ∀ k it, blocks.lookup k = some it → p k it → it.entry.sizeBytes = size) :
    bytesOf p blocks = keys.length * size := by
  have hbytes : bytesOf p blocks = sumOver (fun k it => if p k it then size else 0) blocks := by
    refine sumOver_congr p (fun _ _ h => if_neg h) (fun _ _ h => if_neg h) (fun k it hk hp => ?_)
      (fun _ _ _ => .rfl)
    rw [if_pos hp, if_pos hp, hsize k it hk hp]
  rw [hbytes]
  exact sumOver_eq_length_mul p size hkeys hmem

/-- Replacing a block by one of the same size that counts where the old one did. -/
theorem bytesOf_replace (h : blocks.lookup key = some it) {it' : StoredBlock}
    (hsize : it'.entry.sizeBytes = it.entry.sizeBytes) (hkey : p' key it' ↔ p key it)
    (hrest : ∀ k it, k ≠ key → blocks.lookup k = some it → (p' k it ↔ p k it)) :
    bytesOf p' (blocks.insert key it') = bytesOf p blocks := by
  rw [bytesOf_insert, bytesOf_erase h, hsize]
  congr 1
  · simp only [hkey]
  · refine bytesOf_congr fun k it hk => ?_
    obtain ⟨hne, hk⟩ := lookup_erase_eq_some.mp hk
    exact hrest k it hne hk

/-- Erasing a block that did not count. -/
theorem bytesOf_drop (h : blocks.lookup key = some it) (hkey : ¬ p key it)
    (hrest : ∀ k it, k ≠ key → blocks.lookup k = some it → (p' k it ↔ p k it)) :
    bytesOf p' (blocks.erase key) = bytesOf p blocks := by
  rw [bytesOf_erase h, if_neg hkey, Nat.zero_add]
  refine bytesOf_congr fun k it hk => ?_
  obtain ⟨hne, hk⟩ := lookup_erase_eq_some.mp hk
  exact hrest k it hne hk

end

section

variable {p : StoredBlock → Prop} {blocks : AList fun _ : BlockKey => StoredBlock}
  {index : Finset VictimOrder} {it : StoredBlock}

theorem indexes_empty (p : StoredBlock → Prop) : Indexes p ∅ ∅ := by
  intro ts k
  simp

theorem mem_victimOrder {ts : Nat} {k : BlockKey} {entry : TierEntry} :
    toLex (ts, k) = victimOrder entry ↔ ts = entry.stats.lastAccessTs ∧ k = entry.key := by
  unfold victimOrder
  rw [toLex_inj, Prod.mk.injEq]

theorem Indexes.erase (hidx : Indexes p blocks index)
    (h : blocks.lookup it.entry.key = some it) :
    Indexes p (blocks.erase it.entry.key) (index.erase (victimOrder it.entry)) := by
  intro ts k
  rw [Finset.mem_erase, hidx ts k, Ne, mem_victimOrder]
  constructor
  · intro ⟨hne, it', hk, hp', hts⟩
    refine ⟨it', lookup_erase_eq_some.mpr ⟨?_, hk⟩, hp', hts⟩
    intro hkey
    subst hkey
    cases h.symm.trans hk
    exact hne ⟨hts.symm, rfl⟩
  · intro ⟨it', hk, hp', hts⟩
    obtain ⟨hkne, hk⟩ := lookup_erase_eq_some.mp hk
    exact ⟨fun heq => hkne heq.2, it', hk, hp', hts⟩

theorem Indexes.erase_of_not (hidx : Indexes p blocks index)
    (h : blocks.lookup it.entry.key = some it) (hp : ¬ p it) :
    Indexes p (blocks.erase it.entry.key) index := by
  intro ts k
  rw [hidx ts k]
  constructor
  · intro ⟨it', hk, hp', hts⟩
    refine ⟨it', lookup_erase_eq_some.mpr ⟨?_, hk⟩, hp', hts⟩
    intro hkey
    subst hkey
    cases h.symm.trans hk
    exact hp hp'
  · intro ⟨it', hk, hp', hts⟩
    exact ⟨it', (lookup_erase_eq_some.mp hk).2, hp', hts⟩

theorem Indexes.insert (hidx : Indexes p blocks index)
    (h : blocks.lookup it.entry.key = none) (hp : p it) :
    Indexes p (blocks.insert it.entry.key it) (Insert.insert (victimOrder it.entry) index) := by
  intro ts k
  rw [Finset.mem_insert, hidx ts k, mem_victimOrder]
  constructor
  · intro hor
    rcases hor with ⟨hts, hk⟩ | ⟨it', hk, hp', hts⟩
    · exact ⟨it, lookup_insert_eq_some.mpr (.inl ⟨hk, rfl⟩), hp, hts.symm⟩
    · refine ⟨it', lookup_insert_eq_some.mpr (.inr ⟨?_, hk⟩), hp', hts⟩
      intro hkey
      subst hkey
      cases h.symm.trans hk
  · intro ⟨it', hk, hp', hts⟩
    rcases lookup_insert_eq_some.mp hk with ⟨hk, rfl⟩ | ⟨_, hk⟩
    · exact .inl ⟨hts.symm, hk⟩
    · exact .inr ⟨it', hk, hp', hts⟩

theorem Indexes.insert_of_not (hidx : Indexes p blocks index)
    (h : blocks.lookup it.entry.key = none) (hp : ¬ p it) :
    Indexes p (blocks.insert it.entry.key it) index := by
  intro ts k
  rw [hidx ts k]
  constructor
  · intro ⟨it', hk, hp', hts⟩
    refine ⟨it', lookup_insert_eq_some.mpr (.inr ⟨?_, hk⟩), hp', hts⟩
    intro hkey
    subst hkey
    cases h.symm.trans hk
  · intro ⟨it', hk, hp', hts⟩
    rcases lookup_insert_eq_some.mp hk with ⟨_, rfl⟩ | ⟨_, hk⟩
    · exact absurd hp' hp
    · exact ⟨it', hk, hp', hts⟩

theorem Indexes.congr {index' : Finset VictimOrder} (hidx : Indexes p blocks index)
    (h : ∀ v, v ∈ index' ↔ v ∈ index) : Indexes p blocks index' := by
  intro ts k
  rw [h]
  exact hidx ts k

/-- Replacing a value in the index by another of the kind: its order takes the place of the old
one. -/
theorem Indexes.restamp {key : BlockKey} {it' : StoredBlock} (hidx : Indexes p blocks index)
    (h : blocks.lookup key = some it) (hkey : it.entry.key = key) (hkey' : it'.entry.key = key)
    (hp' : p it') :
    Indexes p (blocks.insert key it')
      (Insert.insert (victimOrder it'.entry) (index.erase (victimOrder it.entry))) := by
  have herased : Indexes p (blocks.erase it.entry.key) (index.erase (victimOrder it.entry)) :=
    hidx.erase (hkey.symm ▸ h)
  rw [hkey, ← hkey'] at herased
  have hinserted := herased.insert (AList.lookup_erase _ _) hp'
  rwa [hkey', insert_erase] at hinserted

theorem Indexes.restamp_of_not {key : BlockKey} {it' : StoredBlock} (hidx : Indexes p blocks index)
    (h : blocks.lookup key = some it) (hkey : it.entry.key = key) (hkey' : it'.entry.key = key)
    (hp : ¬ p it) (hp' : ¬ p it') : Indexes p (blocks.insert key it') index := by
  have herased : Indexes p (blocks.erase it.entry.key) index :=
    hidx.erase_of_not (hkey.symm ▸ h) hp
  rw [hkey, ← hkey'] at herased
  have hinserted := herased.insert_of_not (AList.lookup_erase _ _) hp'
  rwa [hkey', insert_erase] at hinserted

/-- Replacing a value by one with the same stamp and of the same kind. -/
theorem Indexes.replace {key : BlockKey} {it' : StoredBlock} (hidx : Indexes p blocks index)
    (h : blocks.lookup key = some it) (hp : p it' ↔ p it)
    (hts : it'.entry.stats.lastAccessTs = it.entry.stats.lastAccessTs) :
    Indexes p (blocks.insert key it') index := by
  intro ts k
  rw [hidx ts k]
  by_cases hk : k = key
  · subst hk
    simp only [h, AList.lookup_insert, Option.some.injEq, exists_eq_left', hp, hts]
  · simp only [AList.lookup_insert_ne hk]

end

/-! ## Tenant accounts -/

/-- An absent account counts as zero. -/
def tenantUsedAt (accounts : Tier → AList fun _ : UInt32 => Nat) (tier : Tier)
    (tenant : UInt32) : Nat :=
  ((accounts tier).lookup tenant).getD 0

/-- An absent index counts as empty. -/
def tenantIndexAt (indexes : Tier → AList fun _ : UInt32 => Finset VictimOrder) (tier : Tier)
    (tenant : UInt32) : Finset VictimOrder :=
  ((indexes tier).lookup tenant).getD ∅

section

variable {D : Type} {config : TierConfig D} {entry : TierEntry} {s : State}

theorem tenantUsedAt_accountInsert (hq : config.quotaEnabledLocked = true) (t : Tier)
    (tenant : UInt32) :
    tenantUsedAt (accountInsertLocked config entry s).tenantUsed t tenant =
      (if entry.tier = t ∧ entry.tenantId = tenant then entry.sizeBytes else 0) +
        tenantUsedAt s.tenantUsed t tenant := by
  simp only [accountInsertLocked, hq, Bool.not_true, Bool.false_eq_true, if_false, tenantUsedAt]
  by_cases ht : t = entry.tier
  · subst ht
    rw [Function.update_self]
    by_cases hT : tenant = entry.tenantId
    · subst hT
      rw [AList.lookup_insert, if_pos ⟨rfl, rfl⟩, Option.getD_some, Nat.add_comm]
    · rw [AList.lookup_insert_ne hT, if_neg (fun h => hT h.2.symm), Nat.zero_add]
  · rw [Function.update_of_ne ht, if_neg (fun h => ht h.1.symm), Nat.zero_add]

/-- The account is reduced by at most what it holds, and by all of the entry's size where
it holds that much. -/
theorem tenantUsedAt_accountErase (hq : config.quotaEnabledLocked = true) (t : Tier)
    (tenant : UInt32) :
    tenantUsedAt (accountEraseLocked config entry s).tenantUsed t tenant =
      tenantUsedAt s.tenantUsed t tenant -
        (if entry.tier = t ∧ entry.tenantId = tenant then entry.sizeBytes else 0) := by
  simp only [accountEraseLocked, hq, Bool.not_true, Bool.false_eq_true, if_false, tenantUsedAt]
  by_cases ht : t = entry.tier
  · subst ht
    rw [Function.update_self, tenantUsedErase]
    by_cases hT : tenant = entry.tenantId
    · subst hT
      rw [if_pos ⟨rfl, rfl⟩]
      cases hl : (s.tenantUsed entry.tier).lookup entry.tenantId with
      | none => simp [hl]
      | some used =>
        dsimp only
        split
        next hz =>
          rw [AList.lookup_erase, Option.getD_none, Option.getD_some]
          omega
        next =>
          rw [AList.lookup_insert, Option.getD_some, Option.getD_some]
          omega
    · rw [if_neg (fun h => hT h.2.symm), Nat.sub_zero]
      split
      · rfl
      · dsimp only
        split
        · rw [AList.lookup_erase_ne hT]
        · rw [AList.lookup_insert_ne hT]
  · rw [Function.update_of_ne ht, if_neg (fun h => ht h.1.symm), Nat.sub_zero]

theorem mem_tenantIndexAt_accountInsert (hq : config.quotaEnabledLocked = true) (t : Tier)
    (tenant : UInt32) (v : VictimOrder) :
    v ∈ tenantIndexAt (accountInsertLocked config entry s).tenantVictimIndex t tenant ↔
      v ∈ (if entry.tier = t ∧ entry.tenantId = tenant then
          insert (victimOrder entry) (tenantIndexAt s.tenantVictimIndex t tenant)
        else tenantIndexAt s.tenantVictimIndex t tenant) := by
  simp only [accountInsertLocked, hq, Bool.not_true, Bool.false_eq_true, if_false, tenantIndexAt]
  by_cases ht : t = entry.tier
  · subst ht
    rw [Function.update_self]
    by_cases hT : tenant = entry.tenantId
    · subst hT
      rw [AList.lookup_insert, Option.getD_some, if_pos ⟨rfl, rfl⟩]
    · rw [AList.lookup_insert_ne hT, if_neg (fun h => hT h.2.symm)]
  · rw [Function.update_of_ne ht, if_neg (fun h => ht h.1.symm)]

theorem mem_tenantIndexAt_accountErase (hq : config.quotaEnabledLocked = true) (t : Tier)
    (tenant : UInt32) (v : VictimOrder) :
    v ∈ tenantIndexAt (accountEraseLocked config entry s).tenantVictimIndex t tenant ↔
      v ∈ (if entry.tier = t ∧ entry.tenantId = tenant then
          (tenantIndexAt s.tenantVictimIndex t tenant).erase (victimOrder entry)
        else tenantIndexAt s.tenantVictimIndex t tenant) := by
  simp only [accountEraseLocked, hq, Bool.not_true, Bool.false_eq_true, if_false, tenantIndexAt]
  by_cases ht : t = entry.tier
  · subst ht
    rw [Function.update_self, tenantIndexErase]
    by_cases hT : tenant = entry.tenantId
    · subst hT
      rw [if_pos ⟨rfl, rfl⟩]
      cases hl : (s.tenantVictimIndex entry.tier).lookup entry.tenantId with
      | none => simp [hl]
      | some index =>
        dsimp only
        split
        next hempty =>
          rw [AList.lookup_erase, Option.getD_none, Option.getD_some, hempty]
        next => rw [AList.lookup_insert, Option.getD_some, Option.getD_some]
    · rw [if_neg (fun h => hT h.2.symm)]
      split
      · rfl
      · dsimp only
        split
        · rw [AList.lookup_erase_ne hT]
        · rw [AList.lookup_insert_ne hT]
  · rw [Function.update_of_ne ht, if_neg (fun h => ht h.1.symm)]

end

/-! ## A block leaves -/

/-- The blocks of the small queue: in the fastest tier and not moved to the main queue. -/
def InSmall {D : Type} (config : TierConfig D) (it : StoredBlock) : Prop :=
  config.fastestTierCache = some it.entry.tier ∧ it.s3InMain = false

instance {D : Type} (config : TierConfig D) (it : StoredBlock) : Decidable (InSmall config it) :=
  inferInstanceAs (Decidable (_ ∧ _))

/-- The blocks of the main queue. -/
def InMain {D : Type} (config : TierConfig D) (it : StoredBlock) : Prop :=
  config.fastestTierCache = some it.entry.tier ∧ it.s3InMain = true

instance {D : Type} (config : TierConfig D) (it : StoredBlock) : Decidable (InMain config it) :=
  inferInstanceAs (Decidable (_ ∧ _))

section

variable {D : Type} {config : TierConfig D} {inval : Invalidation} {key : BlockKey}
  {it : StoredBlock} {s : State}

/-- The queue after a block is removed. -/
def leaveQueue (config : TierConfig D) (inval : Invalidation) (key : BlockKey)
    (it : StoredBlock) (q : List BlockKey) : List BlockKey :=
  if inval = .eager ∧ config.fastestTierCache = some it.entry.tier then q.filter (· ≠ key) else q

theorem mem_leaveQueue {q : List BlockKey} {k : BlockKey} (hk : k ≠ key) :
    k ∈ leaveQueue config inval key it q ↔ k ∈ q := by
  unfold leaveQueue
  split
  · simp [hk]
  · rfl

@[simp]
theorem leaveQueue_lazy {q : List BlockKey} : leaveQueue config .lazy key it q = q := by
  simp [leaveQueue]

theorem removeLocked_eq (h : s.blocks.lookup key = some it) :
    removeLocked config inval key s =
      { s with
        blocks := s.blocks.erase key
        victimIndex :=
          if config.fastestTierCache = some it.entry.tier then s.victimIndex
          else (indexEraseLocked it.entry s).victimIndex
        s3SmallFifo := leaveQueue config inval key it s.s3SmallFifo
        s3MainFifo := leaveQueue config inval key it s.s3MainFifo
        s3SmallUsedBytes :=
          if InSmall config it then s.s3SmallUsedBytes - it.entry.sizeBytes
          else s.s3SmallUsedBytes
        usedBytes := Function.update s.usedBytes it.entry.tier
          (s.usedBytes it.entry.tier - it.entry.sizeBytes)
        tenantUsed := (accountEraseLocked config it.entry s).tenantUsed
        tenantVictimIndex := (accountEraseLocked config it.entry s).tenantVictimIndex } := by
  obtain ⟨block, entry, freq, inMain⟩ := it
  unfold removeLocked leaveQueue InSmall accountEraseLocked
  simp only [h]
  by_cases hfast : config.fastestTierCache = some entry.tier <;>
    cases hquota : config.quotaEnabledLocked <;> cases inMain <;> cases inval <;>
    simp [hfast, indexEraseLocked]

theorem removeLocked_of_none (h : s.blocks.lookup key = none) :
    removeLocked config inval key s = s := by
  unfold removeLocked
  rw [h]

@[simp]
theorem removeLocked_blocks (config : TierConfig D) (inval : Invalidation) (key : BlockKey)
    (s : State) : (removeLocked config inval key s).blocks = s.blocks.erase key := by
  cases h : s.blocks.lookup key with
  | none => rw [removeLocked_of_none h, erase_of_lookup_none h]
  | some it => rw [removeLocked_eq h]

@[simp]
theorem removeLocked_logicalClock (config : TierConfig D) (inval : Invalidation)
    (key : BlockKey) (s : State) :
    (removeLocked config inval key s).logicalClock = s.logicalClock := by
  cases h : s.blocks.lookup key with
  | none => rw [removeLocked_of_none h]
  | some it => rw [removeLocked_eq h]

@[simp]
theorem removeLocked_ghost (config : TierConfig D) (inval : Invalidation) (key : BlockKey)
    (s : State) : (removeLocked config inval key s).ghost = s.ghost := by
  cases h : s.blocks.lookup key with
  | none => rw [removeLocked_of_none h]
  | some it => rw [removeLocked_eq h]

@[simp]
theorem removeLocked_s3SmallFifo_lazy (config : TierConfig D) (key : BlockKey) (s : State) :
    (removeLocked config .lazy key s).s3SmallFifo = s.s3SmallFifo := by
  cases h : s.blocks.lookup key with
  | none => rw [removeLocked_of_none h]
  | some it => simp [removeLocked_eq h]

@[simp]
theorem removeLocked_s3MainFifo_lazy (config : TierConfig D) (key : BlockKey) (s : State) :
    (removeLocked config .lazy key s).s3MainFifo = s.s3MainFifo := by
  cases h : s.blocks.lookup key with
  | none => rw [removeLocked_of_none h]
  | some it => simp [removeLocked_eq h]

end

/-! ## A block enters -/

section

variable {D : Type} {config : TierConfig D} {inval : Invalidation}

/-- A stored block enters the manager: the block map, the counters, the index or the queue
of its tier, and the account of its tenant take it up. -/
def enter (config : TierConfig D) (it : StoredBlock) (s : State) : State :=
  { s with
    blocks := s.blocks.insert it.entry.key it
    victimIndex :=
      if config.fastestTierCache = some it.entry.tier then s.victimIndex
      else (indexInsertLocked it.entry s).victimIndex
    s3SmallFifo :=
      if InSmall config it then s.s3SmallFifo ++ [it.entry.key] else s.s3SmallFifo
    s3MainFifo :=
      if InMain config it then s.s3MainFifo ++ [it.entry.key] else s.s3MainFifo
    s3SmallUsedBytes :=
      if InSmall config it then s.s3SmallUsedBytes + it.entry.sizeBytes else s.s3SmallUsedBytes
    usedBytes := Function.update s.usedBytes it.entry.tier
      (s.usedBytes it.entry.tier + it.entry.sizeBytes)
    tenantUsed := (accountInsertLocked config it.entry s).tenantUsed
    tenantVictimIndex := (accountInsertLocked config it.entry s).tenantVictimIndex }

/-- The stored block of a demotion. -/
def demoted (slower : Tier) (it : StoredBlock) (clock : Nat) : StoredBlock where
  block := it.block
  entry :=
    { key := it.block.key, tier := slower, sizeBytes := blockSizeBytes it.block
      stats := { it.entry.stats with lastAccessTs := clock + 1 }, tenantId := it.entry.tenantId }

theorem demoteLocked_eq {slower : Tier} (hslow : config.fastestTierCache ≠ some slower)
    (it : StoredBlock) (s : State) :
    demoteLocked config slower it s =
      enter config (demoted slower it s.logicalClock)
        { s with logicalClock := s.logicalClock + 1 } := by
  unfold demoteLocked enter demoted InSmall InMain accountInsertLocked
  cases hquota : config.quotaEnabledLocked <;> simp [hslow, indexInsertLocked]

/-- The stored block of a promotion by a read. -/
def promoted (key : BlockKey) (fast : Tier) (it : StoredBlock) : StoredBlock where
  block := it.block
  entry :=
    { key, tier := fast, sizeBytes := it.entry.sizeBytes
      stats := it.entry.stats, tenantId := it.entry.tenantId }
  s3InMain := true

theorem promoteLocked_eq {fast : Tier} (hfast : config.fastestTierCache = some fast)
    (key : BlockKey) (it : StoredBlock) (s : State) :
    promoteLocked inval config key it fast s =
      enter config (promoted key fast it) (removeLocked config inval key s) := by
  unfold promoteLocked enter promoted InSmall InMain accountInsertLocked
  cases hquota : config.quotaEnabledLocked <;> simp [hfast]

/-- The statistics a block brings along when it is placed again. -/
def priorStats (key : BlockKey) (s : State) : AccessStats :=
  match s.blocks.lookup key with
  | some it => it.entry.stats
  | none => {}

/-- The access count of a block that is placed; a ghost hit counts as reuse. -/
def admittedCount (key : BlockKey) (s : State) : Nat :=
  if (priorStats key s).accessCount = 0 ∧ key ∈ s.ghost then 2
  else (priorStats key s).accessCount + 1

/-- The stored block of a placement. -/
def admitted (config : TierConfig D) (block : KVCacheBlock) (tier : Tier) (tenantId : UInt32)
    (s : State) : StoredBlock where
  block := block
  entry :=
    { key := block.key, tier, sizeBytes := blockSizeBytes block
      stats := ⟨admittedCount block.key s, s.logicalClock + 1⟩, tenantId }
  s3InMain := decide (config.fastestTierCache = some tier ∧
    (block.key ∈ s.ghost ∨ 1 < admittedCount block.key s))

theorem admitLocked_eq (block : KVCacheBlock) (tier : Tier) (tenantId : UInt32) (s : State) :
    admitLocked inval config block tier tenantId s =
      enter config (admitted config block tier tenantId s)
        { removeLocked config inval block.key s with
          logicalClock := s.logicalClock + 1
          ghost := s.ghost.erase block.key } := by
  unfold admitLocked admitted admittedCount priorStats enter InSmall InMain
    accountInsertLocked ghostConsumeLocked
  cases h : s.blocks.lookup block.key with
  | none =>
    rw [removeLocked_of_none h]
    by_cases hfast : config.fastestTierCache = some tier <;>
      by_cases hg : block.key ∈ s.ghost <;> cases hquota : config.quotaEnabledLocked <;>
      simp [hfast, hg, indexInsertLocked]
  | some it =>
    by_cases hc : it.entry.stats.accessCount = 0 <;>
      by_cases hfast : config.fastestTierCache = some tier <;>
      by_cases hg : block.key ∈ s.ghost <;> cases hquota : config.quotaEnabledLocked <;>
      simp [hfast, hg, hc, Nat.pos_iff_ne_zero, indexInsertLocked]

/-! ## A block is stamped anew -/

/-- A hit: the block is replaced by one with a new stamp, in the index of its tier and in
the account of its tenant as well. -/
def retouch (config : TierConfig D) (key : BlockKey) (it it' : StoredBlock) (s : State) : State :=
  { s with
    logicalClock := s.logicalClock + 1
    blocks := s.blocks.insert key it'
    victimIndex :=
      if config.fastestTierCache = some it.entry.tier then s.victimIndex
      else (indexInsertLocked it'.entry (indexEraseLocked it.entry s)).victimIndex
    tenantUsed :=
      (accountInsertLocked config it'.entry (accountEraseLocked config it.entry s)).tenantUsed
    tenantVictimIndex := (accountInsertLocked config it'.entry
      (accountEraseLocked config it.entry s)).tenantVictimIndex }

/-- The stored block after a hit in its tier. -/
def touched (it : StoredBlock) (clock : Nat) : StoredBlock :=
  { it with
    entry := { it.entry with stats := ⟨it.entry.stats.accessCount + 1, clock + 1⟩ } }

/-- The stored block after a hit in the fastest tier, whose frequency is capped. -/
def touchedFastest (it : StoredBlock) (clock : Nat) : StoredBlock :=
  { touched it clock with s3Freq := min (it.s3Freq + 1) 3 }

theorem touchFastest_eq {it : StoredBlock}
    (hfast : config.fastestTierCache = some it.entry.tier) (key : BlockKey) (s : State) :
    touchFastest config key it s =
      retouch config key it (touchedFastest it s.logicalClock) s := by
  unfold touchFastest retouch touchedFastest touched accountInsertLocked accountEraseLocked
  cases hquota : config.quotaEnabledLocked <;> simp [hfast]

theorem touchSlower_eq {it : StoredBlock}
    (hslow : config.fastestTierCache ≠ some it.entry.tier) (key : BlockKey) (s : State) :
    touchSlower config key it s = retouch config key it (touched it s.logicalClock) s := by
  unfold touchSlower retouch touched accountInsertLocked accountEraseLocked
  cases hquota : config.quotaEnabledLocked <;>
    simp [hslow, indexInsertLocked, indexEraseLocked]

end

end TieredKVCache.Storage
