import TieredKVCache.Storage.Enforce

/-!
# The public operations

Each operation is described once, by the outcomes it can have in a good state (`Placed`,
`ReadOutcome`, `Prefetched`): what it replies, and the moves that lead to the new state.
The theorems `placeLocked_returns`, `read_returns` and `prefetchKeys_returns` say that one
of the outcomes occurs; later results are read off the outcomes and unfold no operation.
-/

namespace TieredKVCache.Storage

open Lib Relation

/-! ## Admission and promotion -/

/-- A ghost or a resident: `PlaceLocked` admits the key to the main queue. -/
def Reused (key : BlockKey) (s : State) : Prop :=
  key ∈ s.ghost ∨ (s.blocks.lookup key).isSome = true

instance (key : BlockKey) (s : State) : Decidable (Reused key s) :=
  inferInstanceAs (Decidable (_ ∨ _))

section

variable {D : Type} {inval : Invalidation} {config : TierConfig D} {t fast : Tier}
  {key : BlockKey} {it : StoredBlock} {s s' : State}

theorem removeLocked_repInv (inval : Invalidation) (hinv : RepInv config s) (key : BlockKey) :
    RepInv config (removeLocked config inval key s) := by
  cases h : s.blocks.lookup key with
  | none => rwa [removeLocked_of_none h]
  | some it => exact hinv.leave (by simp) h

theorem bytesOf_erase_le (p : BlockKey → StoredBlock → Prop) [∀ k it, Decidable (p k it)]
    (blocks : AList fun _ : BlockKey => StoredBlock) (key : BlockKey) :
    bytesOf p (blocks.erase key) ≤ bytesOf p blocks := by
  cases h : blocks.lookup key with
  | none => rw [erase_of_lookup_none h]
  | some it =>
    rw [bytesOf_erase h]
    exact Nat.le_add_left _ _

/-- A state whose map gained one block in place of another grew in one tier only. -/
theorem usedBytes_le_of_insert (hinv : RepInv config s) (hinv' : RepInv config s')
    (hblocks : s'.blocks = s.blocks.insert key it) {u : Tier} (hu : u ≠ it.entry.tier) :
    s'.usedBytes u ≤ s.usedBytes u := by
  rw [hinv.used u, hinv'.used u, hblocks, bytesOf_insert, if_neg (Ne.symm hu), Nat.zero_add]
  exact bytesOf_erase_le _ _ _

theorem admittedCount_pos (key : BlockKey) (s : State) : 1 ≤ admittedCount key s := by
  unfold admittedCount
  split <;> omega

theorem admitLocked_blocks (inval : Invalidation) (config : TierConfig D) (block : KVCacheBlock)
    (t : Tier) (tenantId : UInt32) (s : State) :
    (admitLocked inval config block t tenantId s).blocks =
      s.blocks.insert block.key (admitted config block t tenantId s) := by
  rw [admitLocked_eq]
  show (removeLocked config inval block.key s).blocks.insert block.key _ = _
  rw [removeLocked_blocks, insert_erase]

theorem admitLocked_repInv (inval : Invalidation) (hinv : RepInv config s)
    (ht : config.configured t = true) (block : KVCacheBlock) (tenantId : UInt32) :
    RepInv config (admitLocked inval config block t tenantId s) := by
  rw [admitLocked_eq]
  have hleft := removeLocked_repInv inval hinv block.key
  refine (hleft.tick (s.logicalClock + 1) (by simp) _ _ _).enter
    { absent := ?absent, keyed := rfl, placed := ht, sized := rfl
      counted := admittedCount_pos _ _, stampLe := Nat.le_refl _, stampNew := ?stampNew }
  case absent =>
    show (removeLocked config inval block.key s).blocks.lookup block.key = none
    rw [removeLocked_blocks, AList.lookup_erase]
  case stampNew =>
    intro k it hk
    have hle := hleft.stampLe hk
    rw [removeLocked_logicalClock] at hle
    exact Nat.ne_of_lt (Nat.lt_succ_of_le hle)

theorem enter_queues (hfast : config.fastestTierCache = some it.entry.tier) :
    (enter config it s).s3SmallFifo =
        (if it.s3InMain = true then s.s3SmallFifo else s.s3SmallFifo ++ [it.entry.key]) ∧
      (enter config it s).s3MainFifo =
        (if it.s3InMain = true then s.s3MainFifo ++ [it.entry.key] else s.s3MainFifo) := by
  cases hin : it.s3InMain <;> simp [enter, InSmall, InMain, hfast, hin]

theorem admitted_inMain_iff (hfast : config.fastestTierCache = some fast)
    (hinv : RepInv config s) (block : KVCacheBlock) (tenantId : UInt32) :
    (admitted config block fast tenantId s).s3InMain = true ↔ Reused block.key s := by
  simp only [admitted, hfast, true_and, decide_eq_true_eq, Reused]
  by_cases hghost : block.key ∈ s.ghost
  · simp only [hghost, true_or]
  · simp only [hghost, false_or]
    unfold admittedCount priorStats
    cases h : s.blocks.lookup block.key with
    | none => simp [hghost]
    | some it =>
      have hcounted := hinv.counted h
      simp only [hghost, and_false, if_false, Option.isSome_some, iff_true]
      omega

/-- The state after a hit in a slower tier, before the promotion. -/
def touchedState (config : TierConfig D) (key : BlockKey) (it : StoredBlock) (s : State) : State :=
  retouch config key it (touched it s.logicalClock) s

/-- The state after a hit in a slower tier and the promotion. -/
def promotedState (inval : Invalidation) (config : TierConfig D) (key : BlockKey)
    (it : StoredBlock) (fast : Tier) (s : State) : State :=
  promoteLocked inval config key (touched it s.logicalClock) fast (touchedState config key it s)

theorem touchedState_repInv (hinv : RepInv config s) (h : s.blocks.lookup key = some it) :
    RepInv config (touchedState config key it s) :=
  hinv.retouch h (Nat.le_add_left 1 _) rfl rfl rfl

theorem promotedState_blocks {fast : Tier} (hfast : config.fastestTierCache = some fast)
    (key : BlockKey) (it : StoredBlock) (s : State) :
    (promotedState inval config key it fast s).blocks =
      s.blocks.insert key (promoted key fast (touched it s.logicalClock)) := by
  unfold promotedState
  rw [promoteLocked_eq hfast]
  show (removeLocked config inval key (touchedState config key it s)).blocks.insert key _ = _
  rw [removeLocked_blocks, insert_erase]
  show (s.blocks.insert key _).insert key _ = _
  rw [AList.insert_insert]

theorem promotedState_repInv {fast : Tier} (inval : Invalidation) (hinv : RepInv config s)
    (h : s.blocks.lookup key = some it) (hfast : config.fastestTierCache = some fast) :
    RepInv config (promotedState inval config key it fast s) := by
  have htouched := touchedState_repInv hinv h
  have hlookup : (touchedState config key it s).blocks.lookup key =
      some (touched it s.logicalClock) := AList.lookup_insert _
  unfold promotedState
  rw [promoteLocked_eq hfast]
  refine (removeLocked_repInv inval htouched key).enter
    { absent := ?absent, keyed := (hinv.keyed h).2
      placed := TierConfig.fastestTierCache_configured hfast
      sized := (hinv.sized h : it.entry.sizeBytes = _)
      counted := Nat.le_add_left 1 _, stampLe := ?stampLe, stampNew := ?stampNew }
  case absent =>
    rw [removeLocked_blocks]
    exact AList.lookup_erase key _
  case stampLe =>
    rw [removeLocked_logicalClock]
    exact Nat.le_refl _
  case stampNew =>
    intro k it' hk hts
    rw [removeLocked_blocks] at hk
    obtain ⟨hne, hk⟩ := lookup_erase_eq_some.mp hk
    exact hne (htouched.stampInj hk hlookup hts)

end

section

variable {D : Type} [DoubleArith D]

/-- No tier is over its threshold. -/
def Within (config : TierConfig D) (s : State) : Prop :=
  ∀ t, s.usedBytes t ≤ config.evictionThresholdOf t

/-- What holds between two public calls. -/
structure Good (config : TierConfig D) (s : State) : Prop where
  inv : RepInv config s
  within : Within config s

theorem good_fresh (config : TierConfig D) : Good config State.fresh :=
  ⟨repInv_fresh config, fun _ => Nat.zero_le _⟩

variable {inval : Invalidation} {config : TierConfig D} {t : Tier} {key : BlockKey}
  {it : StoredBlock} {s s' : State}

/-! ## From a good state into a tier and back -/

/-- Where one block has entered a good state, the other tiers are still within their
thresholds. -/
theorem Good.within_of_insert (hgood : Good config s) (hinv' : RepInv config s')
    (hblocks : s'.blocks = s.blocks.insert key it) (u : Tier) (hu : u ≠ it.entry.tier) :
    s'.usedBytes u ≤ config.evictionThresholdOf u :=
  (usedBytes_le_of_insert hgood.inv hinv' hblocks hu).trans (hgood.within u)

/-- Enforcement after one tier has grown leads back to a good state. -/
theorem enforce_good (inval : Invalidation) (hinv : RepInv config s)
    (hother : ∀ u, u ≠ t → s.usedBytes u ≤ config.evictionThresholdOf u) :
    Returns (enforceCapacityLocked inval config t s) fun r =>
      r.1 = .success ∧ EnforceSteps inval config t s r.2 ∧ Good config r.2 := by
  have hslower : SlowerWithin config t s := by
    intro u hu
    exact hother u (fun heq => by simp [heq] at hu)
  apply (enforceCapacityLocked_returns hinv hslower).mono
  intro r ⟨hok, hsteps, hwithin⟩
  have hinv' := hsteps.repInv hinv
  refine ⟨hok, hsteps, hinv', fun u => ?_⟩
  rcases Nat.lt_or_ge u.toNat t.toNat with hlt | hge
  · rw [← (hsteps.sameIn hinv hlt).usedBytes hinv hinv']
    exact hother u (fun heq => by simp [heq] at hlt)
  · exact hwithin u hge

/-! ## Placement -/

/-- The outcomes of `PlaceLocked`. -/
inductive Placed (inval : Invalidation) (config : TierConfig D) (block : KVCacheBlock) (t : Tier)
    (tenantId : UInt32) (s : State) : Status × State → Prop
  | refused (hsize : config.evictionThresholdOf t < blockSizeBytes block) :
      Placed inval config block t tenantId s
        (.make .outOfCapacity ("块尺寸超过层容量：" ++ t.name), s)
  | placed {s' : State} (hsize : blockSizeBytes block ≤ config.evictionThresholdOf t)
      (hsteps : EnforceSteps inval config t (admitLocked inval config block t tenantId s) s')
      (hgood : Good config s') : Placed inval config block t tenantId s (.success, s')

theorem placeLocked_returns (inval : Invalidation) (hgood : Good config s)
    (ht : config.configured t = true) (block : KVCacheBlock) (tenantId : UInt32) :
    Returns (placeLocked inval config block t tenantId s)
      (Placed inval config block t tenantId s) := by
  unfold placeLocked
  split
  next hsize => exact returns_ok (.refused hsize)
  next hsize =>
    have hinv := admitLocked_repInv inval hgood.inv ht block tenantId
    have hother := hgood.within_of_insert hinv (admitLocked_blocks inval config block t tenantId s)
    apply (enforce_good inval hinv hother).mono
    intro ⟨status, s'⟩ ⟨hok, hsteps, hgood'⟩
    cases hok
    exact .placed (Nat.le_of_not_lt hsize) hsteps hgood'

/-! ## Reading -/

inductive ReadOutcome (inval : Invalidation) (config : TierConfig D) (key : BlockKey) (s : State) :
    Result KVCacheBlock × State → Prop
  | miss (h : s.blocks.lookup key = none) :
      ReadOutcome inval config key s (.ofStatus (.make .notFound "块不在任何层（缓存未命中）"), s)
  | hit {it : StoredBlock} (h : s.blocks.lookup key = some it)
      (hfast : config.fastestTierCache = some it.entry.tier) :
      ReadOutcome inval config key s
        (.ok it.block, retouch config key it (touchedFastest it s.logicalClock) s)
  | stay {it : StoredBlock} {fast : Tier} (h : s.blocks.lookup key = some it)
      (hfast : config.fastestTierCache = some fast) (hslow : it.entry.tier ≠ fast)
      (hsize : config.evictionThresholdOf fast < it.entry.sizeBytes) :
      ReadOutcome inval config key s (.ok it.block, touchedState config key it s)
  | promoted {it it' : StoredBlock} {fast : Tier} {s' : State}
      (h : s.blocks.lookup key = some it) (hfast : config.fastestTierCache = some fast)
      (hslow : it.entry.tier ≠ fast) (hsize : it.entry.sizeBytes ≤ config.evictionThresholdOf fast)
      (hsteps : EnforceSteps inval config fast (promotedState inval config key it fast s) s')
      (hgood : Good config s') (h' : s'.blocks.lookup key = some it') :
      ReadOutcome inval config key s (.ok it'.block, s')
  | lost {it : StoredBlock} {fast : Tier} {s' : State}
      (h : s.blocks.lookup key = some it) (hfast : config.fastestTierCache = some fast)
      (hslow : it.entry.tier ≠ fast) (hsize : it.entry.sizeBytes ≤ config.evictionThresholdOf fast)
      (hsteps : EnforceSteps inval config fast (promotedState inval config key it fast s) s')
      (hgood : Good config s') (h' : s'.blocks.lookup key = none) :
      ReadOutcome inval config key s
        (.ofStatus (.make .internal "晋升块在容量执法中被立即淘汰"), s')

/-- A hit in a slower tier; `promotedState` is the state in which capacity is enforced. -/
theorem read_slower_eq {fast : Tier} (h : s.blocks.lookup key = some it)
    (hfast : config.fastestTierCache = some fast) (hslow : it.entry.tier ≠ fast) :
    read inval config key s =
      if it.entry.sizeBytes ≤ config.evictionThresholdOf fast then do
        let (status, s') ←
          enforceCapacityLocked inval config fast (promotedState inval config key it fast s)
        if !status.isOk then return (.ofStatus status, s')
        match s'.blocks.lookup key with
        | none => return (.ofStatus (.make .internal "晋升块在容量执法中被立即淘汰"), s')
        | some it' => return (.ok it'.block, s')
      else .ok (.ok it.block, touchedState config key it s) := by
  have hmiss : config.fastestTierCache ≠ some it.entry.tier := by
    rw [hfast]
    exact fun heq => hslow (Option.some.inj heq).symm
  have htouched : touchSlower config key it s = touchedState config key it s :=
    touchSlower_eq hmiss key s
  have hlookup : (touchedState config key it s).blocks.lookup key =
      some (touched it s.logicalClock) := AList.lookup_insert _
  unfold read
  rw [h]
  dsimp only
  rw [if_neg hmiss, htouched, hlookup, hfast]
  rfl

theorem read_returns (inval : Invalidation) (hgood : Good config s) (key : BlockKey) :
    Returns (read inval config key s) fun r =>
      ReadOutcome inval config key s r ∧ Good config r.2 := by
  cases h : s.blocks.lookup key with
  | none =>
    unfold read
    rw [h]
    exact returns_ok ⟨.miss h, hgood⟩
  | some it =>
    by_cases hhit : config.fastestTierCache = some it.entry.tier
    · unfold read
      rw [h]
      dsimp only
      rw [if_pos hhit, touchFastest_eq hhit]
      refine returns_ok ⟨.hit h hhit, ?_, ?_⟩
      · exact hgood.inv.retouch h (Nat.le_add_left 1 _) rfl rfl rfl
      · exact hgood.within
    · obtain ⟨fast, hfast⟩ := TierConfig.exists_fastestTierCache (hgood.inv.placed h)
      have hslow : it.entry.tier ≠ fast := fun heq => hhit (heq ▸ hfast)
      rw [read_slower_eq h hfast hslow]
      split
      next hsize =>
        have hpromoted := promotedState_repInv inval hgood.inv h hfast
        have hother := hgood.within_of_insert hpromoted (promotedState_blocks hfast key it s)
        apply (enforce_good inval hpromoted hother).bind
        intro ⟨status, s'⟩ ⟨hok, hsteps, hgood'⟩
        cases hok
        dsimp only
        cases h' : s'.blocks.lookup key with
        | none => exact returns_ok ⟨.lost h hfast hslow hsize hsteps hgood' h', hgood'⟩
        | some it' => exact returns_ok ⟨.promoted h hfast hslow hsize hsteps hgood' h', hgood'⟩
      next hsize =>
        exact returns_ok ⟨.stay h hfast hslow (Nat.lt_of_not_le hsize),
          touchedState_repInv hgood.inv h, hgood.within⟩

/-! ## Prefetching -/

/-- The loop of `Prefetch` from a state to another. -/
inductive Prefetched (inval : Invalidation) (config : TierConfig D) (fast : Tier) :
    List BlockKey → State → State → Prop
  | nil {s : State} : Prefetched inval config fast [] s s
  | skip {key : BlockKey} {rest : List BlockKey} {s s' : State}
      (hskip : ∀ it, s.blocks.lookup key = some it → it.entry.tier ≠ fast →
        config.evictionThresholdOf fast < blockSizeBytes it.block)
      (hrest : Prefetched inval config fast rest s s') :
      Prefetched inval config fast (key :: rest) s s'
  | place {key : BlockKey} {rest : List BlockKey} {it : StoredBlock} {s s₁ s' : State}
      (h : s.blocks.lookup key = some it) (hslow : it.entry.tier ≠ fast)
      (hsize : blockSizeBytes it.block ≤ config.evictionThresholdOf fast)
      (hsteps : EnforceSteps inval config fast
        (admitLocked inval config it.block fast it.entry.tenantId s) s₁)
      (hgood : Good config s₁) (hrest : Prefetched inval config fast rest s₁ s') :
      Prefetched inval config fast (key :: rest) s s'

theorem prefetchKeys_returns {fast : Tier} (hfast : config.configured fast = true)
    (predicted : List BlockKey) (hgood : Good config s) :
    Returns (prefetchKeys inval config fast predicted s) fun r =>
      r.1 = .success ∧ Prefetched inval config fast predicted s r.2 ∧ Good config r.2 := by
  induction predicted generalizing s with
  | nil => exact returns_ok ⟨rfl, .nil, hgood⟩
  | cons key rest ih =>
    have hskip (h : ∀ it, s.blocks.lookup key = some it → it.entry.tier ≠ fast →
        config.evictionThresholdOf fast < blockSizeBytes it.block) :
        Returns (prefetchKeys inval config fast rest s) fun r =>
          r.1 = .success ∧ Prefetched inval config fast (key :: rest) s r.2 ∧ Good config r.2 :=
      (ih hgood).mono fun r ⟨hok, hrest, hgood'⟩ => ⟨hok, .skip h hrest, hgood'⟩
    unfold prefetchKeys
    cases h : s.blocks.lookup key with
    | none => exact hskip (by simp [h])
    | some it =>
      dsimp only
      split
      next htier =>
        apply hskip
        intro it' h' hslow
        cases h.symm.trans h'
        exact absurd htier hslow
      next hslow =>
        split
        next hsize =>
          apply hskip
          intro it' h' _
          cases h.symm.trans h'
          exact hsize
        next hsize =>
          apply (placeLocked_returns inval hgood hfast it.block it.entry.tenantId).bind
          intro r hplaced
          cases hplaced with
          | refused hsize' => exact absurd hsize' hsize
          | @placed s₁ hsize hsteps hgood₁ =>
            apply (ih hgood₁).mono
            intro r ⟨hok, hrest, hgood'⟩
            exact ⟨hok, .place h hslow hsize hsteps hgood₁ hrest, hgood'⟩

/-! ## Rules for what capacity enforcement establishes -/

theorem read_rule {Q : State → Prop} (inval : Invalidation) (hgood : Good config s) (key : BlockKey)
    (hmiss : s.blocks.lookup key = none → Q s)
    (hhit : ∀ it, s.blocks.lookup key = some it → config.fastestTierCache = some it.entry.tier →
      Q (retouch config key it (touchedFastest it s.logicalClock) s))
    (hstay : ∀ it fast, s.blocks.lookup key = some it → config.fastestTierCache = some fast →
      it.entry.tier ≠ fast → config.evictionThresholdOf fast < it.entry.sizeBytes →
      Q (touchedState config key it s))
    (hpromote : ∀ it fast, s.blocks.lookup key = some it → config.fastestTierCache = some fast →
      it.entry.tier ≠ fast → it.entry.sizeBytes ≤ config.evictionThresholdOf fast →
      Returns (enforceCapacityLocked inval config fast (promotedState inval config key it fast s))
        fun r => Q r.2) :
    Returns (read inval config key s) fun r => Q r.2 := by
  cases h : s.blocks.lookup key with
  | none =>
    unfold read
    rw [h]
    exact returns_ok (hmiss h)
  | some it =>
    by_cases hhit' : config.fastestTierCache = some it.entry.tier
    · unfold read
      rw [h]
      dsimp only
      rw [if_pos hhit', touchFastest_eq hhit']
      exact returns_ok (hhit it h hhit')
    · obtain ⟨fast, hfast⟩ := TierConfig.exists_fastestTierCache (hgood.inv.placed h)
      have hslow : it.entry.tier ≠ fast := fun heq => hhit' (heq ▸ hfast)
      rw [read_slower_eq h hfast hslow]
      split
      next hsize =>
        apply (hpromote it fast h hfast hslow hsize).bind
        intro ⟨status, s'⟩ hQ
        dsimp only
        split
        next => exact returns_ok hQ
        next => split <;> exact returns_ok hQ
      next hsize => exact returns_ok (hstay it fast h hfast hslow (Nat.lt_of_not_le hsize))

/-- `Q` relates the keys, the state before the loop and the one after it. -/
theorem prefetchKeys_rule {Q : List BlockKey → State → State → Prop} (inval : Invalidation)
    {fast : Tier} (hfast : config.configured fast = true) (hnil : ∀ s, Q [] s s)
    (hskip : ∀ key rest s s', (∀ it, s.blocks.lookup key = some it → it.entry.tier ≠ fast →
      config.evictionThresholdOf fast < blockSizeBytes it.block) →
      Q rest s s' → Q (key :: rest) s s')
    (hplace : ∀ key rest it s, Good config s → s.blocks.lookup key = some it →
      it.entry.tier ≠ fast → blockSizeBytes it.block ≤ config.evictionThresholdOf fast →
      Returns (placeLocked inval config it.block fast it.entry.tenantId s) fun r =>
        ∀ s', Q rest r.2 s' → Q (key :: rest) s s')
    (predicted : List BlockKey) (hgood : Good config s) :
    Returns (prefetchKeys inval config fast predicted s) fun r => Q predicted s r.2 := by
  induction predicted generalizing s with
  | nil => exact returns_ok (hnil s)
  | cons key rest ih =>
    have hrest (h : ∀ it, s.blocks.lookup key = some it → it.entry.tier ≠ fast →
        config.evictionThresholdOf fast < blockSizeBytes it.block) :
        Returns (prefetchKeys inval config fast rest s) fun r => Q (key :: rest) s r.2 :=
      (ih hgood).mono fun r hQ => hskip key rest s r.2 h hQ
    unfold prefetchKeys
    cases h : s.blocks.lookup key with
    | none => exact hrest (by simp [h])
    | some it =>
      dsimp only
      split
      next htier => exact hrest (by simp [h, htier])
      next hslow =>
        split
        next hsize => exact hrest (by simp [h, hsize])
        next hsize =>
          obtain ⟨r, hr, hQ⟩ := hplace key rest it s hgood h hslow (Nat.le_of_not_lt hsize)
          have hplaced :=
            (placeLocked_returns inval hgood hfast it.block it.entry.tenantId).of_eq hr
          rw [hr]
          cases hplaced with
          | refused hsize' => exact absurd hsize' hsize
          | placed _ _ hgood₁ => exact (ih hgood₁).mono fun r' hQ' => hQ r'.2 hQ'

end

end TieredKVCache.Storage
