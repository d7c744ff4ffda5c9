import TieredKVCache.Storage.Compaction

/-!
# Runs of the eager variant

In a fresh run the eager variant does at every call what the lazy one does, and passes
through the compacted states. The loop of `EnforceCapacityLocked` makes the same rounds in both
variants; `runOps_compact` carries the simulation through whole runs.
-/

namespace TieredKVCache.Storage

open Lib

section

variable {D : Type} [DoubleArith D] {config : TierConfig D} {fast t : Tier} {key : BlockKey}
  {it : StoredBlock} {s s' a : State}

/-! ## Capacity enforcement -/

theorem chooseVictim_compact {v : Option BlockKey} (htidy : Tidy s)
    (hover : config.evictionThresholdOf t < s.usedBytes t)
    (hfresh : freshVictim config t s = true) (h : chooseVictim config t s = .ok (v, s')) :
    chooseVictim config t (compact config s) = .ok (v, compact config s') ∧ Tidy s' := by
  have hsame : (if config.quotaEnabledLocked then pickQuotaVictimLocked config t (compact config s)
      else none) =
      if config.quotaEnabledLocked then pickQuotaVictimLocked config t s else none := rfl
  unfold chooseVictim at h ⊢
  rw [hsame]
  cases hquota : (if config.quotaEnabledLocked then pickQuotaVictimLocked config t s else none) with
  | some key =>
    rw [hquota] at h
    cases h
    exact ⟨rfl, htidy⟩
  | none =>
    rw [hquota] at h
    dsimp only at h ⊢
    split at h
    next hfast =>
      rw [freshVictim, if_pos ⟨hover, hfast, hquota⟩] at hfresh
      rw [if_pos hfast]
      exact pickS3VictimLocked_compact hfast htidy hfresh h
    next hslow =>
      cases h
      rw [if_neg hslow]
      exact ⟨rfl, htidy⟩

/-- The recursive calls of the two variants go together. -/
def Agree (config : TierConfig D) (t : Tier)
    (enforce enforce' : Tier → State → Except Fault (Status × State)) : Prop :=
  ∀ u a r, t.toNat < u.toNat → config.fastestTierCache ≠ some u → RepInv config a →
    SlowerWithin config u a → Tidy a → enforce u a = .ok r →
    enforce' u (compact config a) = .ok (r.map id (compact config)) ∧ Tidy r.2

theorem enforceBody_compact {enforce enforce' : Tier → State → Except Fault (Status × State)}
    (hagree : Agree config t enforce enforce') (h : EnforceInv .lazy config t s a)
    (htidy : Tidy a) (hfresh : freshVictim config t a = true)
    {r : State ⊕ (Status × State)} (hbody : enforceBody .lazy config enforce t a = .ok r) :
    enforceBody .eager config enforce' t (compact config a) =
        .ok (r.map (compact config) (Prod.map id (compact config))) ∧
      Tidy (r.elim id Prod.snd) := by
  by_cases hover : a.usedBytes t ≤ config.evictionThresholdOf t
  · rw [enforceBody, if_pos hover] at hbody
    cases hbody
    exact ⟨if_pos hover, htidy⟩
  · replace hover := Nat.lt_of_not_le hover
    obtain ⟨⟨_, s₂⟩, hchoose, key, it, rfl, hev⟩ := h.evicts hover
    obtain ⟨hchoose', htidy₂⟩ := chooseVictim_compact htidy hover hfresh hchoose
    have htidy₃ := htidy₂.evicted hev.found hev.placed
    rw [enforceBody_over hover hchoose hev.found] at hbody
    rw [enforceBody_over (a := compact config a) hover hchoose' hev.found,
      ← compact_evicted hev.keyed hev.placed]
    cases hnext : config.nextSlowerConfigured t with
    | none =>
      rw [hnext] at hbody
      cases hbody
      exact ⟨rfl, htidy₃⟩
    | some slower =>
      rw [hnext] at hbody
      dsimp only at hbody ⊢
      split at hbody
      next hfits =>
        rw [if_pos hfits]
        cases hcall : enforce slower (evicted .lazy config t key it s₂) with
        | error e =>
          rw [hcall] at hbody
          cases hbody
        | ok r₁ =>
          obtain ⟨hcall', htidy₄⟩ := hagree slower _ r₁ (TierConfig.nextSlowerConfigured_lt hnext)
            (fastestTierCache_ne_of_nextSlower hnext hev.placed) hev.inv
            (hev.slowerWithin hnext) htidy₃ hcall
          rw [hcall] at hbody
          rw [hcall']
          simp only [bind, Except.bind, pure, Except.pure] at hbody ⊢
          split at hbody
          next hok =>
            cases hbody
            exact ⟨if_pos hok, htidy₄⟩
          next hok =>
            cases hbody
            exact ⟨if_neg hok, htidy₄⟩
      next hnofit =>
        cases hbody
        rw [if_neg hnofit]
        exact ⟨rfl, htidy₃⟩

theorem freshWithin_of_slower {depth : Nat} (hslow : config.fastestTierCache ≠ some t) :
    freshWithin config depth t s = true := by
  cases depth with
  | zero => rfl
  | succ depth =>
    refine along_of_forall fun a => ?_
    rw [freshVictim, if_neg]
    exact fun hscan => hslow hscan.2.1

theorem enforceWithin_compact {depth : Nat} {r : Status × State} (hdepth : 3 ≤ depth + t.toNat)
    (hinv : RepInv config s) (hslower : SlowerWithin config t s) (htidy : Tidy s)
    (hfresh : freshWithin config depth t s = true)
    (h : enforceWithin .lazy config depth t s = .ok r) :
    enforceWithin .eager config depth t (compact config s) =
      .ok (r.map id (compact config)) ∧ Tidy r.2 := by
  induction depth generalizing t s r with
  | zero =>
    have hlt := t.toNat_lt
    omega
  | succ depth ih =>
    have hagree : Agree config t (enforceWithin .lazy config depth)
        (enforceWithin .eager config depth) := by
      intro u a r hu hslow hinv hslower htidy
      exact ih (by omega) hinv hslower htidy (freshWithin_of_slower hslow)
    have hreturns (u : Tier) (b : State) (hu : t.toNat < u.toNat) (hinv : RepInv config b)
        (hslower : SlowerWithin config u b) :
        Returns (enforceWithin .lazy config depth u b) (Enforced .lazy config u b) :=
      enforceWithin_returns (by omega) hinv hslower
    have hsim : ∃ r', enforceWithin .eager config (depth + 1) t (compact config s) = .ok r' ∧
        r' = r.map id (compact config) ∧ Tidy r.2 := by
      refine iterate_simulation
        (fun a b => b = compact config a ∧ Tidy a ∧ EnforceInv .lazy config t s a)
        (Q := fun r r' => r' = r.map id (compact config) ∧ Tidy r.2) ?_ ?_ hfresh
        ⟨rfl, htidy, hinv, .refl, hslower⟩ h
      · rintro a _ a' hvictim ⟨rfl, htidy, hinv⟩ hbody
        obtain ⟨hbody', htidy'⟩ := enforceBody_compact hagree hinv htidy hvictim hbody
        refine .inr ⟨_, hbody', rfl, htidy', ?_⟩
        rcases enforceBody_round hreturns s a hinv with ⟨a'', hbody'', hinv', _⟩ | ⟨_, hbody'', _⟩
        · cases hbody.symm.trans hbody''
          exact hinv'
        · cases hbody.symm.trans hbody''
      · rintro a _ r hvictim ⟨rfl, htidy, hinv⟩ hbody
        obtain ⟨hbody', htidy'⟩ := enforceBody_compact hagree hinv htidy hvictim hbody
        exact ⟨_, hbody', rfl, htidy'⟩
    obtain ⟨r', hr', rfl, htidy'⟩ := hsim
    exact ⟨hr', htidy'⟩

theorem enforceCapacityLocked_compact {r : Status × State} (hinv : RepInv config s)
    (hother : ∀ u, u ≠ t → s.usedBytes u ≤ config.evictionThresholdOf u) (htidy : Tidy s)
    (hfresh : freshEnforce config t s = true)
    (h : enforceCapacityLocked .lazy config t s = .ok r) :
    enforceCapacityLocked .eager config t (compact config s) =
      .ok (r.map id (compact config)) ∧ Tidy r.2 := by
  refine enforceWithin_compact (by omega) hinv ?_ htidy hfresh h
  intro u hu
  exact hother u fun heq => by simp [heq] at hu

/-! ## Admission and promotion -/

variable {block : KVCacheBlock} {tenantId : UInt32}

/-- The queue that a fresh placement appends to has no entry of the key. -/
theorem freshPlace_spec (hinv : RepInv config s)
    (hsize : blockSizeBytes block ≤ config.evictionThresholdOf t)
    (hfresh : freshPlace config block t tenantId s = true) :
    (InSmall config (admitted config block t tenantId s) → block.key ∉ s.s3SmallFifo) ∧
      (InMain config (admitted config block t tenantId s) → block.key ∉ s.s3MainFifo) ∧
      freshEnforce config t (admitLocked .lazy config block t tenantId s) = true := by
  by_cases hfast : config.fastestTierCache = some t
  · rw [freshPlace, if_pos ⟨hfast, hsize⟩, Bool.and_eq_true, decide_eq_true_eq] at hfresh
    obtain ⟨hnew, henforce⟩ := hfresh
    have hiff := admitted_inMain_iff hfast hinv block tenantId
    refine ⟨fun hsmall => ?_, fun hmain => ?_, henforce⟩
    · rwa [if_neg fun hreused => ?_] at hnew
      cases hsmall.2.symm.trans (hiff.mpr hreused)
    · rwa [if_pos (hiff.mp hmain.2)] at hnew
  · exact ⟨fun hsmall => absurd hsmall.1 hfast, fun hmain => absurd hmain.1 hfast,
      freshWithin_of_slower hfast⟩

theorem placeLocked_compact {r : Status × State} (hgood : Good config s)
    (ht : config.configured t = true) (htidy : Tidy s)
    (hfresh : freshPlace config block t tenantId s = true)
    (h : placeLocked .lazy config block t tenantId s = .ok r) :
    placeLocked .eager config block t tenantId (compact config s) =
      .ok (r.map id (compact config)) ∧ Tidy r.2 := by
  unfold placeLocked at h ⊢
  split at h
  next hsize =>
    cases h
    exact ⟨if_pos hsize, htidy⟩
  next hsize =>
    rw [if_neg hsize]
    have hinv := admitLocked_repInv .lazy hgood.inv ht block tenantId
    have hother := hgood.within_of_insert hinv (admitLocked_blocks .lazy config block t tenantId s)
    obtain ⟨hsmall, hmain, henforce⟩ :=
      freshPlace_spec hgood.inv (Nat.le_of_not_lt hsize) hfresh
    obtain ⟨hplacedIn, htidy'⟩ := admitLocked_compact hsmall hmain
    rw [hplacedIn]
    exact enforceCapacityLocked_compact hinv hother (htidy' htidy) henforce h

/-! ## Public operations -/

theorem write_compact {target : Tier} {r : Status × State} (hgood : Good config s) (htidy : Tidy s)
    (hfresh : freshWrite config block target tenantId s = true)
    (h : write .lazy config block target tenantId s = .ok r) :
    write .eager config block target tenantId (compact config s) =
      .ok (r.map id (compact config)) ∧ Tidy r.2 := by
  unfold write at h ⊢
  unfold freshWrite at hfresh
  cases ht : config.resolveConfiguredTier target with
  | none =>
    rw [ht] at h
    cases h
    exact ⟨rfl, htidy⟩
  | some tier =>
    rw [ht] at h hfresh
    exact placeLocked_compact hgood (TierConfig.resolveConfiguredTier_configured ht) htidy
      hfresh h

theorem read_compact {r : Result KVCacheBlock × State} (hgood : Good config s) (htidy : Tidy s)
    (hfresh : freshRead config key s = true) (h : read .lazy config key s = .ok r) :
    read .eager config key (compact config s) = .ok (r.map id (compact config)) ∧ Tidy r.2 := by
  cases hk : s.blocks.lookup key with
  | none =>
    have hk' : (compact config s).blocks.lookup key = none := hk
    rw [read, hk] at h
    rw [read, hk']
    cases h
    exact ⟨rfl, htidy⟩
  | some it =>
    have hk' : (compact config s).blocks.lookup key = some it := hk
    by_cases hhit : config.fastestTierCache = some it.entry.tier
    · have htouched : retouch config key it (touchedFastest it s.logicalClock) (compact config s) =
          compact config (retouch config key it (touchedFastest it s.logicalClock) s) :=
        (compact_retouch (touchedFastest it s.logicalClock) hk rfl rfl).symm
      simp only [read, hk, if_pos hhit, touchFastest_eq hhit] at h
      simp only [read, hk', if_pos hhit, touchFastest_eq hhit]
      cases h
      exact ⟨congrArg (fun b => Except.ok (Except.ok it.block, b)) htouched,
        htidy.retouch config key it _⟩
    · obtain ⟨fast, hfast⟩ := TierConfig.exists_fastestTierCache (hgood.inv.placed hk)
      have hslow : it.entry.tier ≠ fast := fun heq => hhit (heq ▸ hfast)
      rw [read_slower_eq hk hfast hslow] at h
      rw [read_slower_eq hk' hfast hslow]
      split at h
      next hsize =>
        rw [freshRead, hk, hfast] at hfresh
        dsimp only at hfresh
        rw [if_pos ⟨hslow, hsize⟩, Bool.and_eq_true, decide_eq_true_eq] at hfresh
        obtain ⟨hpromoted, htidy'⟩ := promotedState_compact hfast hk hfresh.1
        have hinv := promotedState_repInv .lazy hgood.inv hk hfast
        have hother := hgood.within_of_insert hinv (promotedState_blocks hfast key it s)
        obtain ⟨⟨_, s₁⟩, hcall, rfl, _, _⟩ := enforce_good (t := fast) .lazy hinv hother
        obtain ⟨hcall', htidy₁⟩ :=
          enforceCapacityLocked_compact (t := fast) hinv hother (htidy' htidy) hfresh.2 hcall
        have hlookup : (compact config s₁).blocks.lookup key = s₁.blocks.lookup key := rfl
        rw [hcall] at h
        rw [if_pos hsize, hpromoted, hcall']
        simp only [bind, Except.bind, pure, Except.pure, Prod.map, id, Status.isOk_success,
          Bool.not_true, Bool.false_eq_true, if_false, hlookup] at h ⊢
        cases h' : s₁.blocks.lookup key with
        | none =>
          rw [h'] at h
          cases h
          exact ⟨rfl, htidy₁⟩
        | some it' =>
          rw [h'] at h
          cases h
          exact ⟨rfl, htidy₁⟩
      next hsize =>
        cases h
        rw [if_neg hsize, touchedState_compact hk]
        exact ⟨rfl, htidy.retouch config key it _⟩

theorem prefetchKeys_compact {predicted : List BlockKey} {r : Status × State}
    (hconf : config.configured fast = true) (hgood : Good config s) (htidy : Tidy s)
    (hfresh : freshKeys config fast predicted s = true)
    (h : prefetchKeys .lazy config fast predicted s = .ok r) :
    prefetchKeys .eager config fast predicted (compact config s) =
      .ok (r.map id (compact config)) ∧ Tidy r.2 := by
  induction predicted generalizing s with
  | nil =>
    cases h
    exact ⟨rfl, htidy⟩
  | cons key rest ih =>
    have hsame : (compact config s).blocks.lookup key = s.blocks.lookup key := rfl
    unfold prefetchKeys at h ⊢
    unfold freshKeys at hfresh
    rw [hsame]
    cases hk : s.blocks.lookup key with
    | none =>
      rw [hk] at h hfresh
      exact ih hgood htidy hfresh h
    | some it =>
      rw [hk] at h hfresh
      dsimp only at h hfresh ⊢
      by_cases htier : it.entry.tier = fast
      · rw [if_pos htier] at h ⊢
        rw [if_pos (.inl htier)] at hfresh
        exact ih hgood htidy hfresh h
      · rw [if_neg htier] at h ⊢
        by_cases hsize : blockSizeBytes it.block > config.evictionThresholdOf fast
        · rw [if_pos hsize] at h ⊢
          rw [if_pos (.inr hsize)] at hfresh
          exact ih hgood htidy hfresh h
        · rw [if_neg hsize] at h ⊢
          rw [if_neg (not_or_intro htier hsize), Bool.and_eq_true] at hfresh
          obtain ⟨hplace, hrest⟩ := hfresh
          obtain ⟨⟨status, s₁⟩, hcall, hplaced⟩ :=
            placeLocked_returns .lazy hgood hconf it.block it.entry.tenantId
          obtain ⟨hcall', htidy₁⟩ := placeLocked_compact hgood hconf htidy hplace hcall
          rw [hcall] at h hrest
          rw [hcall']
          cases hplaced with
          | refused hsize' => exact absurd hsize' hsize
          | placed _ hsteps hgood₁ => exact ih hgood₁ htidy₁ hrest h

theorem prefetch_compact {predicted : List BlockKey} {r : Status × State} (hgood : Good config s)
    (htidy : Tidy s) (hfresh : freshPrefetch config predicted s = true)
    (h : prefetch .lazy config predicted s = .ok r) :
    prefetch .eager config predicted (compact config s) = .ok (r.map id (compact config)) ∧
      Tidy r.2 := by
  unfold prefetch at h ⊢
  unfold freshPrefetch at hfresh
  cases hfast : config.resolveConfiguredTier .hbm with
  | none =>
    rw [hfast] at h
    cases h
    exact ⟨rfl, htidy⟩
  | some fast =>
    rw [hfast] at h hfresh
    exact prefetchKeys_compact (TierConfig.resolveConfiguredTier_configured hfast) hgood htidy
      hfresh h

/-! ## Runs -/

theorem runOp_compact {op : Op} {r : Reply × State} (hgood : Good config s) (htidy : Tidy s)
    (hfresh : freshOp config op s = true) (h : runOp .lazy config op s = .ok r) :
    runOp .eager config op (compact config s) = .ok (r.map id (compact config)) ∧ Tidy r.2 := by
  cases op with
  | write block target tenantId =>
    obtain ⟨⟨status, s₁⟩, hcall, _⟩ := write_returns .lazy hgood block target tenantId
    obtain ⟨hcall', htidy₁⟩ := write_compact hgood htidy hfresh hcall
    simp only [runOp, hcall, bind, Except.bind] at h
    cases h
    simp only [runOp, hcall', bind, Except.bind]
    exact ⟨rfl, htidy₁⟩
  | read key =>
    obtain ⟨⟨result, s₁⟩, hcall, _⟩ := read_returns .lazy hgood key
    obtain ⟨hcall', htidy₁⟩ := read_compact hgood htidy hfresh hcall
    simp only [runOp, hcall, bind, Except.bind] at h
    cases h
    simp only [runOp, hcall', bind, Except.bind]
    exact ⟨rfl, htidy₁⟩
  | prefetch predicted =>
    obtain ⟨⟨status, s₁⟩, hcall, _⟩ := prefetch_returns .lazy hgood predicted
    obtain ⟨hcall', htidy₁⟩ := prefetch_compact hgood htidy hfresh hcall
    simp only [runOp, hcall, bind, Except.bind] at h
    cases h
    simp only [runOp, hcall', bind, Except.bind]
    exact ⟨rfl, htidy₁⟩
  | enforceCapacity t =>
    simp only [runOp, enforceCapacity_eq hgood, bind, Except.bind] at h
    cases h
    have heager : enforceCapacity .eager config t (compact config s) =
        .ok (.success, compact config s) := enforceCapacityLocked_of_le (hgood.within t)
    simp only [runOp, heager, bind, Except.bind]
    exact ⟨rfl, htidy⟩

theorem runOps_compact {ops : List Op} (hgood : Good config s) (htidy : Tidy s)
    (hfresh : freshOps config ops s = true) :
    Returns (runOps .lazy config ops s) fun r =>
      runOps .eager config ops (compact config s) = .ok (r.map id (compact config)) ∧
        Tidy r.2 := by
  induction ops generalizing s with
  | nil => exact returns_ok ⟨rfl, htidy⟩
  | cons op ops ih =>
    unfold freshOps at hfresh
    rw [Bool.and_eq_true] at hfresh
    obtain ⟨hop, hops⟩ := hfresh
    obtain ⟨⟨reply, s₁⟩, hcall, _, hgood₁⟩ : Returns (runOp .lazy config op s) _ :=
      runOp_returns hgood op
    obtain ⟨hcall', htidy₁⟩ := runOp_compact hgood htidy hop hcall
    rw [hcall] at hops
    obtain ⟨⟨replies, s'⟩, hrest, hrest', htidy'⟩ := ih hgood₁ htidy₁ hops
    refine ⟨(reply :: replies, s'), ?_, ?_, htidy'⟩
    · simp only [runOps, hcall, hrest, bind, Except.bind]
      rfl
    · simp only [runOps, hcall', bind, Except.bind, Prod.map, hrest']
      rfl

/-- **Lazy invalidation.** Every fresh run gives the replies of the eager variant, and every
scan picks the victim that the eager variant picks. The queues of the eager variant, which
hold the blocks of the fastest tier once each, are what the lazy scan would not skip. -/
theorem runOps_eager_of_fresh (config : TierConfig D) (ops : List Op)
    (hfresh : freshOps config ops State.fresh = true) :
    Returns (runOps .lazy config ops State.fresh) fun r =>
      Returns (runOps .eager config ops State.fresh) fun r' =>
        r'.1 = r.1 ∧ r'.2.s3Victims = r.2.s3Victims ∧ r'.2 = compact config r.2 ∧
          QueuesExact config r'.2 := by
  obtain ⟨r, hr, hrun, htidy⟩ := runOps_compact (good_fresh config) tidy_fresh hfresh
  have hgood := (runOps_good ops (good_fresh config)).of_eq hr
  exact ⟨r, hr, _, hrun, rfl, rfl, rfl, compact_queuesExact hgood.inv htidy⟩

end

def skippedEntryOps : List Op :=
  [.write (plainBlock 1 4) .hbm 0, .write (plainBlock 1 4) .hbm 0, .write (plainBlock 2 7) .hbm 0]

/-- The second write leaves an entry in the small queue, which the scan of the third skips. -/
theorem runOps_eager_of_fresh_skippedEntry :
    Returns (runOps .lazy oneTier skippedEntryOps State.fresh) fun r =>
      Returns (runOps .eager oneTier skippedEntryOps State.fresh) fun r' =>
        r'.1 = r.1 ∧ r'.2.s3Victims = r.2.s3Victims ∧ r'.2 = compact oneTier r.2 ∧
          QueuesExact oneTier r'.2 :=
  runOps_eager_of_fresh oneTier skippedEntryOps (by decide +kernel)

def rewriteOps : List Op :=
  [.write (plainBlock 1 4) .hbm 0, .write (plainBlock 2 6) .hbm 0,
    .write (plainBlock 1 4) .hbm 0, .write (plainBlock 2 6) .hbm 0,
    .write (plainBlock 1 4) .hbm 0, .write (plainBlock 3 1) .hbm 0]

/-- Two blocks fill the tier and are written again, the first one twice: its entry in front of
the second block counts as live again, and the lazy scan evicts it first. -/
theorem rewriteOps_victims_differ :
    Returns (runOps .lazy oneTier rewriteOps State.fresh) fun r =>
      Returns (runOps .eager oneTier rewriteOps State.fresh) fun r' =>
        r.2.s3Victims = [some (plainKey 1)] ∧ r'.2.s3Victims = [some (plainKey 2)] := by
  refine returns_of_toOption (b := [some (plainKey 1)]) (f := fun r => some r.2.s3Victims)
    (by decide +kernel) fun r hr => ?_
  refine returns_of_toOption (b := [some (plainKey 2)]) (f := fun r => some r.2.s3Victims)
    (by decide +kernel) fun r' hr' => ?_
  exact ⟨Option.some.inj hr, Option.some.inj hr'⟩

end TieredKVCache.Storage
