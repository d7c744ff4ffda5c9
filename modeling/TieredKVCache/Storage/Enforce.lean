import TieredKVCache.Storage.Picker

/-!
# Capacity enforcement

`EnforceStep` lists what `EnforceCapacityLocked` does to the state: a round of the S3-FIFO
scan, or the eviction of a picked victim, both in a tier that is over its threshold. A call
for a tier is a sequence of such steps in that tier and in slower ones (`EnforceSteps`), so
that whatever these steps preserve is preserved by the call. `enforceCapacityLocked_returns`
is total correctness: the call ends, with success, and no tier it is about is left over its
threshold.
-/

namespace TieredKVCache.Storage

open Lib Relation

section

variable {D : Type} (inval : Invalidation) (config : TierConfig D)

/-- What becomes of the state when a victim of a tier is evicted: demoted, or dropped
where there is no slower tier that can hold it. -/
def evicted (t : Tier) (key : BlockKey) (it : StoredBlock) (s : State) : State :=
  let s := removeLocked config inval key s
  match config.nextSlowerConfigured t with
  | none => s
  | some slower =>
    if blockSizeBytes it.block ≤ config.capacityOf slower then demoteLocked config slower it s
    else { s with logicalClock := s.logicalClock + 1 }

variable [DoubleArith D]

inductive EnforceStep (t : Tier) (s : State) : State → Prop
  | scan {s' : State} (hover : config.evictionThresholdOf t < s.usedBytes t)
      (hfast : config.fastestTierCache = some t) (h : S3Step config t s (.inl s'))
      (hunder : NoQuotaVictim config t s) : EnforceStep t s s'
  | evict {key : BlockKey} {it : StoredBlock} {s₁ : State}
      (hover : config.evictionThresholdOf t < s.usedBytes t) (hpick : Picked config t s key s₁)
      (h : s₁.blocks.lookup key = some it) (ht : it.entry.tier = t) :
      EnforceStep t s (evicted inval config t key it s₁)

/-- Steps in a tier and in slower ones. -/
def EnforceSteps (t : Tier) : State → State → Prop :=
  ReflTransGen fun s s' => ∃ u, t.toNat ≤ u.toNat ∧ EnforceStep inval config u s s'

end

section

variable {D : Type} {inval : Invalidation} {config : TierConfig D} {t u : Tier} {key : BlockKey}
  {it : StoredBlock} {s s' s₁ : State}

/-! ## Facts about the parts of a step -/

theorem S3Step.usedBytes (h : S3Step config t s (.inl s')) : s'.usedBytes = s.usedBytes := by
  cases h <;> rfl

theorem Scans.usedBytes [DoubleArith D] (h : Scans config t s s') : s'.usedBytes = s.usedBytes := by
  induction h with
  | refl => rfl
  | tail _ hlast ih => exact hlast.2.usedBytes.trans ih

theorem Picked.repInv [DoubleArith D] (h : Picked config t s key s₁) (hinv : RepInv config s) :
    RepInvExcept config (some key) s₁ := by
  cases h with
  | quota hq => exact { hinv with queued := fun hk hfast _ => hinv.queued hk hfast (by simp) }
  | oldest hslow hold =>
    exact { hinv with queued := fun hk hfast _ => hinv.queued hk hfast (by simp) }
  | popped hfast hpop => exact (hpop.repInv_victim hinv).tick _ (Nat.le_refl _) _ _ _

/-- A pick touches no block and no counter. -/
theorem Picked.frame [DoubleArith D] (h : Picked config t s key s₁) :
    s₁.blocks = s.blocks ∧ s₁.usedBytes = s.usedBytes := by
  cases h with
  | quota hq => exact ⟨rfl, rfl⟩
  | oldest hslow hold => exact ⟨rfl, rfl⟩
  | popped hfast hpop =>
    cases hpop with
    | victimSmall =>
      rw [ghostInsertLocked_eq]
      exact ⟨rfl, rfl⟩
    | victimMain => exact ⟨rfl, rfl⟩

theorem Picked.blocks [DoubleArith D] (h : Picked config t s key s₁) : s₁.blocks = s.blocks :=
  h.frame.1

theorem Picked.usedBytes [DoubleArith D] (h : Picked config t s key s₁) :
    s₁.usedBytes = s.usedBytes := h.frame.2

/-- A tier over some bound holds a block. -/
theorem RepInvExcept.occupied (hinv : RepInv config s) {bound : Nat}
    (hover : bound < s.usedBytes t) : Occupied t s := by
  have hpos : 0 < bytesOf (fun _ it => it.entry.tier = t) s.blocks := by
    rw [← hinv.used t]
    omega
  obtain ⟨k, it, hk, hit⟩ := exists_pos_of_sumOver_pos hpos
  refine ⟨k, it, hk, ?_⟩
  by_contra ht
  rw [if_neg ht] at hit
  exact Nat.lt_irrefl 0 hit

/-- A tier that is not configured holds nothing. -/
theorem RepInvExcept.usedBytes_of_not_configured (hinv : RepInv config s)
    (ht : config.configured t = false) : s.usedBytes t = 0 := by
  rw [hinv.used t]
  apply sumOver_eq_zero
  intro k it hk
  rw [if_neg]
  intro htier
  have hplaced := hinv.placed hk
  rw [htier, ht] at hplaced
  cases hplaced

theorem fastestTierCache_ne_of_nextSlower (h : config.nextSlowerConfigured t = some u)
    (ht : config.configured t = true) : config.fastestTierCache ≠ some u := by
  intro hfast
  have hle := TierConfig.fastestTierCache_le hfast ht
  have hlt := TierConfig.nextSlowerConfigured_lt h
  omega

theorem demoteLocked_repInv (hinv : RepInv config s) (habsent : s.blocks.lookup key = none)
    (hkey : it.block.key = key) (hcount : 1 ≤ it.entry.stats.accessCount)
    (hslow : config.fastestTierCache ≠ some u) (hu : config.configured u = true) :
    RepInv config (demoteLocked config u it s) := by
  subst hkey
  rw [demoteLocked_eq hslow]
  refine (hinv.tick _ (Nat.le_succ _) s.ghost s.ghostFifo s.s3Victims).enter
    { absent := habsent, keyed := rfl, placed := hu, sized := rfl, counted := hcount
      stampLe := Nat.le_refl _, stampNew := ?_ }
  intro k it' hk
  exact Nat.ne_of_lt (Nat.lt_succ_of_le (hinv.stampLe hk))

/-- The blocks of a tier are the same in both states. -/
def SameIn (t : Tier) (s s' : State) : Prop :=
  ∀ k it, it.entry.tier = t → (s.blocks.lookup k = some it ↔ s'.blocks.lookup k = some it)

theorem SameIn.refl (t : Tier) (s : State) : SameIn t s s := fun _ _ _ => Iff.rfl

theorem SameIn.trans {a b c : State} (h : SameIn t a b) (h' : SameIn t b c) : SameIn t a c :=
  fun k it ht => (h k it ht).trans (h' k it ht)

theorem SameIn.usedBytes (h : SameIn t s s') (hinv : RepInv config s) (hinv' : RepInv config s') :
    s.usedBytes t = s'.usedBytes t := by
  rw [hinv.used t, hinv'.used t]
  exact sumOver_congr (fun _ it => it.entry.tier = t) (fun _ _ h => if_neg h)
    (fun _ _ h => if_neg h) (fun _ _ _ _ => rfl) h

theorem SameIn.residentCount (h : SameIn t s s') : residentCount t s = residentCount t s' :=
  sumOver_congr (fun _ it => it.entry.tier = t) (fun _ _ h => if_neg h)
    (fun _ _ h => if_neg h) (fun _ _ _ _ => rfl) h

theorem sameIn_insert {it' : StoredBlock} (hs' : s'.blocks = s.blocks.insert key it')
    (h : s.blocks.lookup key = some it) (ht : it.entry.tier ≠ t) (ht' : it'.entry.tier ≠ t) :
    SameIn t s s' := by
  intro k it₀ ht₀
  rw [hs', lookup_insert_eq_some]
  constructor
  · intro hk
    refine .inr ⟨?_, hk⟩
    intro hkey
    subst hkey
    cases h.symm.trans hk
    exact ht ht₀
  · intro hk
    rcases hk with ⟨_, rfl⟩ | ⟨_, hk⟩
    · exact absurd ht₀ ht'
    · exact hk

/-- A round of the scan leaves every tier but the fastest alone. -/
theorem S3Step.sameIn (h : S3Step config u s (.inl s'))
    (hne : config.fastestTierCache ≠ some t) : SameIn t s s' := by
  cases h with
  | staleSmall => exact .refl t s
  | staleMain => exact .refl t s
  | promote hfrom hq h hlive hfreq =>
    exact sameIn_insert rfl h (fun ht => hne (ht ▸ hlive.1)) (fun ht => hne (ht ▸ hlive.1))
  | second hfrom hq h hlive hfreq =>
    exact sameIn_insert rfl h (fun ht => hne (ht ▸ hlive.1)) (fun ht => hne (ht ▸ hlive.1))

theorem S3Step.residentCount (h : S3Step config u s (.inl s')) :
    residentCount t s' = residentCount t s :=
  h.sumOver_entry fun entry => if entry.tier = t then 1 else 0

/-- The block map after an eviction. -/
theorem evicted_blocks (hkey : it.block.key = key) (hslow : config.configured t = true) :
    (evicted inval config t key it s₁).blocks =
      match config.nextSlowerConfigured t with
      | none => s₁.blocks.erase key
      | some slower =>
        if blockSizeBytes it.block ≤ config.capacityOf slower then
          s₁.blocks.insert key (demoted slower it s₁.logicalClock)
        else s₁.blocks.erase key := by
  unfold evicted
  cases hslower : config.nextSlowerConfigured t with
  | none => exact removeLocked_blocks config inval key s₁
  | some slower =>
    dsimp only
    split
    · rw [demoteLocked_eq (fastestTierCache_ne_of_nextSlower hslower hslow)]
      show ((removeLocked config inval key s₁).blocks.insert it.block.key
        (demoted slower it (removeLocked config inval key s₁).logicalClock)) = _
      rw [removeLocked_blocks, removeLocked_logicalClock, hkey, insert_erase]
    · exact removeLocked_blocks config inval key s₁

theorem evicted_lookup_of_ne (hkey : it.block.key = key) (hplaced : config.configured t = true)
    {k : BlockKey} (hk : k ≠ key) :
    (evicted inval config t key it s).blocks.lookup k = s.blocks.lookup k := by
  rw [evicted_blocks hkey hplaced]
  split
  next => exact AList.lookup_erase_ne hk
  next =>
    split
    next => exact AList.lookup_insert_ne hk
    next => exact AList.lookup_erase_ne hk

/-- The victim is not in its tier any more. -/
theorem evicted_lookup_in (hkey : it.block.key = key) (hplaced : config.configured t = true)
    {k : BlockKey} {it' : StoredBlock}
    (hk : (evicted inval config t key it s).blocks.lookup k = some it')
    (ht : it'.entry.tier = t) : k ≠ key ∧ s.blocks.lookup k = some it' := by
  have hne : k ≠ key := by
    intro heq
    subst heq
    rw [evicted_blocks hkey hplaced] at hk
    split at hk
    next => cases (AList.lookup_erase k s.blocks).symm.trans hk
    next slower hslower =>
      split at hk
      next =>
        have hlt := TierConfig.nextSlowerConfigured_lt hslower
        cases (AList.lookup_insert s.blocks).symm.trans hk
        change slower = t at ht
        rw [ht] at hlt
        omega
      next => cases (AList.lookup_erase k s.blocks).symm.trans hk
  exact ⟨hne, (evicted_lookup_of_ne hkey hplaced hne).symm.trans hk⟩

theorem evicted_lookup_iff (hkey : it.block.key = key) (hplaced : config.configured t = true)
    {k : BlockKey} {it' : StoredBlock} (ht : it'.entry.tier = t) :
    (evicted inval config t key it s).blocks.lookup k = some it' ↔
      (s.blocks.erase key).lookup k = some it' := by
  rw [lookup_erase_eq_some]
  constructor
  · exact fun hk => evicted_lookup_in hkey hplaced hk ht
  · exact fun ⟨hne, hk⟩ => (evicted_lookup_of_ne hkey hplaced hne).trans hk

theorem bytesOf_evicted (hkey : it.block.key = key) (hplaced : config.configured t = true) :
    bytesOf (fun _ it => it.entry.tier = t) (evicted inval config t key it s).blocks =
      bytesOf (fun _ it => it.entry.tier = t) (s.blocks.erase key) :=
  bytesOf_congr_on t (fun _ _ ht => evicted_lookup_iff hkey hplaced ht) (fun _ _ ht => ht)
    (fun _ _ ht => ht) (fun _ _ _ _ => Iff.rfl)

theorem evicted_queues (inval : Invalidation) (h : s.blocks.lookup key = some it)
    (hplaced : config.configured t = true) :
    (evicted inval config t key it s).s3SmallFifo = leaveQueue config inval key it s.s3SmallFifo ∧
      (evicted inval config t key it s).s3MainFifo =
        leaveQueue config inval key it s.s3MainFifo := by
  unfold evicted
  cases hslower : config.nextSlowerConfigured t with
  | none => simp [removeLocked_eq h]
  | some slower =>
    have hslow := fastestTierCache_ne_of_nextSlower hslower hplaced
    dsimp only
    split
    · rw [demoteLocked_eq hslow]
      simp [enter, InSmall, InMain, demoted, hslow, removeLocked_eq h]
    · simp [removeLocked_eq h]

/-- An eviction changes the tier of the victim and the one it is demoted to. -/
theorem evicted_sameIn {v : Tier} (inval : Invalidation) (h : s.blocks.lookup key = some it)
    (ht : it.entry.tier = t) (hkey : it.block.key = key) (hplaced : config.configured t = true)
    (hv : v ≠ t)
    (hslow : ∀ slower, config.nextSlowerConfigured t = some slower →
      blockSizeBytes it.block ≤ config.capacityOf slower → v ≠ slower) :
    SameIn v s (evicted inval config t key it s) := by
  have herase {s' : State} (hs' : s'.blocks = s.blocks.erase key) : SameIn v s s' := by
    intro k it₀ ht₀
    rw [hs', lookup_erase_eq_some, iff_and_self]
    intro hk hkey
    subst hkey
    cases h.symm.trans hk
    exact hv (ht₀.symm.trans ht)
  have hevicted : (evicted inval config t key it s).blocks = _ := evicted_blocks hkey hplaced
  split at hevicted
  next => exact herase hevicted
  next slower hslower =>
    split at hevicted
    next hfits =>
      refine sameIn_insert hevicted h (fun heq => hv (heq.symm.trans ht)) ?_
      exact fun heq => hslow slower hslower hfits heq.symm
    next => exact herase hevicted

theorem residentCount_evicted_lt (h : s.blocks.lookup key = some it) (ht : it.entry.tier = t)
    (hkey : it.block.key = key) (hplaced : config.configured t = true) :
    residentCount t (evicted inval config t key it s) < residentCount t s := by
  have hbefore : residentCount t s = 1 + sumOver (fun _ it => if it.entry.tier = t then 1 else 0)
      (s.blocks.erase key) := by
    rw [residentCount, sumOver_erase h, if_pos ht]
  rw [hbefore, residentCount, evicted_blocks hkey hplaced]
  split
  next => omega
  next slower hslower =>
    split
    next =>
      have hne : slower ≠ t := by
        intro heq
        have hlt := TierConfig.nextSlowerConfigured_lt hslower
        rw [heq] at hlt
        omega
      rw [sumOver_insert, if_neg (show (demoted slower it s.logicalClock).entry.tier ≠ t from hne)]
      omega
    next => omega

end

section

variable {D : Type} [DoubleArith D] {inval : Invalidation} {config : TierConfig D}
  {t u : Tier} {key : BlockKey} {it : StoredBlock} {s s' s₁ : State}

/-! ## What a step preserves -/

theorem EnforceStep.repInv (h : EnforceStep inval config t s s') (hinv : RepInv config s) :
    RepInv config s' := by
  cases h with
  | scan hover hfast h => exact h.repInv hinv
  | @evict key it s₁ hover hpick h ht =>
    have hinv₁ := hpick.repInv hinv
    have hleave : RepInv config (removeLocked config inval key s₁) :=
      hinv₁.leave (by simp) h
    unfold evicted
    dsimp only
    split
    next => exact hleave
    next slower hslower =>
      split
      next =>
        refine demoteLocked_repInv hleave ?_ (hinv₁.keyed h).2 (hinv₁.counted h)
          (fastestTierCache_ne_of_nextSlower hslower (ht ▸ hinv₁.placed h))
          (TierConfig.nextSlowerConfigured_configured hslower)
        rw [removeLocked_blocks, AList.lookup_erase]
      next =>
        exact hleave.tick _ (Nat.le_succ _) _ _ _

/-- What every step preserves is preserved by all of them. -/
theorem EnforceSteps.invariant {P : State → Prop} (h : EnforceSteps inval config t s s')
    (hstep : ∀ {u a b}, t.toNat ≤ u.toNat → P a → EnforceStep inval config u a b → P b)
    (hs : P s) : P s' := by
  induction h with
  | refl => exact hs
  | tail _ hlast ih =>
    obtain ⟨u, hu, hlast⟩ := hlast
    exact hstep hu ih hlast

theorem EnforceSteps.repInv (h : EnforceSteps inval config t s s') (hinv : RepInv config s) :
    RepInv config s' :=
  h.invariant (fun _ hinv hstep => hstep.repInv hinv) hinv

theorem EnforceSteps.mono (h : EnforceSteps inval config u s s') (htu : t.toNat ≤ u.toNat) :
    EnforceSteps inval config t s s' := by
  refine ReflTransGen.mono ?_ _ _ h
  intro a b ⟨v, hv, hstep⟩
  exact ⟨v, htu.trans hv, hstep⟩

/-- A step in a tier leaves the faster tiers alone. -/
theorem EnforceStep.sameIn (h : EnforceStep inval config u s s') (hinv : RepInv config s)
    (htu : t.toNat < u.toNat) : SameIn t s s' := by
  have hne : t ≠ u := fun heq => by simp [heq] at htu
  cases h with
  | scan hover hfast h =>
    apply h.sameIn
    rw [hfast]
    exact fun heq => hne (Option.some.inj heq).symm
  | @evict key it s₁ hover hpick h ht =>
    have hinv₁ := hpick.repInv hinv
    have hsame : SameIn t s s₁ := by
      intro k it₀ _
      rw [hpick.blocks]
    refine hsame.trans (evicted_sameIn inval h ht (hinv₁.keyed h).2 (ht ▸ hinv₁.placed h) hne ?_)
    intro slower hslower _ heq
    have hlt := TierConfig.nextSlowerConfigured_lt hslower
    rw [heq] at htu
    omega

/-- A step in a slower tier leaves the queues of the fastest one alone. -/
theorem EnforceStep.queues (h : EnforceStep inval config t s s') (hinv : RepInv config s)
    (hslow : config.fastestTierCache ≠ some t) :
    s'.s3SmallFifo = s.s3SmallFifo ∧ s'.s3MainFifo = s.s3MainFifo := by
  cases h with
  | scan hover hfast h => exact absurd hfast hslow
  | @evict key it s₁ hover hpick h ht =>
    have hplaced : config.configured t = true := ht ▸ (hpick.repInv hinv).placed h
    have hsame (q : List BlockKey) : leaveQueue config inval key it q = q := by
      rw [leaveQueue, if_neg]
      exact fun hp => hslow (ht ▸ hp.2)
    obtain ⟨hsmall, hmain⟩ := evicted_queues inval h hplaced
    rw [hsame] at hsmall hmain
    cases hpick with
    | quota hq => exact ⟨hsmall, hmain⟩
    | oldest _ hold => exact ⟨hsmall, hmain⟩
    | popped hfast hpop => exact absurd hfast hslow

theorem EnforceSteps.sameIn (h : EnforceSteps inval config u s s') (hinv : RepInv config s)
    (htu : t.toNat < u.toNat) : SameIn t s s' := by
  refine (h.invariant (P := fun a => RepInv config a ∧ SameIn t s a) ?_ ⟨hinv, .refl t s⟩).2
  intro v a b hv hP hstep
  exact ⟨hstep.repInv hP.1, hP.2.trans (hstep.sameIn hP.1 (Nat.lt_of_lt_of_le htu hv))⟩

/-! ## Total correctness -/

/-- What a call for a tier establishes. -/
def Enforced (inval : Invalidation) (config : TierConfig D) (t : Tier) (s : State)
    (r : Status × State) : Prop :=
  r.1 = .success ∧ EnforceSteps inval config t s r.2 ∧
    ∀ u, t.toNat ≤ u.toNat → r.2.usedBytes u ≤ config.evictionThresholdOf u

/-- The tiers slower than one are within their thresholds. -/
def SlowerWithin (config : TierConfig D) (t : Tier) (s : State) : Prop :=
  ∀ u, t.toNat < u.toNat → s.usedBytes u ≤ config.evictionThresholdOf u

structure EnforceInv (inval : Invalidation) (config : TierConfig D) (t : Tier) (s a : State) :
    Prop where
  inv : RepInv config a
  steps : EnforceSteps inval config t s a
  slower : SlowerWithin config t a

/-- The scan of a pick is a sequence of steps that changes no counter. -/
theorem EnforceInv.scans {a : State} (h : EnforceInv inval config t s a)
    (hover : config.evictionThresholdOf t < a.usedBytes t) (hscans : Scans config t a s₁) :
    EnforceInv inval config t s s₁ ∧ s₁.usedBytes = a.usedBytes ∧
      residentCount t s₁ = residentCount t a := by
  induction hscans with
  | refl => exact ⟨h, rfl, rfl⟩
  | tail _ hlast ih =>
    obtain ⟨⟨hfast, hunder⟩, hstep⟩ := hlast
    obtain ⟨hinv, hused, hcount⟩ := ih
    have hused' := hstep.usedBytes.trans hused
    refine ⟨⟨hstep.repInv hinv.inv, ?_, ?_⟩, hused', hstep.residentCount.trans hcount⟩
    · exact hinv.steps.tail ⟨t, Nat.le_refl _, .scan (hused ▸ hover) hfast hstep hunder⟩
    · intro u hu
      rw [hused']
      exact h.slower u hu

/-- What the eviction of a chosen victim does for a call that started in `s` and has come to
`a`; `s₂` is the state in which the victim is looked up. -/
structure Evicts (inval : Invalidation) (config : TierConfig D) (t : Tier) (s a : State)
    (key : BlockKey) (it : StoredBlock) (s₂ : State) : Prop where
  found : s₂.blocks.lookup key = some it
  keyed : it.block.key = key
  placed : config.configured t = true
  inv : RepInv config (evicted inval config t key it s₂)
  steps : EnforceSteps inval config t s (evicted inval config t key it s₂)
  count : residentCount t (evicted inval config t key it s₂) < residentCount t a
  slower : ∀ u, t.toNat < u.toNat → (∀ slower, config.nextSlowerConfigured t = some slower →
    blockSizeBytes it.block ≤ config.capacityOf slower → u ≠ slower) →
    (evicted inval config t key it s₂).usedBytes u ≤ config.evictionThresholdOf u

theorem EnforceInv.evicts {a : State} (h : EnforceInv inval config t s a)
    (hover : config.evictionThresholdOf t < a.usedBytes t) :
    Returns (chooseVictim config t a) fun r =>
      ∃ key it, r.1 = some key ∧ Evicts inval config t s a key it r.2 := by
  apply (chooseVictim_returns h.inv (h.inv.occupied hover)).mono
  intro ⟨_, s₂⟩ ⟨key, s₁, hkey, hscans, hinv₁, hpick, it, hk, ht⟩
  obtain ⟨h₁, hused₁, hcount₁⟩ := h.scans hover hscans
  have hinv₂ := hpick.repInv hinv₁
  have hkeyed := (hinv₂.keyed hk).2
  have hplaced : config.configured t = true := ht ▸ hinv₂.placed hk
  have hstep : EnforceStep inval config t s₁ (evicted inval config t key it s₂) :=
    .evict (hused₁ ▸ hover) hpick hk ht
  have hinv₃ := hstep.repInv hinv₁
  refine ⟨key, it, hkey, hk, hkeyed, hplaced, hinv₃, ?steps, ?count, ?slower⟩
  case steps => exact h₁.steps.tail ⟨t, Nat.le_refl _, hstep⟩
  case count =>
    apply Nat.lt_of_lt_of_eq (residentCount_evicted_lt hk ht hkeyed hplaced)
    rw [← hcount₁, residentCount, residentCount, hpick.blocks]
  case slower =>
    -- The slower tiers the victim does not go to keep their counters.
    intro u hu hnot
    have hne : u ≠ t := fun heq => by simp [heq] at hu
    have hsame₁ : SameIn u s₁ s₂ := by
      intro k it₀ _
      rw [hpick.blocks]
    have hsame := hsame₁.trans (evicted_sameIn inval hk ht hkeyed hplaced hne hnot)
    rw [← hsame.usedBytes hinv₁ hinv₃, hused₁]
    exact h.slower u hu

theorem Evicts.slowerWithin {a s₂ : State} (h : Evicts inval config t s a key it s₂)
    (hnext : config.nextSlowerConfigured t = some u) :
    SlowerWithin config u (evicted inval config t key it s₂) := by
  have hlt := TierConfig.nextSlowerConfigured_lt hnext
  intro v hv
  apply h.slower v (Nat.lt_trans hlt hv)
  intro slower hslower _ heq
  cases hnext.symm.trans hslower
  rw [heq] at hv
  omega

/-- The body of the loop in a tier that is over its threshold. -/
theorem enforceBody_over {enforce : Tier → State → Except Fault (Status × State)} {a s₂ : State}
    (hover : config.evictionThresholdOf t < a.usedBytes t)
    (hchoose : chooseVictim config t a = .ok (some key, s₂)) (h : s₂.blocks.lookup key = some it) :
    enforceBody inval config enforce t a =
      match config.nextSlowerConfigured t with
      | none => .ok (.inl (evicted inval config t key it s₂))
      | some slower =>
        if blockSizeBytes it.block ≤ config.capacityOf slower then do
          let r ← enforce slower (evicted inval config t key it s₂)
          if !r.1.isOk then return .inr r
          return .inl r.2
        else .ok (.inl (evicted inval config t key it s₂)) := by
  unfold enforceBody evicted
  rw [if_neg (Nat.not_le_of_lt hover)]
  simp only [hchoose, bind, Except.bind, h, pure, Except.pure]
  cases config.nextSlowerConfigured t with
  | none => rfl
  | some slower =>
    dsimp only
    split <;> rfl

/-- One round of the loop, given that the recursive calls do what they should. -/
theorem enforceBody_round {enforce : Tier → State → Except Fault (Status × State)}
    (henforce : ∀ u a, t.toNat < u.toNat → RepInv config a → SlowerWithin config u a →
      Returns (enforce u a) (Enforced inval config u a))
    (s a : State) (h : EnforceInv inval config t s a) :
    Round (enforceBody inval config enforce t) (EnforceInv inval config t s) (residentCount t)
      (Enforced inval config t s) a := by
  by_cases hover : a.usedBytes t ≤ config.evictionThresholdOf t
  · refine .inr ⟨(.success, a), if_pos hover, rfl, h.steps, ?_⟩
    intro u hu
    rcases Nat.eq_or_lt_of_le hu with heq | hlt
    · exact Tier.toNat_injective heq ▸ hover
    · exact h.slower u hlt
  · replace hover := Nat.lt_of_not_le hover
    obtain ⟨⟨_, s₂⟩, hchoose, key, it, rfl, hev⟩ := h.evicts hover
    have hbody : enforceBody inval config enforce t a = _ :=
      enforceBody_over hover hchoose hev.found
    cases hnext : config.nextSlowerConfigured t with
    | none =>
      rw [hnext] at hbody
      exact .inl ⟨_, hbody, ⟨hev.inv, hev.steps, fun u hu => hev.slower u hu (by simp [hnext])⟩,
        hev.count⟩
    | some slower =>
      have hlt := TierConfig.nextSlowerConfigured_lt hnext
      rw [hnext] at hbody
      dsimp only at hbody
      by_cases hfits : blockSizeBytes it.block ≤ config.capacityOf slower
      · rw [if_pos hfits] at hbody
        obtain ⟨⟨_, s₄⟩, hcall, rfl, hsteps₄, hwithin⟩ :=
          henforce slower (evicted inval config t key it s₂) hlt hev.inv (hev.slowerWithin hnext)
        have hinv₄ := hsteps₄.repInv hev.inv
        rw [hcall] at hbody
        refine .inl ⟨s₄, hbody, ⟨hinv₄, ?_, ?_⟩, ?_⟩
        · exact hev.steps.trans (hsteps₄.mono (Nat.le_of_lt hlt))
        · intro u hu
          by_cases hconf : config.configured u = true
          · exact hwithin u (TierConfig.nextSlowerConfigured_le hnext hconf hu)
          · rw [hinv₄.usedBytes_of_not_configured (by simpa using hconf)]
            exact Nat.zero_le _
        · rw [← (hsteps₄.sameIn hev.inv hlt).residentCount]
          exact hev.count
      · rw [if_neg hfits] at hbody
        refine .inl ⟨_, hbody, ⟨hev.inv, hev.steps, fun u hu => hev.slower u hu ?_⟩, hev.count⟩
        intro slower' hnext' hfits'
        cases hnext.symm.trans hnext'
        exact absurd hfits' hfits

theorem enforceWithin_returns {depth : Nat} (hdepth : 3 ≤ depth + t.toNat)
    (hinv : RepInv config s) (hslower : SlowerWithin config t s) :
    Returns (enforceWithin inval config depth t s) (Enforced inval config t s) := by
  induction depth generalizing t s with
  | zero =>
    have hlt := t.toNat_lt
    omega
  | succ depth ih =>
    refine iterate_returns (EnforceInv inval config t s) (residentCount t) ?_
      ⟨hinv, .refl, hslower⟩ (Nat.lt_succ_self _)
    exact enforceBody_round (fun u a hu hinv hslower => ih (by omega) hinv hslower) s

/-- Capacity enforcement ends, succeeds, and leaves no tier it is about over its
threshold. -/
theorem enforceCapacityLocked_returns (hinv : RepInv config s) (hslower : SlowerWithin config t s) :
    Returns (enforceCapacityLocked inval config t s) (Enforced inval config t s) :=
  enforceWithin_returns (by omega) hinv hslower

/-- A tier within its threshold is left as it is. -/
theorem enforceCapacityLocked_of_le (h : s.usedBytes t ≤ config.evictionThresholdOf t) :
    enforceCapacityLocked inval config t s = .ok (.success, s) := by
  unfold enforceCapacityLocked enforceWithin
  exact iterate_of_inr (if_pos h)

end

end TieredKVCache.Storage
