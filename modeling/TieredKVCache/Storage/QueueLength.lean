import Mathlib.Data.Finset.Card
import TieredKVCache.Storage.EagerRuns
import TieredKVCache.Storage.Ledger

/-!
# The length of the queues

An entry of a queue is removed only when a scan pops it, so that writing one resident block
again and again makes the queues grow without bound (`rewrites_grow`): nothing is evicted
and nothing is popped. In a fresh run the queues are free of duplicates, and they hold keys
of blocks that the run has touched (`KeysIn`), which bounds their length. Over all the runs
the queues are bounded if and only if no block of the set fits the fastest tier
(`queues_bounded_iff`).
-/

namespace TieredKVCache.Storage

open Lib

/-! ## The keys in the queues -/

/-- The keys that are resident or queued are among `keys`. -/
structure KeysIn (keys : Finset BlockKey) (s : State) : Prop where
  resident : ∀ k it, s.blocks.lookup k = some it → k ∈ keys
  small : ∀ k ∈ s.s3SmallFifo, k ∈ keys
  main : ∀ k ∈ s.s3MainFifo, k ∈ keys

theorem keysIn_fresh (keys : Finset BlockKey) : KeysIn keys State.fresh where
  resident _ _ h := by cases h
  small _ h := by cases h
  main _ h := by cases h

section

variable {D : Type} {config : TierConfig D} {keys : Finset BlockKey} {fast t : Tier}
  {key : BlockKey} {it : StoredBlock} {s s' : State}

theorem KeysIn.insert (h : KeysIn keys s) (hkey : key ∈ keys)
    (hblocks : s'.blocks = s.blocks.insert key it)
    (hsmall : ∀ k ∈ s'.s3SmallFifo, k ∈ s.s3SmallFifo ∨ k = key)
    (hmain : ∀ k ∈ s'.s3MainFifo, k ∈ s.s3MainFifo ∨ k = key) : KeysIn keys s' where
  resident k it' hk := by
    rw [hblocks] at hk
    rcases lookup_insert_eq_some.mp hk with ⟨rfl, _⟩ | ⟨_, hk⟩
    · exact hkey
    · exact h.resident k it' hk
  small k hk := (hsmall k hk).elim (h.small k) fun heq => heq ▸ hkey
  main k hk := (hmain k hk).elim (h.main k) fun heq => heq ▸ hkey

theorem S3Step.keysIn {r : State ⊕ (Option BlockKey × State)} (hstep : S3Step config fast s r)
    (h : KeysIn keys s) : KeysIn keys (r.elim id Prod.snd) := by
  have hpop {q rest : List BlockKey} {key : BlockKey} (hq : q = key :: rest) (k : BlockKey)
      (hk : k ∈ rest) : k ∈ q := hq ▸ List.mem_cons_of_mem key hk
  cases hstep with
  | empty => exact h
  | staleSmall hfrom hq => exact ⟨h.resident, fun k hk => h.small k (hpop hq k hk), h.main⟩
  | promote hfrom hq hk =>
    refine h.insert (h.resident _ _ hk) rfl (fun k hk => .inl (hpop hq k hk)) fun k hk => ?_
    rcases List.mem_append.mp hk with hk | hk
    · exact .inl hk
    · exact .inr (List.mem_singleton.mp hk)
  | victimSmall hfrom hq =>
    rw [ghostInsertLocked_eq]
    exact ⟨h.resident, fun k hk => h.small k (hpop hq k hk), h.main⟩
  | staleMain hfrom hq => exact ⟨h.resident, h.small, fun k hk => h.main k (hpop hq k hk)⟩
  | second hfrom hq hk =>
    refine h.insert (h.resident _ _ hk) rfl (fun k hk => .inl hk) fun k hk => ?_
    rcases List.mem_append.mp hk with hk | hk
    · exact .inl (hpop hq k hk)
    · exact .inr (List.mem_singleton.mp hk)
  | victimMain hfrom hq => exact ⟨h.resident, h.small, fun k hk => h.main k (hpop hq k hk)⟩

theorem Picked.keysIn [DoubleArith D] {s₁ : State} (hpick : Picked config t s key s₁)
    (h : KeysIn keys s) : KeysIn keys s₁ := by
  cases hpick with
  | quota hq => exact h
  | oldest hslow hold => exact h
  | popped hfast hpop =>
    have hpopped := hpop.keysIn h
    exact ⟨hpopped.resident, hpopped.small, hpopped.main⟩

theorem KeysIn.evicted (h : KeysIn keys s) (hk : s.blocks.lookup key = some it)
    (hkey : it.block.key = key) (hplaced : config.configured t = true) :
    KeysIn keys (evicted .lazy config t key it s) := by
  obtain ⟨hsmall, hmain⟩ := evicted_queues .lazy hk hplaced
  rw [leaveQueue_lazy] at hsmall hmain
  refine ⟨fun k it' hk' => ?_, hsmall ▸ h.small, hmain ▸ h.main⟩
  by_cases heq : k = key
  · exact heq ▸ h.resident key it hk
  · rw [evicted_lookup_of_ne hkey hplaced heq] at hk'
    exact h.resident k it' hk'

/-- An entering block adds its key to one queue at most. -/
theorem mem_enter_queues {k : BlockKey} :
    (k ∈ (enter config it s).s3SmallFifo → k ∈ s.s3SmallFifo ∨ k = it.entry.key) ∧
      (k ∈ (enter config it s).s3MainFifo → k ∈ s.s3MainFifo ∨ k = it.entry.key) := by
  constructor
  · show k ∈ (if _ then _ else _ : List BlockKey) → _
    split
    next => simp
    next => exact .inl
  · show k ∈ (if _ then _ else _ : List BlockKey) → _
    split
    next => simp
    next => exact .inl

theorem KeysIn.admitLocked {block : KVCacheBlock} (h : KeysIn keys s) (hkey : block.key ∈ keys)
    (config : TierConfig D) (t : Tier) (tenantId : UInt32) :
    KeysIn keys (admitLocked .lazy config block t tenantId s) := by
  refine h.insert hkey (admitLocked_blocks .lazy config block t tenantId s) ?_ ?_
  · intro k hk
    rw [admitLocked_eq] at hk
    have hk := mem_enter_queues.1 hk
    rwa [removeLocked_s3SmallFifo_lazy] at hk
  · intro k hk
    rw [admitLocked_eq] at hk
    have hk := mem_enter_queues.2 hk
    rwa [removeLocked_s3MainFifo_lazy] at hk

theorem KeysIn.promotedState (h : KeysIn keys s) (hk : s.blocks.lookup key = some it)
    (hfast : config.fastestTierCache = some fast) :
    KeysIn keys (promotedState .lazy config key it fast s) := by
  refine h.insert (h.resident key it hk) (promotedState_blocks hfast key it s) ?_ ?_
  · intro k hk
    rw [Storage.promotedState, promoteLocked_eq hfast] at hk
    have hk := mem_enter_queues.1 hk
    rwa [removeLocked_s3SmallFifo_lazy] at hk
  · intro k hk
    rw [Storage.promotedState, promoteLocked_eq hfast] at hk
    have hk := mem_enter_queues.2 hk
    rwa [removeLocked_s3MainFifo_lazy] at hk

theorem KeysIn.retouch {it' : StoredBlock} (h : KeysIn keys s)
    (hk : s.blocks.lookup key = some it) : KeysIn keys (retouch config key it it' s) :=
  h.insert (h.resident key it hk) rfl (fun _ hk => .inl hk) fun _ hk => .inl hk

end

section

variable {D : Type} [DoubleArith D] {config : TierConfig D} {keys : Finset BlockKey}
  {fast t : Tier} {key : BlockKey} {it : StoredBlock} {s s' : State}

theorem EnforceSteps.keysIn (hsteps : EnforceSteps .lazy config t s s') (hinv : RepInv config s)
    (h : KeysIn keys s) : KeysIn keys s' := by
  refine (hsteps.invariant (P := fun a => RepInv config a ∧ KeysIn keys a) ?_ ⟨hinv, h⟩).2
  intro u a b _ ⟨hinv, h⟩ hstep
  refine ⟨hstep.repInv hinv, ?_⟩
  cases hstep with
  | scan hover hfast hround => exact hround.keysIn h
  | evict hover hpick hk ht =>
    have hinv₁ := hpick.repInv hinv
    exact (hpick.keysIn h).evicted hk (hinv₁.keyed hk).2 (ht ▸ hinv₁.placed hk)

theorem Prefetched.keysIn {predicted : List BlockKey} (hconf : config.configured fast = true)
    (hkeys : Prefetched .lazy config fast predicted s s') (hinv : RepInv config s)
    (h : KeysIn keys s) : KeysIn keys s' := by
  induction hkeys with
  | nil => exact h
  | skip hskip hrest ih => exact ih hinv h
  | @place key rest it a a₁ a' hk hslow hsize hsteps hgood hrest ih =>
    have hkey : it.block.key ∈ keys := (hinv.keyed hk).2 ▸ h.resident key it hk
    have hplacedIn := h.admitLocked hkey config fast it.entry.tenantId
    exact ih hgood.inv (hsteps.keysIn (admitLocked_repInv .lazy hinv hconf _ _) hplacedIn)

/-! ## Runs over a set of blocks -/

/-- The call writes blocks of `K` and reads keys of blocks of `K` only. -/
def Touches (K : Finset KVCacheBlock) : Op → Prop
  | .write block _ _ => block ∈ K
  | .read key => key ∈ K.image KVCacheBlock.key
  | .prefetch predicted => ∀ key ∈ predicted, key ∈ K.image KVCacheBlock.key
  | .enforceCapacity _ => True

theorem Moved.keysIn {K : Finset KVCacheBlock} {op : Op} {r : Reply × State}
    (hmoved : Moved .lazy config s op r) (hinv : RepInv config s) (htouch : Touches K op)
    (h : KeysIn (K.image KVCacheBlock.key) s) : KeysIn (K.image KVCacheBlock.key) r.2 := by
  cases hmoved with
  | write ht hplaced =>
    cases hplaced with
    | refused => exact h
    | placed hsize hsteps =>
      have hconf := TierConfig.resolveConfiguredTier_configured ht
      exact hsteps.keysIn (admitLocked_repInv .lazy hinv hconf _ _)
        (h.admitLocked (Finset.mem_image_of_mem _ htouch) config _ _)
  | read hread =>
    cases hread with
    | miss => exact h
    | hit hk => exact h.retouch hk
    | stay hk => exact h.retouch hk
    | promoted hk hfast _ _ hsteps =>
      exact hsteps.keysIn (promotedState_repInv .lazy hinv hk hfast) (h.promotedState hk hfast)
    | lost hk hfast _ _ hsteps =>
      exact hsteps.keysIn (promotedState_repInv .lazy hinv hk hfast) (h.promotedState hk hfast)
  | prefetch hfast hkeys =>
    exact hkeys.keysIn (TierConfig.fastestTierCache_configured hfast) hinv h
  | enforceCapacity => exact h
  | unconfigured => exact h

/-- What each call over the blocks of `K` preserves holds after every run over them. -/
theorem runOps_touching {K : Finset KVCacheBlock} {ops : List Op} {P : State → Prop}
    (hfresh : P State.fresh)
    (hstep : ∀ {s op r}, Moved .lazy config s op r → Good config s → Touches K op → P s → P r.2)
    (htouch : ∀ op ∈ ops, Touches K op) :
    Returns (runOps .lazy config ops State.fresh) fun r => P r.2 := by
  refine (runOps_returns (P := fun history s => Good config s ∧
    ((∀ e ∈ history, Touches K e.1) → P s)) ?_ ops []
    ⟨good_fresh config, fun _ => hfresh⟩).mono ?_
  · intro history s op ⟨hgood, hs⟩
    apply (runOp_returns hgood op).mono
    intro r ⟨hmoved, hgood'⟩
    refine ⟨hgood', fun htouch => hstep hmoved hgood ?_ (hs fun e he => ?_)⟩
    · exact htouch (op, r.1) (by simp)
    · exact htouch e (List.mem_append_left _ he)
  · intro r ⟨_, hs⟩
    refine hs fun e he => htouch e.1 ?_
    rw [List.nil_append] at he
    exact (List.of_mem_zip (a := e.1) (b := e.2) he).1

theorem runOps_keysIn {K : Finset KVCacheBlock} {ops : List Op}
    (htouch : ∀ op ∈ ops, Touches K op) :
    Returns (runOps .lazy config ops State.fresh) fun r =>
      KeysIn (K.image KVCacheBlock.key) r.2 := by
  refine runOps_touching (keysIn_fresh _) ?_ htouch
  intro s op r hmoved hgood htouch h
  exact hmoved.keysIn hgood.inv htouch h

/-- **Length of the queues.** In a fresh run over the blocks of `K` each queue holds at most
one entry for each of them. -/
theorem runOps_queues_le_of_fresh (config : TierConfig D) (K : Finset KVCacheBlock) (ops : List Op)
    (htouch : ∀ op ∈ ops, Touches K op) (hfresh : freshOps config ops State.fresh = true) :
    Returns (runOps .lazy config ops State.fresh) fun r =>
      r.2.s3SmallFifo.length + r.2.s3MainFifo.length ≤ 2 * K.card := by
  have hlength {q : List BlockKey} (hq : q.Nodup) (hkeys : ∀ k ∈ q, k ∈ K.image KVCacheBlock.key) :
      q.length ≤ K.card := by
    have hsub : q.toFinset ⊆ K.image KVCacheBlock.key := by
      intro k hk
      exact hkeys k (List.mem_toFinset.mp hk)
    rw [← List.toFinset_card_of_nodup hq]
    exact (Finset.card_le_card hsub).trans Finset.card_image_le
  obtain ⟨r, hr, _, htidy⟩ := runOps_compact (good_fresh config) tidy_fresh hfresh
  have hkeys := (runOps_keysIn htouch).of_eq hr
  have hsmall := hlength htidy.small hkeys.small
  have hmain := hlength htidy.main hkeys.main
  exact ⟨r, hr, by omega⟩

end

def skippedEntryBlocks : Finset KVCacheBlock := {plainBlock 1 4, plainBlock 2 7}

theorem runOps_queues_le_of_fresh_skippedEntry :
    Returns (runOps .lazy oneTier skippedEntryOps State.fresh) fun r =>
      r.2.s3SmallFifo.length + r.2.s3MainFifo.length ≤ 2 * skippedEntryBlocks.card :=
  runOps_queues_le_of_fresh oneTier skippedEntryBlocks skippedEntryOps
    (by simp [skippedEntryOps, skippedEntryBlocks, Touches]) (by decide +kernel)

/-! ## Writing a block again -/

section

variable {D : Type} [DoubleArith D] {config : TierConfig D} {t : Tier} {block : KVCacheBlock}
  {s : State}

/-- No other key is resident. -/
def OnlyKey (key : BlockKey) (s : State) : Prop := ∀ k it, s.blocks.lookup k = some it → k = key

omit [DoubleArith D] in
theorem length_enter_queues {it : StoredBlock}
    (hfast : config.fastestTierCache = some it.entry.tier) :
    (enter config it s).s3SmallFifo.length + (enter config it s).s3MainFifo.length =
      s.s3SmallFifo.length + s.s3MainFifo.length + 1 := by
  rw [(enter_queues hfast).1, (enter_queues hfast).2]
  split
  next =>
    rw [List.length_append, List.length_singleton]
    omega
  next =>
    rw [List.length_append, List.length_singleton]
    omega

/-- Writing the only resident block evicts nothing, and adds an entry to one of the queues. -/
theorem write_grows (hfast : config.fastestTierCache = some t)
    (hsize : blockSizeBytes block ≤ config.evictionThresholdOf t) (tenantId : UInt32)
    (hgood : Good config s) (honly : OnlyKey block.key s) :
    Returns (runOp .lazy config (.write block t tenantId) s) fun r =>
      Good config r.2 ∧ OnlyKey block.key r.2 ∧
        r.2.s3SmallFifo.length + r.2.s3MainFifo.length =
          s.s3SmallFifo.length + s.s3MainFifo.length + 1 := by
  have hconf := TierConfig.fastestTierCache_configured hfast
  have hinv := admitLocked_repInv .lazy hgood.inv hconf block tenantId
  have hblocks := admitLocked_blocks .lazy config block t tenantId s
  have hused : (admitLocked .lazy config block t tenantId s).usedBytes t ≤
      config.evictionThresholdOf t := by
    have hrest : bytesOf (fun _ it => it.entry.tier = t) (s.blocks.erase block.key) = 0 := by
      refine sumOver_eq_zero fun k it hk => ?_
      obtain ⟨hne, hk⟩ := lookup_erase_eq_some.mp hk
      exact absurd (honly k it hk) hne
    rw [hinv.used t, hblocks, bytesOf_insert, hrest]
    split
    next => exact hsize
    next => exact Nat.zero_le _
  have hwrite : runOp .lazy config (.write block t tenantId) s =
      .ok (.status .success, admitLocked .lazy config block t tenantId s) := by
    have htarget : config.resolveConfiguredTier t = some t := if_pos hconf
    simp only [runOp, write, htarget, placeLocked, if_neg (Nat.not_lt_of_le hsize),
      enforceCapacityLocked_of_le hused]
    rfl
  obtain ⟨_, hgood'⟩ := (runOp_returns hgood (.write block t tenantId)).of_eq hwrite
  refine ⟨_, hwrite, hgood', ?_, ?_⟩
  · intro k it hk
    rw [hblocks] at hk
    rcases lookup_insert_eq_some.mp hk with ⟨heq, _⟩ | ⟨_, hk⟩
    · exact heq
    · exact honly k it hk
  · dsimp only
    rw [admitLocked_eq]
    apply (length_enter_queues hfast).trans
    dsimp only
    rw [removeLocked_s3SmallFifo_lazy, removeLocked_s3MainFifo_lazy]

/-- Writing a block that fits the fastest tier again and again makes the queues longer with
every write. -/
theorem rewrites_grow (hfast : config.fastestTierCache = some t)
    (hsize : blockSizeBytes block ≤ config.evictionThresholdOf t) (tenantId : UInt32) (n : Nat)
    (hgood : Good config s) (honly : OnlyKey block.key s) :
    Returns (runOps .lazy config (List.replicate n (.write block t tenantId)) s) fun r =>
      r.2.s3SmallFifo.length + r.2.s3MainFifo.length =
        s.s3SmallFifo.length + s.s3MainFifo.length + n := by
  induction n generalizing s with
  | zero => exact returns_ok rfl
  | succ n ih =>
    rw [List.replicate_succ]
    apply (write_grows hfast hsize tenantId hgood honly).bind
    intro ⟨reply, s₁⟩ ⟨hgood₁, honly₁, hlength₁⟩
    apply (ih hgood₁ honly₁).bind
    intro ⟨replies, s'⟩ hlength
    apply returns_ok
    dsimp only at hlength hlength₁ ⊢
    omega

/-! ## Blocks that do not fit the fastest tier -/

/-- Nothing is in the fastest tier or queued for it, and what is stored is of `K`. -/
structure Idle (config : TierConfig D) (K : Finset KVCacheBlock) (s : State) : Prop where
  small : s.s3SmallFifo = []
  main : s.s3MainFifo = []
  slow : ∀ k it, s.blocks.lookup k = some it → config.fastestTierCache ≠ some it.entry.tier
  stored : ∀ k it, s.blocks.lookup k = some it → it.block ∈ K

/-- No block of `K` fits the fastest tier. -/
def AllLarge (config : TierConfig D) (K : Finset KVCacheBlock) : Prop :=
  ∀ fast, config.fastestTierCache = some fast →
    ∀ block ∈ K, config.evictionThresholdOf fast < blockSizeBytes block

variable {K : Finset KVCacheBlock} {fast : Tier} {key : BlockKey} {s' : State}

omit [DoubleArith D] in
theorem Idle.insert {it : StoredBlock} (h : Idle config K s)
    (hblocks : s'.blocks = s.blocks.insert key it) (hsmall : s'.s3SmallFifo = s.s3SmallFifo)
    (hmain : s'.s3MainFifo = s.s3MainFifo) (hslow : config.fastestTierCache ≠ some it.entry.tier)
    (hstored : it.block ∈ K) : Idle config K s' := by
  refine ⟨hsmall.trans h.small, hmain.trans h.main, fun k it' hk => ?_, fun k it' hk => ?_⟩
  · rw [hblocks] at hk
    exact of_lookup_insert hk hslow fun {_ _} hk => h.slow _ _ hk
  · rw [hblocks] at hk
    exact of_lookup_insert hk hstored fun {_ _} hk => h.stored _ _ hk

/-- Enforcement in the slower tiers leaves the fastest one idle. -/
theorem Idle.steps (h : Idle config K s) (hslow : config.fastestTierCache ≠ some t)
    (hconf : config.configured t = true) (hinv : RepInv config s)
    (hsteps : EnforceSteps .lazy config t s s') : Idle config K s' := by
  refine (hsteps.invariant (P := fun a => RepInv config a ∧ Idle config K a) ?_ ⟨hinv, h⟩).2
  intro u a b hu ⟨hinv, ha⟩ hstep
  have hinv' := hstep.repInv hinv
  obtain ⟨fast, hfast⟩ : ∃ fast, config.fastestTierCache = some fast :=
    TierConfig.exists_fastestTierCache hconf
  have hlt : fast.toNat < u.toNat := by
    have hle := TierConfig.fastestTierCache_le hfast hconf
    refine Nat.lt_of_lt_of_le (Nat.lt_of_le_of_ne hle ?_) hu
    intro heq
    exact hslow (Tier.toNat_injective heq ▸ hfast)
  have hne : config.fastestTierCache ≠ some u := by
    rw [hfast]
    intro heq
    cases heq
    omega
  obtain ⟨hsmall, hmain⟩ := hstep.queues hinv hne
  refine ⟨hinv', hsmall.trans ha.small, hmain.trans ha.main, fun k it hk hfast' => ?_,
    fun k it hk => ?_⟩
  · have ht : it.entry.tier = fast := (Option.some.inj (hfast.symm.trans hfast')).symm
    exact ha.slow k it ((hstep.sameIn hinv hlt k it ht).mpr hk) hfast'
  · have hcontents : contents b k = some (it.block, it.entry.tenantId) := by
      rw [contents, hk, Option.map_some]
    obtain ⟨it', hk', heq⟩ := Option.map_eq_some_iff.mp (hstep.contents_sub hinv hcontents)
    rw [← (Prod.mk.inj heq).1]
    exact ha.stored k it' hk'

theorem Idle.too_large {it : StoredBlock} (h : Idle config K s) (hlarge : AllLarge config K)
    (hk : s.blocks.lookup key = some it) (hfast : config.fastestTierCache = some fast) :
    config.evictionThresholdOf fast < blockSizeBytes it.block :=
  hlarge fast hfast it.block (h.stored key it hk)

/-- A prefetch into the fastest tier places nothing. -/
theorem Prefetched.eq_of_large {predicted : List BlockKey}
    (hkeys : Prefetched .lazy config fast predicted s s') (hlarge : AllLarge config K)
    (hfast : config.fastestTierCache = some fast) (h : Idle config K s) : s' = s := by
  induction hkeys with
  | nil => rfl
  | skip hskip hrest ih => exact ih h
  | place hk hslow hsize => exact absurd hsize (Nat.not_le_of_lt (h.too_large hlarge hk hfast))

theorem Moved.idle {op : Op} {r : Reply × State} (hmoved : Moved .lazy config s op r)
    (hlarge : AllLarge config K) (hgood : Good config s) (htouch : Touches K op)
    (h : Idle config K s) : Idle config K r.2 := by
  have hstays {it : StoredBlock} {k : BlockKey} {fast : Tier} (hk : s.blocks.lookup k = some it)
      (hfast : config.fastestTierCache = some fast) :
      ¬ it.entry.sizeBytes ≤ config.evictionThresholdOf fast := by
    rw [hgood.inv.sized hk]
    exact Nat.not_le_of_lt (h.too_large hlarge hk hfast)
  cases hmoved with
  | @write block target u tenantId _ ht hplaced =>
    cases hplaced with
    | refused => exact h
    | placed hsize hsteps =>
      have hconf := TierConfig.resolveConfiguredTier_configured ht
      have hslow : config.fastestTierCache ≠ some u := fun hfast =>
        Nat.not_le_of_lt (hlarge u hfast block htouch) hsize
      refine Idle.steps (h.insert (admitLocked_blocks .lazy config block u tenantId s) ?_ ?_ hslow
        htouch) hslow hconf (admitLocked_repInv .lazy hgood.inv hconf block tenantId) hsteps
      · rw [admitLocked_eq]
        exact (if_neg fun hin => hslow hin.1).trans (removeLocked_s3SmallFifo_lazy ..)
      · rw [admitLocked_eq]
        exact (if_neg fun hin => hslow hin.1).trans (removeLocked_s3MainFifo_lazy ..)
  | read hread =>
    cases hread with
    | miss => exact h
    | hit hk hfast => exact absurd hfast (h.slow _ _ hk)
    | @stay it _ hk =>
      have hslow := h.slow _ it hk
      have hstored := h.stored _ it hk
      exact h.insert rfl rfl rfl hslow hstored
    | promoted hk hfast _ hsize => exact absurd hsize (hstays hk hfast)
    | lost hk hfast _ hsize => exact absurd hsize (hstays hk hfast)
  | prefetch hfast hkeys => exact hkeys.eq_of_large hlarge hfast h ▸ h
  | enforceCapacity => exact h
  | unconfigured => exact h

theorem runOps_idle {ops : List Op} (hlarge : AllLarge config K)
    (htouch : ∀ op ∈ ops, Touches K op) :
    Returns (runOps .lazy config ops State.fresh) fun r => Idle config K r.2 := by
  refine runOps_touching ⟨rfl, rfl, nofun, nofun⟩ ?_ htouch
  intro s op r hmoved hgood htouch h
  exact hmoved.idle hlarge hgood htouch h

/-- **Bounded queues.** The runs over the blocks of `K` have queues of bounded length if and only
if no block of `K` fits the fastest tier. -/
theorem queues_bounded_iff (config : TierConfig D) (K : Finset KVCacheBlock) :
    (∃ bound, ∀ ops, (∀ op ∈ ops, Touches K op) →
      Returns (runOps .lazy config ops State.fresh) fun r =>
        r.2.s3SmallFifo.length + r.2.s3MainFifo.length ≤ bound) ↔ AllLarge config K := by
  constructor
  · rintro ⟨bound, hbound⟩ fast hfast block hblock
    by_contra hfits
    have honly : OnlyKey block.key State.fresh := nofun
    obtain ⟨r, hr, hlength⟩ :=
      rewrites_grow hfast (Nat.le_of_not_lt hfits) 0 (bound + 1) (good_fresh config) honly
    have hle := (hbound _ fun op hop => ?_).of_eq hr
    · rw [hlength] at hle
      omega
    · rw [List.eq_of_mem_replicate hop]
      exact hblock
  · intro hlarge
    refine ⟨0, fun ops htouch => (runOps_idle hlarge htouch).mono fun r hidle => ?_⟩
    rw [hidle.small, hidle.main]
    exact Nat.le_refl 0

end

theorem oneTier_queues_unbounded :
    ¬ ∃ bound, ∀ ops, (∀ op ∈ ops, Touches {plainBlock 1 4} op) →
      Returns (runOps .lazy oneTier ops State.fresh) fun r =>
        r.2.s3SmallFifo.length + r.2.s3MainFifo.length ≤ bound := by
  rintro ⟨bound, hbound⟩
  have hsize : blockSizeBytes (plainBlock 1 4) ≤ oneTier.evictionThresholdOf .hbm := by
    decide +kernel
  have honly : OnlyKey (plainBlock 1 4).key State.fresh := by
    intro k it h
    cases h
  obtain ⟨r, hr, hlength⟩ := rewrites_grow rfl hsize 0 (bound + 1) (good_fresh oneTier) honly
  have hle := (hbound _ fun op hop => ?_).of_eq hr
  · rw [hlength] at hle
    omega
  · rw [List.eq_of_mem_replicate hop]
    simp [Touches]

end TieredKVCache.Storage
