import TieredKVCache.Storage.Ledger
import TieredKVCache.Storage.Quota
import TieredKVCache.Storage.Residents

/-!
# A tenant within its share

Where a tier is filled up to its capacity before blocks are evicted, every victim belongs to a
tenant that exceeds its share (`RoundInv.foreign`). A tenant whose blocks fit its share of each tier
that they may be in is never over it, so that no iteration of `EnforceCapacityLocked` touches its
blocks (`enforceWithin_undisturbed`): in every run they are where the tenant has written them, or in
the fastest tier, and a read returns what it wrote last, whatever the other tenants do
(`runOps_reserved`).
-/

namespace TieredKVCache.Storage

open Lib

/-! ## Reserves -/

/-- The keys of a tenant, bounds on the sizes of their blocks, and the tiers that they may be in. -/
structure Reserve where
  tenant : UInt32
  keys : Finset BlockKey
  size : BlockKey → Nat
  tiers : Finset Tier

/-- The blocks fit the share of the tenant in each tier that they may be in. -/
structure Covers (config : TierConfig ℚ) (r : Reserve) : Prop where
  quota : config.quotaEnabledLocked = true
  weights : WeightsNonneg config
  ratio : 1 ≤ config.highWaterRatio
  fastest : ∀ fast, config.fastestTierCache = some fast → fast ∈ r.tiers
  share : ∀ t ∈ r.tiers,
    ((∑ key ∈ r.keys, r.size key : Nat) : ℚ) ≤ config.tenantShareOf r.tenant t

/-- What the store may hold: these keys for this tenant, and the others for the other tenants. -/
structure Reserve.Allows (r : Reserve) (key : BlockKey) (tier : Tier) (size : Nat)
    (tenantId : UInt32) : Prop where
  own : key ∈ r.keys ↔ tenantId = r.tenant
  tier : key ∈ r.keys → tier ∈ r.tiers
  size : key ∈ r.keys → size ≤ r.size key

/-- Every block is one that the store may hold. -/
def Reserve.Separate (r : Reserve) (s : State) : Prop :=
  ∀ key it, s.blocks.lookup key = some it →
    r.Allows key it.entry.tier it.entry.sizeBytes it.entry.tenantId

/-- The stored blocks of the tenant are the same in both states. -/
def Reserve.Undisturbed (r : Reserve) (s s' : State) : Prop :=
  ∀ key ∈ r.keys, s'.blocks.lookup key = s.blocks.lookup key

section

variable {config : TierConfig ℚ} {r : Reserve} {t u : Tier} {s s' a : State} {key : BlockKey}
  {it : StoredBlock} {v : Victim} {depth : Nat}

theorem Reserve.separate_fresh (r : Reserve) : r.Separate State.fresh :=
  fun _ _ h => by simp [State.fresh] at h

theorem Reserve.Separate.insert (h : r.Separate s) (hblocks : s'.blocks = s.blocks.insert key it)
    (hallows : r.Allows key it.entry.tier it.entry.sizeBytes it.entry.tenantId) :
    r.Separate s' := by
  intro k it' hk
  rw [hblocks] at hk
  rcases lookup_insert_eq_some.mp hk with ⟨rfl, rfl⟩ | ⟨-, hk⟩
  · exact hallows
  · exact h k it' hk

theorem Reserve.Separate.erase (h : r.Separate s) (hblocks : s'.blocks = s.blocks.erase key) :
    r.Separate s' := by
  intro k it hk
  rw [hblocks] at hk
  exact h k it (lookup_erase_eq_some.mp hk).2

theorem Reserve.Undisturbed.trans (h : r.Undisturbed s a) (h' : r.Undisturbed a s') :
    r.Undisturbed s s' := fun key hkey => (h' key hkey).trans (h key hkey)

/-! ## The share of the tenant -/

/-- The tenant holds no more than the sum of the bounds, and nothing in the other tiers. -/
theorem Reserve.Separate.tenantBytes_le (h : r.Separate s) (t : Tier) :
    tenantBytes t r.tenant s ≤ if t ∈ r.tiers then ∑ key ∈ r.keys, r.size key else 0 := by
  unfold tenantBytes bytesOf
  split
  next ht =>
    refine sumOver_le_sum r.keys r.size fun key it hit => ?_
    obtain ⟨hown, -, hsize⟩ := h key it hit
    by_cases hkey : key ∈ r.keys
    · rw [if_pos hkey]
      split
      · exact hsize hkey
      · exact Nat.zero_le _
    · rw [if_neg hkey, if_neg fun hp => hkey (hown.mpr hp.2)]
  next ht =>
    refine le_of_eq (sumOver_eq_zero fun key it hit => if_neg fun hp => ht ?_)
    have hallows := h key it hit
    exact hp.1 ▸ hallows.tier (hallows.own.mpr hp.2)

theorem Covers.overage_le (hcovers : Covers config r) (h : r.Separate s) (t : Tier) :
    overage config t r.tenant s ≤ 0 := by
  have hle := h.tenantBytes_le t
  have hshare := hcovers.weights.shareOf r.tenant t
  unfold overage
  split at hle
  next ht =>
    have hcovered := hcovers.share t ht
    rw [tenantShareOf_eq hcovers.weights] at hcovered
    exact sub_nonpos.mpr ((Nat.cast_le.mpr hle).trans hcovered)
  next ht =>
    rw [Nat.le_zero.mp hle, Nat.cast_zero, zero_sub]
    exact neg_nonpos.mpr hshare

/-- A tier is filled up before blocks are evicted. -/
theorem Covers.threshold (hcovers : Covers config r) (t : Tier) :
    config.evictionThresholdOf t = config.capacityOf t := by
  rw [config.evictionThresholdOf_rat t]
  refine Nat.min_eq_left (Nat.le_floor ?_)
  exact le_mul_of_one_le_right (Nat.cast_nonneg _) hcovers.ratio

/-- The block of a key of the tenant fits each tier that it may be in. -/
theorem Covers.fits (hcovers : Covers config r) (hkey : key ∈ r.keys) (ht : t ∈ r.tiers) :
    r.size key ≤ config.evictionThresholdOf t := by
  have hshare : shareOf config r.tenant t ≤ config.capacityOf t := by
    have hall : ∑ tenant ∈ insert r.tenant config.tenantWeights.keys.toFinset,
        shareOf config tenant t ≤ config.capacityOf t :=
      sum_shareOf_le t (Finset.subset_insert _ _)
    exact (Finset.single_le_sum (fun tenant _ => hcovers.weights.shareOf tenant t)
      (Finset.mem_insert_self _ _)).trans hall
  have hcovered := hcovers.share t ht
  rw [tenantShareOf_eq hcovers.weights] at hcovered
  rw [hcovers.threshold]
  calc r.size key ≤ ∑ key ∈ r.keys, r.size key :=
        Finset.single_le_sum (fun _ _ => Nat.zero_le _) hkey
    _ ≤ config.capacityOf t := Nat.cast_le.mp (hcovered.trans hshare)

/-! ## Enforcement -/

/-- The victim belongs to another tenant, and choosing it has not changed the state. -/
theorem RoundInv.foreign (hround : RoundInv config t a) (hcovers : Covers config r)
    (h : r.Separate a) (hvictim : roundVictim config t a = some v) :
    v.key ∉ r.keys ∧ v.state = a := by
  have hover := roundVictim_over hvictim
  rw [hcovers.threshold] at hover
  obtain ⟨tenant, hover⟩ := exists_overage hround.inv hover
  obtain ⟨key, it, hpick, -⟩ :=
    pickQuotaVictimLocked_of_overage hcovers.weights hround.inv hcovers.quota hover
  obtain ⟨hlookup, -, hworst, -⟩ :=
    hround.quotaVictim hcovers.weights hcovers.quota hover hvictim
  constructor
  · intro hkey
    rw [(h v.key v.it hlookup).own.mp hkey] at hworst
    exact absurd hworst (not_lt.mpr (hcovers.overage_le h t))
  · have hchosen : chooseVictim config t a = .ok (some key, a) := by
      rw [chooseVictim, if_pos hcovers.quota, hpick]
    have hsame := (roundVictim_chosen hvictim).1.symm.trans hchosen
    exact (Prod.mk.inj (Except.ok.inj hsame)).2

/-- An eviction disturbs no block of the tenant. -/
theorem RoundInv.undisturbed_left (hround : RoundInv config t a) (hcovers : Covers config r)
    (h : r.Separate a) (hvictim : roundVictim config t a = some v) :
    r.Separate (v.left config t) ∧ r.Undisturbed a (v.left config t) := by
  have hev := hround.evicts_of_victim hvictim
  obtain ⟨hforeign, hstate⟩ := hround.foreign hcovers h hvictim
  have hfound := hev.found
  have hblocks : (v.left config t).blocks = _ := evicted_blocks hev.keyed hev.placed
  rw [hstate] at hblocks hfound
  refine ⟨?_, fun key hkey => ?_⟩
  · split at hblocks
    next => exact h.erase hblocks
    next slower hslower =>
      split at hblocks
      next =>
        exact h.insert hblocks
          { own := (h v.key v.it hfound).own
            tier := fun hkey => absurd hkey hforeign
            size := fun hkey => absurd hkey hforeign }
      next => exact h.erase hblocks
  · have hne : key ≠ v.key := fun heq => hforeign (heq ▸ hkey)
    have hsame : (v.left config t).blocks.lookup key = v.state.blocks.lookup key :=
      evicted_lookup_of_ne hev.keyed hev.placed hne
    rw [hsame, hstate]

theorem enforceWithin_undisturbed (hcovers : Covers config r) (hdepth : 3 ≤ depth + t.toNat)
    (hround : RoundInv config t s) (h : r.Separate s) :
    Returns (enforceWithin .lazy config depth t s) fun q =>
      r.Separate q.2 ∧ r.Undisturbed s q.2 := by
  induction depth generalizing t s with
  | zero =>
    have hlt := t.toNat_lt
    omega
  | succ depth ih =>
    refine iterate_returns
      (fun a => EnforceInv .lazy config t s a ∧ r.Separate a ∧ r.Undisturbed s a)
      (residentCount t) ?_ ⟨hround.enforceInv, h, fun _ _ => rfl⟩ (Nat.lt_succ_self _)
    intro a ⟨ha, hseparate, hsame⟩
    cases ha.round depth (by omega) with
    | ends hle hbody => exact .inr ⟨_, hbody, hseparate, hsame⟩
    | @evicts v a' hvictim hevict hbody ha' hcount =>
      obtain ⟨hleft, hsame'⟩ := ha.roundInv.undisturbed_left hcovers hseparate hvictim
      refine .inl ⟨a', hbody, ⟨ha', ?_⟩, hcount⟩
      cases hevict with
      | dropped hcall => exact ⟨hleft, hsame.trans hsame'⟩
      | @demoted u _ hcall henforce =>
        obtain ⟨hb, hlt⟩ := ha.roundInv.nested hcall
        have hnested : 3 ≤ depth + u.toNat := by omega
        obtain ⟨hseparate', hsame''⟩ := (ih hnested hb hleft).of_eq henforce
        exact ⟨hseparate', (hsame.trans hsame').trans hsame''⟩

/-! ## Calls -/

/-- The block of a key, if there is one. -/
def storedBlock (key : BlockKey) (s : State) : Option KVCacheBlock :=
  (s.blocks.lookup key).map StoredBlock.block

/-- The block that a call writes to a key. -/
def writtenBlock (key : BlockKey) : Op → Option KVCacheBlock
  | .write block _ _ => if block.key = key then some block else none
  | _ => none

/-- The block that was written to a key last. -/
def lastWrite (key : BlockKey) : List Op → Option KVCacheBlock
  | [] => none
  | op :: ops => (lastWrite key ops).or (writtenBlock key op)

/-- A part of a run, in which the tenant has written some blocks: these replace the ones that were
there, and the others stay. -/
def Reserve.Updates (r : Reserve) (writes : BlockKey → Option KVCacheBlock) (s s' : State) : Prop :=
  r.Separate s → r.Separate s' ∧
    ∀ key ∈ r.keys, storedBlock key s' = (writes key).or (storedBlock key s)

variable {writes writes' : BlockKey → Option KVCacheBlock} {block : KVCacheBlock}

theorem Reserve.Updates.refl (r : Reserve) (s : State) : r.Updates (fun _ => none) s s :=
  fun h => ⟨h, fun _ _ => rfl⟩

theorem Reserve.Updates.trans (h : r.Updates writes s a) (h' : r.Updates writes' a s') :
    r.Updates (fun key => (writes' key).or (writes key)) s s' := by
  intro hseparate
  obtain ⟨hmiddle, hfirst⟩ := h hseparate
  obtain ⟨hlast, hsecond⟩ := h' hmiddle
  refine ⟨hlast, fun key hkey => ?_⟩
  rw [hsecond key hkey, hfirst key hkey, Option.or_assoc]

theorem Reserve.Updates.congr (h : r.Updates writes s s')
    (heq : ∀ key ∈ r.keys, (writes' key).or (storedBlock key s) =
      (writes key).or (storedBlock key s)) : r.Updates writes' s s' := by
  intro hseparate
  obtain ⟨hseparate', hstored⟩ := h hseparate
  exact ⟨hseparate', fun key hkey => (hstored key hkey).trans (heq key hkey).symm⟩

theorem storedBlock_insert (hblocks : s'.blocks = s.blocks.insert key it) (k : BlockKey) :
    storedBlock k s' = if key = k then some it.block else storedBlock k s := by
  unfold storedBlock
  rw [hblocks]
  split
  next heq =>
    subst heq
    rw [AList.lookup_insert, Option.map_some]
  next hne => rw [AList.lookup_insert_ne fun heq => hne heq.symm]

/-- A block enters, and enforcement follows. -/
theorem enforceCapacityLocked_updates (hcovers : Covers config r) (hround : RoundInv config t a)
    (hblocks : a.blocks = s.blocks.insert key it)
    (hallows : r.Separate s →
      r.Allows key it.entry.tier it.entry.sizeBytes it.entry.tenantId) :
    Returns (enforceCapacityLocked .lazy config t a) fun q =>
      r.Updates (fun k => if key = k then some it.block else none) s q.2 := by
  have hreturns : Returns (enforceCapacityLocked .lazy config t a) (Enforced .lazy config t a) :=
    enforceCapacityLocked_returns hround.inv hround.slower
  obtain ⟨q, hq, -⟩ := hreturns
  refine ⟨q, hq, fun hseparate => ?_⟩
  obtain ⟨hseparate', hsame⟩ := (enforceWithin_undisturbed hcovers (by omega) hround
    (hseparate.insert hblocks (hallows hseparate))).of_eq hq
  refine ⟨hseparate', fun k hk => ?_⟩
  have hstored : storedBlock k q.2 = storedBlock k a := congrArg (Option.map _) (hsame k hk)
  rw [hstored, storedBlock_insert hblocks]
  by_cases heq : key = k
  · simp only [if_pos heq, Option.some_or]
  · simp only [if_neg heq, Option.none_or]

theorem placeLocked_updates (hcovers : Covers config r) (hgood : Good config s)
    (hu : config.configured u = true) (tenantId : UInt32)
    (hallows : r.Separate s → r.Allows block.key u (blockSizeBytes block) tenantId) :
    Returns (placeLocked .lazy config block u tenantId s) fun q =>
      r.Updates (fun k => if block.key = k then some block else none) s q.2 := by
  rw [placeLocked]
  split
  next hlarge =>
    refine returns_ok fun hseparate => ⟨hseparate, fun key hkey => ?_⟩
    obtain ⟨-, htier, hsize⟩ := hallows hseparate
    have hne : block.key ≠ key := by
      rintro rfl
      exact absurd ((hsize hkey).trans (hcovers.fits hkey (htier hkey))) (Nat.not_le_of_lt hlarge)
    simp only [if_neg hne, Option.none_or]
  next =>
    exact enforceCapacityLocked_updates hcovers (hgood.roundInv_admitted hu block tenantId)
      (admitLocked_blocks .lazy config block u tenantId s) hallows

/-- Storing the block again that is there changes nothing. -/
theorem Reserve.Updates.of_same (h : r.Updates (fun k => if key = k then some block else none) s s')
    (hstored : storedBlock key s = some block) : r.Updates (fun _ => none) s s' := by
  refine h.congr fun k _ => ?_
  by_cases heq : key = k
  · subst heq
    simp only [if_pos, hstored, Option.none_or, Option.some_or]
  · simp only [if_neg heq]

/-- A hit where the block is. -/
theorem Reserve.updates_retouch {it' : StoredBlock} (hit : s.blocks.lookup key = some it)
    (hblocks : s'.blocks = s.blocks.insert key it') (hblock : it'.block = it.block)
    (htier : it'.entry.tier = it.entry.tier) (hsize : it'.entry.sizeBytes = it.entry.sizeBytes)
    (htenant : it'.entry.tenantId = it.entry.tenantId) : r.Updates (fun _ => none) s s' := by
  intro hseparate
  refine ⟨hseparate.insert hblocks ?_, fun k _ => ?_⟩
  · rw [htier, hsize, htenant]
    exact hseparate key it hit
  · rw [storedBlock_insert hblocks, Option.none_or]
    split
    next heq =>
      subst heq
      rw [storedBlock, hit, Option.map_some, hblock]
    next => rfl

theorem read_updates (hcovers : Covers config r) (hgood : Good config s) (key : BlockKey) :
    Returns (read .lazy config key s) fun q => r.Updates (fun _ => none) s q.2 := by
  refine read_rule (Q := fun a => r.Updates (fun _ => none) s a) .lazy hgood key
    ?miss ?hit ?stay ?promote
  case miss => exact fun _ => .refl r s
  case hit => exact fun it hit _ => Reserve.updates_retouch hit rfl rfl rfl rfl rfl
  case stay => exact fun it fast hit _ _ _ => Reserve.updates_retouch hit rfl rfl rfl rfl rfl
  case promote =>
    intro it fast hit hfast _ _
    refine (enforceCapacityLocked_updates hcovers (hgood.roundInv_promoted hit hfast)
      (promotedState_blocks hfast key it s) fun hseparate => ?_).mono
        fun q hq => Reserve.Updates.of_same hq (congrArg (Option.map _) hit)
    obtain ⟨hown, -, hsize⟩ := hseparate key it hit
    exact ⟨hown, fun _ => hcovers.fastest fast hfast, hsize⟩

theorem prefetchKeys_updates {fast : Tier} (hcovers : Covers config r)
    (hfast : config.fastestTierCache = some fast) (predicted : List BlockKey)
    (hgood : Good config s) :
    Returns (prefetchKeys .lazy config fast predicted s) fun q =>
      r.Updates (fun _ => none) s q.2 := by
  have hconf := TierConfig.fastestTierCache_configured hfast
  refine prefetchKeys_rule (Q := fun _ s s' => r.Updates (fun _ => none) s s') .lazy hconf
    (Reserve.Updates.refl r) ?skip ?place predicted hgood
  case skip => exact fun key rest s s' _ hrest => hrest
  case place =>
    intro key rest it s hgood hit _ _
    have hkey := (hgood.inv.keyed hit).2
    refine (placeLocked_updates hcovers hgood hconf it.entry.tenantId fun hseparate => ?_).mono
      fun q hq s' hrest => ?_
    · obtain ⟨hown, -, hsize⟩ := hseparate key it hit
      rw [hkey, ← hgood.inv.sized hit]
      exact ⟨hown, fun _ => hcovers.fastest fast hfast, hsize⟩
    · rw [hkey] at hq
      exact (hq.of_same (congrArg (Option.map _) hit)).trans hrest

/-- The tenant writes blocks within the bounds, under its keys and to its tiers; the others write
under other keys. -/
def Reserve.Respects (r : Reserve) (config : TierConfig ℚ) : Op → Prop
  | .write block target tenantId => (block.key ∈ r.keys ↔ tenantId = r.tenant) ∧
      (block.key ∈ r.keys → blockSizeBytes block ≤ r.size block.key ∧
        ∃ t ∈ r.tiers, config.resolveConfiguredTier target = some t)
  | _ => True

theorem write_updates {target : Tier} {tenantId : UInt32} (hcovers : Covers config r)
    (hgood : Good config s) (hop : r.Respects config (.write block target tenantId)) :
    Returns (write .lazy config block target tenantId s) fun q =>
      r.Updates (fun key => if block.key = key then some block else none) s q.2 := by
  obtain ⟨hown, hwrite⟩ := hop
  rw [write]
  cases hresolve : config.resolveConfiguredTier target with
  | none =>
    refine returns_ok fun hseparate => ⟨hseparate, fun key hkey => ?_⟩
    have hne : block.key ≠ key := by
      rintro rfl
      obtain ⟨-, t, -, ht⟩ := hwrite hkey
      cases hresolve.symm.trans ht
    simp only [if_neg hne, Option.none_or]
  | some u =>
    refine placeLocked_updates hcovers hgood
      (TierConfig.resolveConfiguredTier_configured hresolve) tenantId fun _ => ?_
    refine ⟨hown, fun hkey => ?_, fun hkey => (hwrite hkey).1⟩
    obtain ⟨-, t, ht, heq⟩ := hwrite hkey
    cases hresolve.symm.trans heq
    exact ht

theorem prefetch_updates (hcovers : Covers config r) (hgood : Good config s)
    (predicted : List BlockKey) :
    Returns (prefetch .lazy config predicted s) fun q => r.Updates (fun _ => none) s q.2 := by
  rw [prefetch]
  cases hfast : config.resolveConfiguredTier .hbm with
  | none => exact returns_ok (.refl r s)
  | some fast => exact prefetchKeys_updates hcovers hfast predicted hgood

theorem runOp_updates {op : Op} (hcovers : Covers config r) (hgood : Good config s)
    (hop : r.Respects config op) :
    Returns (runOp .lazy config op s) fun q =>
      r.Updates (fun key => writtenBlock key op) s q.2 := by
  cases op with
  | write block target tenantId =>
    exact (write_updates hcovers hgood hop).bind fun q h => returns_ok h
  | read key => exact (read_updates hcovers hgood key).bind fun q h => returns_ok h
  | prefetch predicted =>
    exact (prefetch_updates hcovers hgood predicted).bind fun q h => returns_ok h
  | enforceCapacity u => exact ⟨_, runOp_enforceCapacity hgood u, .refl r s⟩

theorem runOps_updates {ops : List Op} (hcovers : Covers config r)
    (hops : ∀ op ∈ ops, r.Respects config op) (hgood : Good config s) :
    Returns (runOps .lazy config ops s) fun q =>
      Good config q.2 ∧ r.Updates (fun key => lastWrite key ops) s q.2 := by
  induction ops generalizing s with
  | nil => exact returns_ok ⟨hgood, .refl r s⟩
  | cons op ops ih =>
    obtain ⟨hop, hrest⟩ := List.forall_mem_cons.mp hops
    have hstep := (runOp_updates hcovers hgood hop).and (runOp_returns hgood op)
    refine hstep.bind fun q hq => (ih hrest hq.2.2).bind fun q' hq' => returns_ok ?_
    exact ⟨hq'.1, hq.1.trans hq'.2⟩

/-- A read of a stored block of the tenant returns it. -/
theorem read_reserved (hcovers : Covers config r) (hgood : Good config s) (h : r.Separate s)
    (hkey : key ∈ r.keys) (hstored : storedBlock key s = some block) :
    Returns (read .lazy config key s) fun q => q.1 = .ok block := by
  obtain ⟨q, hq, houtcome, -⟩ := read_returns .lazy hgood key
  have hafter := (((read_updates hcovers hgood key).of_eq hq) h).2 key hkey
  rw [Option.none_or, hstored] at hafter
  refine ⟨q, hq, ?_⟩
  unfold storedBlock at hstored hafter
  cases houtcome with
  | miss hnone =>
    rw [hnone] at hstored
    cases hstored
  | hit hit _ =>
    rw [hit] at hstored
    exact congrArg Except.ok (Option.some.inj hstored)
  | stay hit _ _ _ =>
    rw [hit] at hstored
    exact congrArg Except.ok (Option.some.inj hstored)
  | promoted _ _ _ _ _ _ hit' =>
    rw [hit'] at hafter
    exact congrArg Except.ok (Option.some.inj hafter)
  | lost _ _ _ _ _ _ hnone =>
    rw [hnone] at hafter
    cases hafter

end

/-- **A tenant within its share.** With tenant weights and without a high-water mark below the
capacity, a tenant whose blocks together fit its share of each tier that it uses has every block
that it has written, in one of these tiers, and a read returns what it wrote last: in every run,
whatever the other tenants write, read and prefetch. -/
theorem runOps_reserved (config : TierConfig ℚ) (r : Reserve) (hcovers : Covers config r)
    (ops : List Op) (hops : ∀ op ∈ ops, r.Respects config op) :
    Returns (runOps .lazy config ops State.fresh) fun q => ∀ key ∈ r.keys, ∀ block,
      lastWrite key ops = some block →
        (∃ t ∈ r.tiers, locate key q.2 = ⟨true, t, key⟩) ∧
          Returns (read .lazy config key q.2) fun q' => q'.1 = .ok block := by
  refine (runOps_updates hcovers hops (good_fresh config)).mono fun q hq key hkey block hwrite => ?_
  obtain ⟨hgood, hupdates⟩ := hq
  obtain ⟨hseparate, hstored⟩ := hupdates r.separate_fresh
  have hblock : storedBlock key q.2 = some block := by
    simp only [hstored key hkey, hwrite, Option.some_or]
  refine ⟨?_, read_reserved hcovers hgood hseparate hkey hblock⟩
  obtain ⟨it, hit, -⟩ := Option.map_eq_some_iff.mp hblock
  refine ⟨it.entry.tier, (hseparate key it hit).tier hkey, ?_⟩
  rw [locate, hit]

/-- A half of the capacity for the block of one tenant. -/
def halfReserve : Reserve := ⟨1, {plainKey 1}, fun _ => 4, {.hbm}⟩

theorem runOps_reserved_twoTenants :
    Returns (runOps .lazy (twoTenants 8 1) [.write (plainBlock 1 4) .hbm 1,
        .write (plainBlock 2 4) .hbm 2, .write (plainBlock 3 4) .dram 2] State.fresh) fun q =>
      locate (plainKey 1) q.2 = ⟨true, .hbm, plainKey 1⟩ := by
  have hcovers : Covers (twoTenants 8 1) halfReserve :=
    { quota := rfl, weights := twoTenants_weights 8 1, ratio := le_refl 1
      fastest := by decide
      share := by decide +kernel }
  refine (runOps_reserved (twoTenants 8 1) halfReserve hcovers _ ?_).mono fun q hq => ?_
  · simp only [List.mem_cons, List.not_mem_nil, or_false]
    rintro op (rfl | rfl | rfl) <;> refine ⟨by decide, ?_⟩
    · exact fun _ => ⟨by decide, .hbm, by decide, rfl⟩
    · exact fun hmem => absurd hmem (by decide)
    · exact fun hmem => absurd hmem (by decide)
  · obtain ⟨⟨t, ht, hlocate⟩, -⟩ := hq (plainKey 1) (by decide) (plainBlock 1 4) rfl
    rwa [Finset.mem_singleton.mp ht] at hlocate

end TieredKVCache.Storage
