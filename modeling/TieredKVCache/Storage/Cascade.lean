import TieredKVCache.Storage.Ledger
import TieredKVCache.Storage.Residents

/-!
# Blocks of one size

Where all blocks have one size and it fits every configured tier, a block that enters a full tier
pushes one block down from tier to tier until a tier has room (`enforceWithin_cascade`). A write
therefore loses at most one block, and only where no tier from its target down has room. A
promotion loses none: the block that is promoted leaves room in its own tier.
-/

namespace TieredKVCache.Storage

open Lib Relation

/-- All blocks have this size. -/
def Uniform (size : Nat) (s : State) : Prop :=
  ∀ k it, s.blocks.lookup k = some it → blockSizeBytes it.block = size

/-- The size of the blocks a call writes. -/
def Writes (size : Nat) : Op → Prop
  | .write block _ _ => blockSizeBytes block = size
  | _ => True

section

variable {D : Type} [DoubleArith D] (config : TierConfig D)

/-- A block of this size fits every configured tier. -/
def FitsAll (size : Nat) : Prop :=
  ∀ t, config.configured t = true →
    size ≤ config.evictionThresholdOf t ∧ size ≤ config.capacityOf t

/-- With these counters no configured tier from `t` down has room for one more block. -/
def NoRoom (size : Nat) (t : Tier) (used : Tier → Nat) : Prop :=
  ∀ u, config.configured u = true → t.toNat ≤ u.toNat →
    config.evictionThresholdOf u < used u + size

/-- At most one key is lost, and that only without room. -/
def LosesOne (size : Nat) (t : Tier) (used : Tier → Nat) (before after : Finset BlockKey) : Prop :=
  after = before ∨ ∃ key ∈ before, after = before.erase key ∧ NoRoom config size t used

end

/-- One block more than these counters say is in the tier. -/
def OneMore (size : Nat) (t : Tier) (used : Tier → Nat) (s : State) : Prop :=
  s.usedBytes = Function.update used t (used t + size)

section

variable {D : Type} {config : TierConfig D} {size : Nat} {t : Tier} {key : BlockKey}
  {it : StoredBlock} {s s' : State}

/-! ## One size -/

theorem Uniform.of_sub (h : Uniform size s) (hsub : (contents s').Sub (contents s)) :
    Uniform size s' := by
  intro k it hk
  have hcontents : contents s' k = some (it.block, it.entry.tenantId) := by
    rw [contents, hk, Option.map_some]
  obtain ⟨it', hk', heq⟩ := Option.map_eq_some_iff.mp (hsub hcontents)
  rw [← (Prod.mk.inj heq).1]
  exact h k it' hk'

theorem Uniform.insert (h : Uniform size s) (hblocks : s'.blocks = s.blocks.insert key it)
    (hsize : blockSizeBytes it.block = size) : Uniform size s' := by
  intro k it' hk
  rw [hblocks] at hk
  rcases lookup_insert_eq_some.mp hk with ⟨-, rfl⟩ | ⟨-, hk⟩
  · exact hsize
  · exact h k it' hk

theorem Scans.uniform [DoubleArith D] (h : Scans config t s s') (huniform : Uniform size s) :
    Uniform size s' := by
  refine huniform.of_sub ?_
  induction h with
  | refl => exact .refl _
  | tail _ hlast ih =>
    rw [hlast.2.contents_eq]
    exact ih

/-! ## The counters -/

theorem removeLocked_usedBytes (h : s.blocks.lookup key = some it) :
    (removeLocked config .lazy key s).usedBytes = Function.update s.usedBytes it.entry.tier
      (s.usedBytes it.entry.tier - it.entry.sizeBytes) := by
  rw [removeLocked_eq h]

theorem removeLocked_usedBytes_le (key : BlockKey) (s : State) (u : Tier) :
    (removeLocked config .lazy key s).usedBytes u ≤ s.usedBytes u := by
  cases h : s.blocks.lookup key with
  | none => rw [removeLocked_of_none h]
  | some it =>
    rw [removeLocked_usedBytes h]
    by_cases hu : u = it.entry.tier
    · subst hu
      rw [Function.update_self]
      exact Nat.sub_le _ _
    · rw [Function.update_of_ne hu]

variable (config) in
theorem admitLocked_oneMore (block : KVCacheBlock) (t : Tier) (tenantId : UInt32) (s : State) :
    OneMore (blockSizeBytes block) t (removeLocked config .lazy block.key s).usedBytes
      (admitLocked .lazy config block t tenantId s) := by
  rw [admitLocked_eq]
  rfl

end

section

variable {D : Type} [DoubleArith D] {config : TierConfig D} {size : Nat} {t u : Tier}
  {used : Tier → Nat} {key : BlockKey} {it : StoredBlock} {s s' a b : State} {v : Victim}
  {depth : Nat}

/-- What is written decides the size of what is stored. -/
theorem runOps_uniform {ops : List Op} (hops : ∀ op ∈ ops, Writes size op) :
    Returns (runOps .lazy config ops State.fresh) fun r => Good config r.2 ∧ Uniform size r.2 := by
  apply (runOps_contents_sub .lazy config ops).mono
  intro r ⟨hgood, hsub⟩
  refine ⟨hgood, fun k it hk => ?_⟩
  have hwrite : lastOkWrite (ops.zip r.1) k = some (it.block, it.entry.tenantId) := by
    apply hsub
    rw [contents, hk, Option.map_some]
  obtain ⟨⟨op, reply⟩, hmem, hok⟩ := List.exists_of_findSome?_eq_some hwrite
  have hop := hops op (List.of_mem_zip (List.mem_reverse.mp hmem)).1
  unfold okWrite at hok
  split at hok
  next block target tenantId status heq =>
    cases heq
    split at hok
    next =>
      cases hok
      exact hop
    next => cases hok
  next => cases hok

/-! ## The cascade -/

/-- The block that is one too many leaves the tier. -/
theorem RoundInv.removed (h : RoundInv config t a) (huniform : Uniform size a)
    (hmore : OneMore size t used a) (hvictim : roundVictim config t a = some v) :
    blockSizeBytes v.it.block = size ∧
      (removeLocked config .lazy v.key v.state).usedBytes = used := by
  obtain ⟨s₁, hscans, hpick, ht, hinv⟩ := h.picked hvictim
  have hfound := (roundVictim_chosen hvictim).2
  have hsize : blockSizeBytes v.it.block = size := by
    refine hscans.uniform huniform v.key v.it ?_
    rw [← hpick.blocks]
    exact hfound
  have hcount : v.state.usedBytes = Function.update used t (used t + size) :=
    (hpick.usedBytes.trans hscans.usedBytes).trans hmore
  refine ⟨hsize, ?_⟩
  rw [removeLocked_usedBytes hfound, ht, hinv.sized hfound, hsize, hcount, Function.update_self,
    Nat.add_sub_cancel, Function.update_idem, Function.update_eq_self]

/-- It is dropped from the slowest tier only. -/
theorem RoundInv.usedBytes_dropped (h : RoundInv config t a) (hfits : FitsAll config size)
    (huniform : Uniform size a) (hmore : OneMore size t used a)
    (hvictim : roundVictim config t a = some v) (hcall : nestedCall config t a = none) :
    config.nextSlowerConfigured t = none ∧ (v.left config t).usedBytes = used := by
  obtain ⟨hsize, hused⟩ := h.removed huniform hmore hvictim
  have hnext : config.nextSlowerConfigured t = none := by
    rcases (nestedCall_eq_none hvictim).mp hcall with hnone | ⟨u, hu, hlt⟩
    · exact hnone
    · have hle := (hfits u (TierConfig.nextSlowerConfigured_configured hu)).2
      omega
  refine ⟨hnext, ?_⟩
  rw [Victim.left, evicted, hnext]
  exact hused

/-- Else it is one too many in the next slower tier. -/
theorem RoundInv.oneMore_demoted (h : RoundInv config t a) (huniform : Uniform size a)
    (hmore : OneMore size t used a) (hvictim : roundVictim config t a = some v)
    (hcall : nestedCall config t a = some (u, b)) : OneMore size u used b := by
  obtain ⟨hsize, hused⟩ := h.removed huniform hmore hvictim
  obtain ⟨v', hvictim', hnext, -, rfl⟩ := nestedCall_eq_some hcall
  cases hvictim.symm.trans hvictim'
  have hslow : config.fastestTierCache ≠ some u :=
    fastestTierCache_ne_of_nextSlower hnext (h.evicts_of_victim hvictim).placed
  rw [demoteLocked_eq hslow, ← hsize, ← hused]
  rfl

theorem NoRoom.cons (hover : config.evictionThresholdOf t < used t + size)
    (hnext : ∀ u, config.nextSlowerConfigured t = some u → NoRoom config size u used) :
    NoRoom config size t used := by
  intro u hu hle
  rcases Nat.eq_or_lt_of_le hle with heq | hlt
  · exact Tier.toNat_injective heq ▸ hover
  · obtain ⟨slower, hslower⟩ := TierConfig.nextSlowerConfigured_isSome hu hlt
    exact hnext slower hslower u hu (TierConfig.nextSlowerConfigured_le hslower hu hlt)

/-- Enforcement of a tier that holds one block too many passes one block on. -/
theorem enforceWithin_cascade (hfits : FitsAll config size)
    (hwithin : ∀ u, used u ≤ config.evictionThresholdOf u) (hdepth : 3 ≤ depth + t.toNat)
    (h : RoundInv config t s) (huniform : Uniform size s) (hmore : OneMore size t used s) :
    Returns (enforceWithin .lazy config depth t s) fun r =>
      LosesOne config size t used (residents s) (residents r.2) := by
  induction depth generalizing t s with
  | zero =>
    have hlt := t.toNat_lt
    omega
  | succ depth ih =>
    have hat : s.usedBytes t = used t + size := by rw [hmore, Function.update_self]
    -- After one eviction the tier is within its threshold, and the loop ends.
    have hends {a' : State} (hcount : residentCount t a' < residentCount t s)
        (hbody : enforceBody .lazy config (enforceWithin .lazy config depth) t s = .ok (.inl a'))
        (hle : a'.usedBytes t ≤ config.evictionThresholdOf t) :
        enforceWithin .lazy config (depth + 1) t s = .ok (.success, a') := by
      obtain ⟨n, hn⟩ : ∃ n, residentCount t s = n + 1 := ⟨residentCount t s - 1, by omega⟩
      rw [enforceWithin, hn, iterate_of_inl hbody]
      exact iterate_of_inr (if_pos hle)
    cases h.enforceInv.round depth (by omega) with
    | ends hle hbody =>
      exact ⟨(.success, s), iterate_of_inr hbody, .inl rfl⟩
    | @evicts v a' hvictim hround hbody hinv hcount =>
      have hover := roundVictim_over hvictim
      rw [hat] at hover
      have hkey : v.key ∈ residents s := by
        rw [← h.residents_state hvictim]
        exact mem_residents_of_lookup (roundVictim_chosen hvictim).2
      cases hround with
      | dropped hcall =>
        obtain ⟨hnext, hused⟩ := h.usedBytes_dropped hfits huniform hmore hvictim hcall
        refine ⟨_, hends hcount hbody ?_, .inr ⟨v.key, hkey, ?_, ?_⟩⟩
        · show (v.left config t).usedBytes t ≤ _
          rw [hused]
          exact hwithin t
        · exact h.residents_dropped hvictim hcall
        · exact .cons hover (by simp [hnext])
      | @demoted u _ hcall henforce =>
        have hleft := h.residents_demoted hvictim (by simp [hcall])
        obtain ⟨hb, hlt⟩ := h.nested hcall
        have hev := h.evicts_of_victim hvictim
        have hmore' := h.oneMore_demoted huniform hmore hvictim hcall
        have huniform' : Uniform size (v.left config t) :=
          huniform.of_sub (hev.steps.contents_sub h.inv)
        have hsteps := (enforceWithin_returns (by omega) hb.inv hb.slower).of_eq henforce
        have hsame := hsteps.2.1.sameIn hb.inv hlt
        refine ⟨_, hends hcount hbody ?_, ?_⟩
        · rw [← hsame.usedBytes hb.inv (hsteps.2.1.repInv hb.inv), hmore',
            Function.update_of_ne (fun heq => by simp [heq] at hlt)]
          exact hwithin t
        · have hloses := (ih (by omega) hb huniform' hmore').of_eq henforce
          rw [← hleft]
          refine hloses.imp id fun ⟨key, hmem, hgone, hroom⟩ => ⟨key, hmem, hgone, ?_⟩
          refine .cons hover fun u' hu' => ?_
          obtain ⟨v', hvictim', hnext, -⟩ := nestedCall_eq_some hcall
          cases hnext.symm.trans hu'
          exact hroom

theorem enforceCapacityLocked_cascade (hfits : FitsAll config size)
    (hwithin : ∀ u, used u ≤ config.evictionThresholdOf u) (h : RoundInv config t s)
    (huniform : Uniform size s) (hmore : OneMore size t used s) :
    Returns (enforceCapacityLocked .lazy config t s) fun r =>
      LosesOne config size t used (residents s) (residents r.2) :=
  enforceWithin_cascade hfits hwithin (by omega) h huniform hmore

/-! ## Calls -/

/-- Room in one tier from `t` down is enough. -/
theorem LosesOne.eq_of_room {before after : Finset BlockKey}
    (h : LosesOne config size t used before after) (hu : config.configured u = true)
    (hle : t.toNat ≤ u.toNat) (hroom : used u + size ≤ config.evictionThresholdOf u) :
    after = before := by
  rcases h with hsame | ⟨key, -, -, hfull⟩
  · exact hsame
  · exact absurd (hfull u hu hle) (Nat.not_lt.mpr hroom)

theorem Good.removed_within (hgood : Good config s) (key : BlockKey) (u : Tier) :
    (removeLocked config .lazy key s).usedBytes u ≤ config.evictionThresholdOf u :=
  (removeLocked_usedBytes_le key s u).trans (hgood.within u)

/-- Without its block, a key leaves room for one block in its tier. -/
theorem Good.room_left (hgood : Good config s) (huniform : Uniform size s)
    (h : s.blocks.lookup key = some it) :
    (removeLocked config .lazy key s).usedBytes it.entry.tier + size ≤
      config.evictionThresholdOf it.entry.tier := by
  have hsized : it.entry.sizeBytes = size := (hgood.inv.sized h).trans (huniform key it h)
  have hused : size ≤ s.usedBytes it.entry.tier := by
    rw [hgood.inv.used, bytesOf_erase h, if_pos rfl, hsized]
    exact Nat.le_add_right _ _
  rw [removeLocked_usedBytes h, Function.update_self, hsized, Nat.sub_add_cancel hused]
  exact hgood.within it.entry.tier

theorem placeLocked_losesOne {block : KVCacheBlock} (hfits : FitsAll config size)
    (hgood : Good config s) (huniform : Uniform size s) (ht : config.configured t = true)
    (hsize : blockSizeBytes block = size) (tenantId : UInt32) :
    Returns (placeLocked .lazy config block t tenantId s) fun r =>
      LosesOne config size t (removeLocked config .lazy block.key s).usedBytes
        (insert block.key (residents s)) (residents r.2) ∧ Uniform size r.2 := by
  have hsmall := hsize.trans_le (hfits t ht).1
  obtain ⟨r, hr, hplaced⟩ := placeLocked_returns .lazy hgood ht block tenantId
  refine ⟨r, hr, ?_⟩
  cases hplaced with
  | refused hlarge => exact absurd hlarge (Nat.not_lt.mpr hsmall)
  | @placed s' _ hsteps hgood' =>
    have hblocks := admitLocked_blocks .lazy config block t tenantId s
    have huniform' := huniform.insert hblocks hsize
    have hinv := hgood.roundInv_admitted ht block tenantId
    have hmore := admitLocked_oneMore config block t tenantId s
    have henforce : enforceCapacityLocked .lazy config t
        (admitLocked .lazy config block t tenantId s) = .ok (.success, s') :=
      (if_neg (Nat.not_lt.mpr hsmall)).symm.trans hr
    rw [hsize] at hmore
    rw [← residents_insert hblocks]
    refine ⟨?_, huniform'.of_sub (hsteps.contents_sub hinv.inv)⟩
    exact (enforceCapacityLocked_cascade hfits (hgood.removed_within block.key) hinv huniform'
      hmore).of_eq henforce

theorem read_residents (hfits : FitsAll config size) (hgood : Good config s)
    (huniform : Uniform size s) (key : BlockKey) :
    Returns (read .lazy config key s) fun r => residents r.2 = residents s := by
  have hsame {it it' : StoredBlock} {a : State} (h : s.blocks.lookup key = some it)
      (ha : a.blocks = s.blocks.insert key it') : residents a = residents s :=
    residents_replace ha (mem_residents_of_lookup h)
  refine read_rule (Q := fun a => residents a = residents s) .lazy hgood key
    ?miss ?hit ?stay ?promote
  case miss => exact fun _ => rfl
  case hit => exact fun it h _ => hsame h rfl
  case stay => exact fun it fast h _ _ _ => hsame h rfl
  case promote =>
    intro it fast h hfast hslow _
    have hgood' : Good config (touchedState config key it s) :=
      ⟨touchedState_repInv hgood.inv h, hgood.within⟩
    have huniform' : Uniform size (touchedState config key it s) :=
      huniform.insert rfl (huniform key it h)
    have hlookup : (touchedState config key it s).blocks.lookup key =
        some (touched it s.logicalClock) := AList.lookup_insert _
    have hblocks : (promotedState .lazy config key it fast s).blocks = _ :=
      promotedState_blocks hfast key it s
    have hmore : OneMore size fast
        (removeLocked config .lazy key (touchedState config key it s)).usedBytes
        (promotedState .lazy config key it fast s) := by
      rw [promotedState, promoteLocked_eq hfast, ← (hgood.inv.sized h).trans (huniform key it h)]
      rfl
    apply (enforceCapacityLocked_cascade hfits (hgood'.removed_within key)
      (hgood.roundInv_promoted h hfast) (huniform.insert hblocks (huniform key it h)) hmore).mono
    intro r hloses
    have hroom := hgood'.room_left huniform' hlookup
    rw [← hsame h hblocks]
    exact hloses.eq_of_room (hgood.inv.placed h)
      (TierConfig.fastestTierCache_le hfast (hgood.inv.placed h)) hroom

theorem prefetchKeys_residents (hfits : FitsAll config size) {fast : Tier}
    (hfast : config.fastestTierCache = some fast) (predicted : List BlockKey)
    (hgood : Good config s) (huniform : Uniform size s) :
    Returns (prefetchKeys .lazy config fast predicted s) fun r => residents r.2 = residents s := by
  have hconf := TierConfig.fastestTierCache_configured hfast
  suffices h : Returns (prefetchKeys .lazy config fast predicted s) fun r =>
      Uniform size s → residents r.2 = residents s from h.mono fun r hr => hr huniform
  refine prefetchKeys_rule (Q := fun _ s s' => Uniform size s → residents s' = residents s)
    .lazy hconf ?nil ?skip ?place predicted hgood
  case nil => exact fun s _ => rfl
  case skip => exact fun key rest s s' _ hrest => hrest
  case place =>
    intro key rest it s hgood h hslow hsize
    obtain ⟨r, hr, -⟩ := placeLocked_returns .lazy hgood hconf it.block it.entry.tenantId
    refine ⟨r, hr, fun s' hrest huniform => ?_⟩
    obtain ⟨hloses, huniform'⟩ := (placeLocked_losesOne hfits hgood huniform hconf
      (huniform key it h) it.entry.tenantId).of_eq hr
    rw [(hgood.inv.keyed h).2, Finset.insert_eq_of_mem (mem_residents_of_lookup h)] at hloses
    rw [hrest huniform']
    exact hloses.eq_of_room (hgood.inv.placed h)
      (TierConfig.fastestTierCache_le hfast (hgood.inv.placed h)) (hgood.room_left huniform h)

end

/-- Read exactly, a block below the threshold of a tier is below its capacity. -/
theorem fitsAll_rat {config : TierConfig ℚ} {size : Nat}
    (h : ∀ t, config.configured t = true → size ≤ config.evictionThresholdOf t) :
    FitsAll config size := by
  intro t ht
  refine ⟨h t ht, (h t ht).trans ?_⟩
  rw [config.evictionThresholdOf_rat t]
  exact Nat.min_le_left _ _

/-- **Residents.** In a run with blocks of one size that fits every configured tier, reading and
prefetching leave the set of resident keys as it is. A write makes its key resident and keeps the
others, up to one key, which is lost only where every configured tier from the target down has no
room for one more block. -/
theorem runOps_residents (config : TierConfig ℚ) (size : Nat)
    (hfits : ∀ t, config.configured t = true → size ≤ config.evictionThresholdOf t) (ops : List Op)
    (hops : ∀ op ∈ ops, Writes size op) :
    Returns (runOps .lazy config ops State.fresh) fun r =>
      (∀ key, Returns (read .lazy config key r.2) fun r' => residents r'.2 = residents r.2) ∧
      (∀ predicted, Returns (prefetch .lazy config predicted r.2) fun r' =>
        residents r'.2 = residents r.2) ∧
      ∀ block target tenantId, blockSizeBytes block = size →
        Returns (write .lazy config block target tenantId r.2) fun r' =>
          residents r'.2 = insert block.key (residents r.2) ∨
            ∃ lost ∈ insert block.key (residents r.2),
              residents r'.2 = (insert block.key (residents r.2)).erase lost ∧
                ∀ t, config.resolveConfiguredTier target = some t →
                  NoRoom config size t (removeLocked config .lazy block.key r.2).usedBytes := by
  have hfits := fitsAll_rat hfits
  apply (runOps_uniform hops).mono
  intro r ⟨hgood, huniform⟩
  refine ⟨read_residents hfits hgood huniform, fun predicted => ?_,
    fun block target tenantId hsize => ?_⟩
  · unfold prefetch
    cases hfast : config.resolveConfiguredTier .hbm with
    | none => exact returns_ok rfl
    | some fast => exact prefetchKeys_residents hfits hfast predicted hgood huniform
  · unfold write
    cases ht : config.resolveConfiguredTier target with
    | none =>
      -- Without a configured tier the manager is empty.
      have hempty : residents r.2 = ∅ := by
        refine Finset.eq_empty_of_forall_notMem fun key hkey => ?_
        obtain ⟨it, hit⟩ := mem_residents.mp hkey
        have hsome : (config.resolveConfiguredTier target).isSome = true :=
          TierConfig.resolveConfiguredTier_isSome (hgood.inv.placed hit)
        simp [ht] at hsome
      refine returns_ok (.inr ⟨block.key, Finset.mem_insert_self _ _, ?_, fun _ h => by cases h⟩)
      rw [hempty, insert_empty_eq, Finset.erase_singleton]
    | some t =>
      have hconf := TierConfig.resolveConfiguredTier_configured ht
      apply (placeLocked_losesOne hfits hgood huniform hconf hsize tenantId).mono
      intro r' ⟨hloses, _⟩
      refine hloses.imp id fun ⟨lost, hmem, hgone, hfull⟩ => ⟨lost, hmem, hgone, ?_⟩
      intro t' ht'
      cases ht'
      exact hfull

theorem runOps_residents_twoTiers :
    Returns (runOps .lazy twoTiers
      [.write (plainBlock 1 4) .hbm 0, .write (plainBlock 2 4) .hbm 0,
        .write (plainBlock 3 4) .hbm 0] State.fresh) fun r =>
      Returns (read .lazy twoTiers (plainKey 1) r.2) fun r' => residents r'.2 = residents r.2 := by
  refine (runOps_residents twoTiers 4 ?_ _ ?_).mono fun r h => h.1 (plainKey 1)
  · intro t
    cases t <;> decide +kernel
  · simp only [List.mem_cons, List.not_mem_nil, or_false]
    rintro op (rfl | rfl | rfl) <;> rfl

end TieredKVCache.Storage
