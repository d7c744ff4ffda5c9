import TieredKVCache.Lib.Retention
import TieredKVCache.Storage.SlowTier

/-!
# How long a block is kept

Without tenant quotas and with blocks of one size, a block that enters the fastest tier pushes at
most one block into the slowest one, and only where no tier above has room (`enforceWithin_spills`).
The slowest tier is therefore the lower part of a store in the sense of `Lib.Lifted`, and the other
tiers are its upper part: a block that has been written or read stays in some tier until as many
other blocks have been named in calls as the slowest tier has room for (`runOps_keeps`).
-/

namespace TieredKVCache.Storage

open Lib Relation

/-- The resident keys other than these. -/
def upper (keys : List BlockKey) (s : State) : Finset BlockKey := residents s \ keys.toFinset

/-- Of the configured tiers this is the slowest one, and there is a faster one. There are no tenant
quotas, and blocks of this size fit every tier. -/
structure Slowest {D : Type} [DoubleArith D] (config : TierConfig D) (t : Tier) (size : Nat) :
    Prop where
  quota : config.quotaEnabledLocked = false
  configured : config.configured t = true
  slow : config.fastestTierCache ≠ some t
  last : config.nextSlowerConfigured t = none
  size_pos : 0 < size
  fits : FitsAll config size

section

variable {D : Type} [DoubleArith D] {config : TierConfig D} {t u : Tier} {s s' a b : State}
  {keys : List BlockKey} {key : BlockKey} {size depth : Nat} {used : Tier → Nat} {v : Victim}

theorem mem_upper : key ∈ upper keys s ↔ key ∈ residents s ∧ key ∉ keys := by
  rw [upper, Finset.mem_sdiff, List.mem_toFinset]

theorem upper_concat (keys : List BlockKey) (key : BlockKey) (s : State) :
    upper (keys ++ [key]) s = (upper keys s).erase key := by
  ext k
  rw [mem_upper, Finset.mem_erase, mem_upper, List.mem_append, List.mem_singleton, not_or]
  tauto

theorem upper_congr (h : residents s' = residents s) : upper keys s' = upper keys s := by
  rw [upper, h, upper]

theorem Slowest.le (h : Slowest config t size) (hu : config.configured u = true) :
    u.toNat ≤ t.toNat := by
  by_contra hlt
  obtain ⟨w, hw⟩ := TierConfig.nextSlowerConfigured_isSome hu (Nat.lt_of_not_le hlt)
  cases h.last.symm.trans hw

/-- The number of blocks that the tier has room for. -/
def slotsOf (config : TierConfig D) (t : Tier) (size : Nat) : Nat :=
  config.evictionThresholdOf t / size

/-! ## The slowest tier -/

theorem InOrder.parts (hslowest : Slowest config t size) (hgood : Good config s)
    (huniform : Uniform size s) (h : InOrder t s keys) :
    Parts (slotsOf config t size) (upper keys s) keys where
  nodup := h.nodup
  disjoint _ hk hmem := (mem_upper.mp hmem).2 hk
  length_le := by
    rw [slotsOf, Nat.le_div_iff_mul_le hslowest.size_pos, ← h.usedBytes hgood.inv huniform]
    exact hgood.within t

/-- A call that is within the threshold after its first eviction ends there. -/
theorem enforceWithin_once (hcount : residentCount u a < residentCount u s)
    (hbody : enforceBody .lazy config (enforceWithin .lazy config depth) u s = .ok (.inl a))
    (hle : a.usedBytes u ≤ config.evictionThresholdOf u) :
    enforceWithin .lazy config (depth + 1) u s = .ok (.success, a) := by
  obtain ⟨n, hn⟩ : ∃ n, residentCount u s = n + 1 := ⟨residentCount u s - 1, by omega⟩
  rw [enforceWithin, hn, iterate_of_inl hbody]
  exact iterate_of_inr (if_pos hle)

/-- With one block too many, the oldest one leaves the slowest tier and the store. -/
theorem enforceWithin_cuts (hslowest : Slowest config t size)
    (hwithin : used t ≤ config.evictionThresholdOf t) (hdepth : 3 ≤ depth + t.toNat)
    (hround : RoundInv config t b) (huniform : Uniform size b) (hmore : OneMore size t used b)
    (h : InOrder t b keys) :
    Returns (enforceWithin .lazy config depth t b) fun r =>
      InOrder t r.2 (keys.rtake (slotsOf config t size)) ∧
        upper (keys.rtake (slotsOf config t size)) r.2 = upper keys b := by
  cases depth with
  | zero =>
    have hlt := t.toNat_lt
    omega
  | succ depth =>
    have hused : b.usedBytes t = keys.length * size := h.usedBytes hround.inv huniform
    have hat : b.usedBytes t = used t + size := by rw [hmore, Function.update_self]
    cases hround.enforceInv.round depth (by omega) with
    | ends hle hbody =>
      have hshort : keys.length ≤ slotsOf config t size := by
        rw [slotsOf, Nat.le_div_iff_mul_le hslowest.size_pos, ← hused]
        exact hle
      rw [rtake_of_length_le hshort]
      exact ⟨_, iterate_of_inr hbody, h, rfl⟩
    | @evicts v a' hvictim hevict hbody hinv hcount =>
      obtain ⟨rest, rfl, hrest⟩ :=
        h.evicted hslowest.quota hslowest.slow hround hvictim hevict (by omega)
      have hover := roundVictim_over hvictim
      have hlong : slotsOf config t size < rest.length + 1 := by
        rw [slotsOf, Nat.div_lt_iff_lt_mul hslowest.size_pos]
        rwa [hused, List.length_cons] at hover
      have hshort : rest.length ≤ slotsOf config t size := by
        rw [slotsOf, Nat.le_div_iff_mul_le hslowest.size_pos]
        rw [hused, List.length_cons, Nat.add_mul, Nat.one_mul] at hat
        omega
      have hcut : (v.key :: rest).rtake (slotsOf config t size) = rest := by
        have hlength : rest.length = slotsOf config t size := by omega
        rw [← List.singleton_append, rtake_append_of_le _ hlength.ge,
          rtake_of_length_le hlength.le]
      rw [hcut]
      cases hevict with
      | dropped hcall =>
        obtain ⟨-, hafter⟩ :=
          hround.usedBytes_dropped hslowest.fits huniform hmore hvictim hcall
        have hleft : residents (v.left config t) = (residents b).erase v.key :=
          hround.residents_dropped hvictim hcall
        refine ⟨_, enforceWithin_once hcount hbody ?_, hrest, ?_⟩
        · show (v.left config t).usedBytes t ≤ _
          rw [hafter]
          exact hwithin
        · show residents (v.left config t) \ rest.toFinset = _
          rw [hleft, upper, List.toFinset_cons, Finset.erase_sdiff_comm, ← Finset.sdiff_insert]
      | demoted hcall henforce =>
        obtain ⟨-, -, hnext, -⟩ := nestedCall_eq_some hcall
        cases hslowest.last.symm.trans hnext

/-! ## The tiers above -/

/-- No tier from `u` down to the slowest one has room for one more block, the slowest one aside. -/
def NoRoomAbove (config : TierConfig D) (t : Tier) (size : Nat) (u : Tier) (used : Tier → Nat) :
    Prop :=
  ∀ w, config.configured w = true → u.toNat ≤ w.toNat → w.toNat < t.toNat →
    config.evictionThresholdOf w < used w + size

/-- What a call for a faster tier does to the slowest one: nothing, or one key of the tiers above
enters it. -/
inductive Spills (config : TierConfig D) (t : Tier) (size : Nat) (u : Tier) (used : Tier → Nat)
    (keys : List BlockKey) (s s' : State) : Prop
  | kept (horder : InOrder t s' keys) (hupper : upper keys s' = upper keys s)
  | pushed {victim : BlockKey} {keys' : List BlockKey} (hvictim : victim ∈ upper keys s)
      (hfull : NoRoomAbove config t size u used)
      (hkeys : keys' = (keys ++ [victim]).rtake (slotsOf config t size))
      (horder : InOrder t s' keys') (hupper : upper keys' s' = (upper keys s).erase victim)

theorem NoRoomAbove.cons (hover : config.evictionThresholdOf u < used u + size)
    (hnext : ∀ w, config.nextSlowerConfigured u = some w → w.toNat < t.toNat →
      NoRoomAbove config t size w used) : NoRoomAbove config t size u used := by
  intro w hw hle hlt
  rcases Nat.eq_or_lt_of_le hle with heq | hbelow
  · exact Tier.toNat_injective heq ▸ hover
  · obtain ⟨slower, hslower⟩ := TierConfig.nextSlowerConfigured_isSome hw hbelow
    have hfirst := TierConfig.nextSlowerConfigured_le hslower hw hbelow
    exact hnext slower hslower (by omega) w hw hfirst hlt

/-- A victim that is demoted into the slowest tier is its newest block. -/
theorem inOrder_nested (hslowest : Slowest config t size) (hround : RoundInv config u a)
    (hvictim : roundVictim config u a = some v) (hlt : u.toNat < t.toNat)
    (hcall : nestedCall config u a = some (t, b)) (h : InOrder t a keys) :
    v.key ∈ upper keys a ∧ InOrder t b (keys ++ [v.key]) := by
  obtain ⟨v', hvictim', hnext, hfits, -⟩ := nestedCall_eq_some hcall
  cases hvictim.symm.trans hvictim'
  have hev := hround.evicts_of_victim hvictim
  obtain ⟨-, -, -, htier, hinv⟩ := hround.picked hvictim
  have horder := h.sameIn (hround.sameIn_state hvictim hslowest.slow)
  have hout : v.key ∉ keys := by
    intro hmem
    obtain ⟨it, hit, ht⟩ := (horder.mem v.key).mp hmem
    cases hit.symm.trans hev.found
    rw [← ht, htier] at hlt
    exact Nat.lt_irrefl _ hlt
  have hblocks : (evicted .lazy config u v.key v.it v.state).blocks = _ :=
    evicted_blocks hev.keyed hev.placed
  rw [hnext] at hblocks
  rw [evicted_of_nestedCall hcall hvictim]
  refine ⟨mem_upper.mpr ⟨?_, hout⟩, horder.append hout (hblocks.trans (if_pos hfits)) rfl
    fun k it hk => Nat.lt_succ_of_le (hinv.stampLe hk)⟩
  rw [← hround.residents_state hvictim]
  exact mem_residents_of_lookup hev.found

theorem enforceWithin_spills (hslowest : Slowest config t size)
    (hwithin : ∀ w, used w ≤ config.evictionThresholdOf w) (hlt : u.toNat < t.toNat)
    (hdepth : 3 ≤ depth + u.toNat) (hround : RoundInv config u s) (huniform : Uniform size s)
    (hmore : OneMore size u used s) (h : InOrder t s keys) :
    Returns (enforceWithin .lazy config depth u s) fun r =>
      Spills config t size u used keys s r.2 := by
  induction depth generalizing u s with
  | zero =>
    have hlt := u.toNat_lt
    omega
  | succ depth ih =>
    cases hround.enforceInv.round depth (by omega) with
    | ends hle hbody => exact ⟨_, iterate_of_inr hbody, .kept h rfl⟩
    | @evicts v a' hvictim hevict hbody hinv hcount =>
      have hover := roundVictim_over hvictim
      rw [hmore, Function.update_self] at hover
      cases hevict with
      | dropped hcall =>
        obtain ⟨hnone, -⟩ := hround.usedBytes_dropped hslowest.fits huniform hmore hvictim hcall
        obtain ⟨w, hw⟩ := TierConfig.nextSlowerConfigured_isSome hslowest.configured hlt
        cases hnone.symm.trans hw
      | @demoted w _ hcall henforce =>
        obtain ⟨hb, huw⟩ := hround.nested hcall
        obtain ⟨v', hvictim', hnext, -⟩ := nestedCall_eq_some hcall
        cases hvictim.symm.trans hvictim'
        have hev := hround.evicts_of_victim hvictim
        have hmore' := hround.oneMore_demoted huniform hmore hvictim hcall
        have huniform' : Uniform size (v.left config u) :=
          huniform.of_sub (hev.steps.contents_sub hround.inv)
        have hleft : residents (v.left config u) = residents s :=
          hround.residents_demoted hvictim (by simp [hcall])
        have hsteps := (enforceWithin_returns (by omega) hb.inv hb.slower).of_eq henforce
        have hends : a'.usedBytes u ≤ config.evictionThresholdOf u := by
          rw [← (hsteps.2.1.sameIn hb.inv huw).usedBytes hb.inv (hsteps.2.1.repInv hb.inv), hmore',
            Function.update_of_ne (fun heq => by simp [heq] at huw)]
          exact hwithin u
        refine ⟨_, enforceWithin_once hcount hbody hends, ?_⟩
        by_cases hwt : w = t
        · subst hwt
          obtain ⟨hmem, horder⟩ := inOrder_nested hslowest hround hvictim hlt hcall h
          obtain ⟨hcut, hupper⟩ := (enforceWithin_cuts hslowest (hwithin w) (by omega) hb huniform'
            hmore' horder).of_eq henforce
          refine .pushed hmem (.cons hover fun w' hw' hlt' => ?_) rfl hcut ?_
          · cases hnext.symm.trans hw'
            exact absurd hlt' (Nat.lt_irrefl _)
          · rw [hupper]
            exact (upper_congr hleft).trans (upper_concat keys v.key s)
        · have hsame := hround.sameIn_left hvictim hslowest.slow
            (fun heq => by simp [heq] at hlt) (by simp [hcall, hwt])
          have hwt' : w.toNat < t.toNat := by
            have hle := hslowest.le (TierConfig.nextSlowerConfigured_configured hnext)
            exact Nat.lt_of_le_of_ne hle fun heq => hwt (Tier.toNat_injective heq)
          have hsame' : upper keys (v.left config u) = upper keys s := upper_congr hleft
          cases (ih hwt' (by omega) hb huniform' hmore' (h.sameIn hsame)).of_eq henforce with
          | kept horder hupper => exact .kept horder (hupper.trans hsame')
          | pushed hmem hfull hkeys horder hupper =>
            refine .pushed (hsame' ▸ hmem) (.cons hover fun w' hw' _ => ?_) hkeys horder
              (hupper.trans ?_)
            · cases hnext.symm.trans hw'
              exact hfull
            · exact congrArg (Finset.erase · _) hsame'

/-! ## One key -/

/-- Without its block in the slower tiers, a key that has entered the fastest one is lifted. -/
theorem enforceCapacityLocked_lifts {fast : Tier} {it : StoredBlock}
    (hslowest : Slowest config t size) (hinv : RepInv config s)
    (hwithin : ∀ w, used w ≤ config.evictionThresholdOf w)
    (hroom : ∀ it, s.blocks.lookup key = some it →
      used it.entry.tier + size ≤ config.evictionThresholdOf it.entry.tier)
    (hfast : config.fastestTierCache = some fast) (hblocks : a.blocks = s.blocks.insert key it)
    (htier : it.entry.tier = fast) (hround : RoundInv config fast a) (huniform : Uniform size a)
    (hmore : OneMore size fast used a) (h : InOrder t s keys) :
    Returns (enforceCapacityLocked .lazy config fast a) fun r => ∃ keys', InOrder t r.2 keys' ∧
      Lifted (slotsOf config t size) key (upper keys s) keys (upper keys' r.2) keys' := by
  have hne : fast ≠ t := fun heq => hslowest.slow (heq ▸ hfast)
  have hlt : fast.toNat < t.toNat := by
    have hle := TierConfig.fastestTierCache_le hfast hslowest.configured
    exact Nat.lt_of_le_of_ne hle fun heq => hne (Tier.toNat_injective heq)
  have horder : InOrder t a (keys.erase key) := by
    refine h.erase fun k it' ht => ?_
    rw [hblocks, lookup_insert_eq_some, lookup_erase_eq_some]
    refine or_iff_right ?_
    rintro ⟨-, rfl⟩
    exact hne (htier.symm.trans ht)
  have hupper : upper (keys.erase key) a = insert key (upper keys s) := by
    ext k
    rw [mem_upper, residents_insert hblocks, h.nodup.mem_erase_iff, Finset.mem_insert,
      Finset.mem_insert, mem_upper]
    tauto
  apply (enforceWithin_spills hslowest hwithin hlt (by omega) hround huniform hmore horder).mono
  intro r hspills
  cases hspills with
  | kept horder' hupper' =>
    refine ⟨_, horder', ?_⟩
    rw [hupper', hupper]
    exact .kept
  | @pushed victim keys' hvictim hfull hkeys horder' hupper' =>
    refine ⟨keys', horder', ?_⟩
    rw [hupper', hupper, hkeys]
    refine .pushed (fun hmem => ?_) (hupper ▸ hvictim)
    -- the tier that the key has left has room
    obtain ⟨hresident, hout⟩ := mem_upper.mp hmem
    obtain ⟨it', hit'⟩ := mem_residents.mp hresident
    have hplaced := hinv.placed hit'
    have habove : it'.entry.tier.toNat < t.toNat := by
      refine Nat.lt_of_le_of_ne (hslowest.le hplaced) fun heq => hout ?_
      exact (h.mem key).mpr ⟨it', hit', Tier.toNat_injective heq⟩
    have hover := hfull _ hplaced (TierConfig.fastestTierCache_le hfast hplaced) habove
    exact absurd hover (Nat.not_lt.mpr (hroom it' hit'))

theorem placeLocked_lifts {block : KVCacheBlock} {fast : Tier} (hslowest : Slowest config t size)
    (hgood : Good config s) (huniform : Uniform size s)
    (hfast : config.fastestTierCache = some fast) (hsize : blockSizeBytes block = size)
    (tenantId : UInt32) (h : InOrder t s keys) :
    Returns (placeLocked .lazy config block fast tenantId s) fun r =>
      ∃ keys', InOrder t r.2 keys' ∧
        Lifted (slotsOf config t size) block.key (upper keys s) keys (upper keys' r.2) keys' := by
  have hconf := TierConfig.fastestTierCache_configured hfast
  have hblocks := admitLocked_blocks .lazy config block fast tenantId s
  have hmore := admitLocked_oneMore config block fast tenantId s
  rw [hsize] at hmore
  rw [placeLocked, if_neg (Nat.not_lt.mpr (hsize.trans_le (hslowest.fits fast hconf).1))]
  exact enforceCapacityLocked_lifts hslowest hgood.inv (hgood.removed_within block.key)
    (fun it hit => hgood.room_left huniform hit) hfast hblocks rfl
    (hgood.roundInv_admitted hconf block tenantId) (huniform.insert hblocks hsize) hmore h

/-- A read of a resident block. -/
theorem read_lifts (hslowest : Slowest config t size) (hgood : Good config s)
    (huniform : Uniform size s) (hkey : key ∈ residents s) (h : InOrder t s keys) :
    Returns (read .lazy config key s) fun r => ∃ keys', InOrder t r.2 keys' ∧
      Lifted (slotsOf config t size) key (upper keys s) keys (upper keys' r.2) keys' := by
  refine read_rule (Q := fun a => ∃ keys', InOrder t a keys' ∧
    Lifted (slotsOf config t size) key (upper keys s) keys (upper keys' a) keys') .lazy hgood key
    ?miss ?hit ?stay ?promote
  case miss =>
    intro hnone
    obtain ⟨it, hit⟩ := mem_residents.mp hkey
    cases hnone.symm.trans hit
  case hit =>
    intro it hit hfast
    have hne : it.entry.tier ≠ t := fun heq => hslowest.slow (heq ▸ hfast)
    have hout : key ∉ keys := by
      intro hmem
      obtain ⟨it', hit', ht⟩ := (h.mem key).mp hmem
      cases hit.symm.trans hit'
      exact hne ht
    refine ⟨keys, h.sameIn (sameIn_insert rfl hit hne hne), ?_⟩
    have hlifted : Lifted (slotsOf config t size) key (upper keys s) keys _ _ := .kept
    rw [List.erase_of_not_mem hout,
      Finset.insert_eq_of_mem (mem_upper.mpr ⟨hkey, hout⟩)] at hlifted
    have hsame : residents (retouch config key it (touchedFastest it s.logicalClock) s) =
        residents s := residents_replace rfl hkey
    rwa [upper_congr hsame]
  case stay =>
    intro it fast hit hfast _ hlarge
    have hle := (hslowest.fits fast (TierConfig.fastestTierCache_configured hfast)).1
    rw [hgood.inv.sized hit, huniform key it hit] at hlarge
    exact absurd hle (Nat.not_le_of_lt hlarge)
  case promote =>
    intro it fast hit hfast hslow _
    have hgood' : Good config (touchedState config key it s) :=
      ⟨touchedState_repInv hgood.inv hit, hgood.within⟩
    have huniform' : Uniform size (touchedState config key it s) :=
      huniform.insert rfl (huniform key it hit)
    have hlookup : (touchedState config key it s).blocks.lookup key =
        some (touched it s.logicalClock) := AList.lookup_insert _
    have hblocks : (promotedState .lazy config key it fast s).blocks = _ :=
      promotedState_blocks hfast key it s
    have hmore : OneMore size fast
        (removeLocked config .lazy key (touchedState config key it s)).usedBytes
        (promotedState .lazy config key it fast s) := by
      rw [promotedState, promoteLocked_eq hfast, ← (hgood.inv.sized hit).trans (huniform key it hit)]
      rfl
    refine enforceCapacityLocked_lifts hslowest hgood.inv (hgood'.removed_within key)
      (fun it' hit' => ?_) hfast hblocks rfl (hgood.roundInv_promoted hit hfast)
      (huniform.insert hblocks (huniform key it hit)) hmore h
    cases hit.symm.trans hit'
    have hroom := hgood'.room_left huniform' hlookup
    exact hroom

/-! ## Calls -/

/-- A part of a run in which no other keys than these are used. -/
def Uses (config : TierConfig D) (t : Tier) (size : Nat) (used : BlockKey → Prop) (s s' : State) :
    Prop :=
  Uniform size s → Uniform size s' ∧ ∀ keys, InOrder t s keys → ∃ keys', InOrder t s' keys' ∧
    Lifts (slotsOf config t size) used (upper keys s, keys) (upper keys' s', keys')

variable {named named' : BlockKey → Prop}

theorem Uses.refl (s : State) : Uses config t size named s s :=
  fun huniform => ⟨huniform, fun keys h => ⟨keys, h, .refl⟩⟩

theorem Uses.trans (h : Uses config t size named s a) (h' : Uses config t size named a s') :
    Uses config t size named s s' := by
  intro huniform
  obtain ⟨huniform', hlifts⟩ := h huniform
  obtain ⟨huniform'', hlifts'⟩ := h' huniform'
  refine ⟨huniform'', fun keys horder => ?_⟩
  obtain ⟨keys', horder', hfirst⟩ := hlifts keys horder
  obtain ⟨keys'', horder'', hlast⟩ := hlifts' keys' horder'
  exact ⟨keys'', horder'', hfirst.trans hlast⟩

theorem Uses.mono (h : Uses config t size named s s') (himp : ∀ k, named k → named' k) :
    Uses config t size named' s s' := by
  intro huniform
  obtain ⟨huniform', hlifts⟩ := h huniform
  refine ⟨huniform', fun keys horder => ?_⟩
  obtain ⟨keys', horder', hlift⟩ := hlifts keys horder
  exact ⟨keys', horder', hlift.mono himp⟩

theorem placeLocked_uses {block : KVCacheBlock} {fast : Tier} (hslowest : Slowest config t size)
    (hgood : Good config s) (hfast : config.fastestTierCache = some fast) (tenantId : UInt32)
    (hsize : Uniform size s → blockSizeBytes block = size) :
    Returns (placeLocked .lazy config block fast tenantId s) fun r =>
      Uses config t size (· = block.key) s r.2 := by
  have hconf := TierConfig.fastestTierCache_configured hfast
  obtain ⟨r, hr, -⟩ := placeLocked_returns .lazy hgood hconf block tenantId
  refine ⟨r, hr, fun huniform => ⟨?_, fun keys h => ?_⟩⟩
  · exact ((placeLocked_losesOne hslowest.fits hgood huniform hconf (hsize huniform)
      tenantId).of_eq hr).2
  · obtain ⟨keys', horder, hlift⟩ :=
      (placeLocked_lifts hslowest hgood huniform hfast (hsize huniform) tenantId h).of_eq hr
    exact ⟨keys', horder, .single hlift rfl⟩

theorem read_uses (hslowest : Slowest config t size) (hgood : Good config s) (key : BlockKey) :
    Returns (read .lazy config key s) fun r => Uses config t size (· = key) s r.2 := by
  obtain ⟨r, hr, houtcome, -⟩ := read_returns .lazy hgood key
  refine ⟨r, hr, fun huniform =>
    ⟨huniform.of_sub (houtcome.contents_sub hgood.inv), fun keys h => ?_⟩⟩
  by_cases hkey : key ∈ residents s
  · obtain ⟨keys', horder, hlift⟩ := (read_lifts hslowest hgood huniform hkey h).of_eq hr
    exact ⟨keys', horder, .single hlift rfl⟩
  · cases houtcome with
    | miss => exact ⟨keys, h, .refl⟩
    | hit hit _ => exact absurd (mem_residents_of_lookup hit) hkey
    | stay hit _ _ _ => exact absurd (mem_residents_of_lookup hit) hkey
    | promoted hit _ _ _ _ _ _ => exact absurd (mem_residents_of_lookup hit) hkey
    | lost hit _ _ _ _ _ _ => exact absurd (mem_residents_of_lookup hit) hkey

theorem prefetchKeys_uses {fast : Tier} (hslowest : Slowest config t size)
    (hfast : config.fastestTierCache = some fast) (predicted : List BlockKey)
    (hgood : Good config s) :
    Returns (prefetchKeys .lazy config fast predicted s) fun r =>
      Uses config t size (· ∈ predicted) s r.2 := by
  refine prefetchKeys_rule (Q := fun keys s s' => Uses config t size (· ∈ keys) s s') .lazy
    (TierConfig.fastestTierCache_configured hfast) .refl ?skip ?place predicted hgood
  case skip => exact fun key rest s s' _ hrest => hrest.mono fun k => List.mem_cons_of_mem key
  case place =>
    intro key rest it s hgood h _ _
    refine (placeLocked_uses hslowest hgood hfast it.entry.tenantId
      fun huniform => huniform key it h).mono fun r huses s' hrest => ?_
    have hhead : Uses config t size (· ∈ key :: rest) s r.2 := huses.mono fun k hk => by
      rw [hk, (hgood.inv.keyed h).2]
      exact List.mem_cons_self
    exact hhead.trans (hrest.mono fun k => List.mem_cons_of_mem key)

/-- The keys that a call names. -/
def namedKeys : Op → List BlockKey
  | .write block _ _ => [block.key]
  | .read key => [key]
  | .prefetch predicted => predicted
  | .enforceCapacity _ => []

/-- A write goes to the fastest tier. -/
def EntersFastest (config : TierConfig D) : Op → Prop
  | .write _ target _ => config.resolveConfiguredTier target = config.fastestTierCache
  | _ => True

theorem Slowest.exists_fast (h : Slowest config t size) :
    ∃ fast, config.fastestTierCache = some fast :=
  TierConfig.exists_fastestTierCache h.configured

theorem runOp_uses {op : Op} (hslowest : Slowest config t size) (hgood : Good config s)
    (hsize : Writes size op) (henters : EntersFastest config op) :
    Returns (runOp .lazy config op s) fun r => Uses config t size (· ∈ namedKeys op) s r.2 := by
  obtain ⟨fast, hfast⟩ := hslowest.exists_fast
  cases op with
  | write block target tenantId =>
    refine Returns.bind (P := fun r => Uses config t size _ s r.2) ?_ fun r h => returns_ok h
    rw [write, show config.resolveConfiguredTier target = _ from henters, hfast]
    exact (placeLocked_uses hslowest hgood hfast tenantId fun _ => hsize).mono fun r h =>
      h.mono fun k hk => List.mem_singleton.mpr hk
  | read key =>
    exact (read_uses hslowest hgood key).bind fun r h =>
      returns_ok (h.mono fun k hk => List.mem_singleton.mpr hk)
  | prefetch predicted =>
    refine Returns.bind (P := fun r => Uses config t size _ s r.2) ?_ fun r h => returns_ok h
    rw [prefetch, show config.resolveConfiguredTier .hbm = _ from hfast]
    exact prefetchKeys_uses hslowest hfast predicted hgood
  | enforceCapacity u => exact ⟨_, runOp_enforceCapacity hgood u, .refl s⟩

theorem runOps_uses {ops : List Op} (hslowest : Slowest config t size)
    (hops : ∀ op ∈ ops, Writes size op ∧ EntersFastest config op) (hgood : Good config s) :
    Returns (runOps .lazy config ops s) fun r =>
      Good config r.2 ∧ Uses config t size (· ∈ ops.flatMap namedKeys) s r.2 := by
  induction ops generalizing s with
  | nil => exact returns_ok ⟨hgood, .refl s⟩
  | cons op ops ih =>
    obtain ⟨⟨hsize, henters⟩, hrest⟩ := List.forall_mem_cons.mp hops
    have hstep := (runOp_uses hslowest hgood hsize henters).and (runOp_returns hgood op)
    refine hstep.bind fun r hr => (ih hrest hr.2.2).bind fun r' hr' => returns_ok ?_
    refine ⟨hr'.1, ?_⟩
    rw [List.flatMap_cons]
    exact (hr.1.mono fun k => List.mem_append_left _).trans
      (hr'.2.mono fun k => List.mem_append_right _)

/-! ## Runs -/

omit [DoubleArith D] in
/-- The keys of a tier can be put in the order of their time stamps. -/
theorem exists_inOrder (hinv : RepInv config s) (t : Tier) : ∃ keys, InOrder t s keys := by
  let stamp : BlockKey → Nat := fun k =>
    (s.blocks.lookup k).elim 0 fun it => it.entry.stats.lastAccessTs
  have hstamp {k : BlockKey} {it : StoredBlock} (hk : s.blocks.lookup k = some it) :
      stamp k = it.entry.stats.lastAccessTs := by
    simp only [stamp, hk, Option.elim_some]
  let inTier : List BlockKey := s.blocks.keys.filter fun k =>
    (s.blocks.lookup k).any fun it => it.entry.tier = t
  have hmem (k : BlockKey) : k ∈ inTier ↔ ∃ it, s.blocks.lookup k = some it ∧ it.entry.tier = t := by
    rw [List.mem_filter, ← AList.mem_keys, ← AList.lookup_isSome]
    cases s.blocks.lookup k <;> simp
  let keys := inTier.mergeSort fun k k' => stamp k ≤ stamp k'
  have hkeys (k : BlockKey) : k ∈ keys ↔ ∃ it, s.blocks.lookup k = some it ∧ it.entry.tier = t :=
    List.mem_mergeSort.trans (hmem k)
  have hnodup : keys.Nodup :=
    (List.mergeSort_perm _ _).nodup_iff.mpr ((AList.nodupKeys _).filter _)
  have hsorted : keys.Pairwise fun k k' => stamp k ≤ stamp k' := by
    have hdecided : keys.Pairwise fun k k' => decide (stamp k ≤ stamp k') = true := by
      refine List.pairwise_mergeSort ?_ ?_ inTier
      · intro a b c hab hbc
        exact decide_eq_true ((of_decide_eq_true hab).trans (of_decide_eq_true hbc))
      · intro a b
        rcases Nat.le_total (stamp a) (stamp b) with h | h <;> simp [h]
    exact hdecided.imp fun h => of_decide_eq_true h
  refine ⟨keys, hkeys, (hsorted.and hnodup).imp fun ⟨hle, hne⟩ it it' hk hk' => ?_⟩
  rw [hstamp hk, hstamp hk'] at hle
  exact Nat.lt_of_le_of_ne hle fun heq => hne (hinv.stampInj hk hk' heq)

/-- A call that writes the key to the fastest tier or reads it. -/
inductive UsesKey (config : TierConfig D) (size : Nat) (key : BlockKey) : Op → Prop
  | write {block : KVCacheBlock} {target : Tier} {tenantId : UInt32} (hkey : block.key = key)
      (hsize : blockSizeBytes block = size)
      (henters : config.resolveConfiguredTier target = config.fastestTierCache) :
      UsesKey config size key (.write block target tenantId)
  | read : UsesKey config size key (.read key)

theorem InOrder.mem_residents (h : InOrder t s keys) (hkey : key ∈ upper keys s ∨ key ∈ keys) :
    key ∈ residents s := by
  rcases hkey with hupper | hlower
  · exact (mem_upper.mp hupper).1
  · obtain ⟨it, hit, -⟩ := (h.mem key).mp hlower
    exact mem_residents_of_lookup hit

theorem runOp_stays {op : Op} (since : Finset BlockKey) (hslowest : Slowest config t size)
    (hgood : Good config s) (huniform : Uniform size s) (huse : UsesKey config size key op)
    (hslots : 0 < slotsOf config t size) (hread : op = .read key → key ∈ residents s) :
    Returns (runOp .lazy config op s) fun r => key ∈ residents r.2 ∧ Uniform size r.2 ∧
      ∃ keys, InOrder t r.2 keys ∧ Stays key since (upper keys r.2) keys := by
  obtain ⟨keys, horder⟩ := exists_inOrder hgood.inv t
  obtain ⟨fast, hfast⟩ := hslowest.exists_fast
  have hcomes {s' : State} (h : ∃ keys', InOrder t s' keys' ∧
      Lifted (slotsOf config t size) key (upper keys s) keys (upper keys' s') keys') :
      key ∈ residents s' ∧ ∃ keys', InOrder t s' keys' ∧ Stays key since (upper keys' s') keys' := by
    obtain ⟨keys', horder', hlift⟩ := h
    have hstays : Stays key since (upper keys' s') keys' :=
      hlift.stays hslots (Finset.mem_insert_self _ _)
    exact ⟨horder'.mem_residents hstays.mem, keys', horder', hstays⟩
  cases huse with
  | @write block target tenantId hkey hsize henters =>
    refine Returns.bind (P := fun r => key ∈ residents r.2 ∧ Uniform size r.2 ∧
      ∃ keys', InOrder t r.2 keys' ∧ Stays key since (upper keys' r.2) keys') ?_
      fun r h => returns_ok h
    rw [write, henters, hfast]
    obtain ⟨r, hr, huses⟩ := placeLocked_uses hslowest hgood hfast tenantId fun _ => hsize
    have hlift := (placeLocked_lifts hslowest hgood huniform hfast hsize tenantId horder).of_eq hr
    rw [hkey] at hlift
    obtain ⟨hresident, hstay⟩ := hcomes hlift
    exact ⟨r, hr, hresident, (huses huniform).1, hstay⟩
  | read =>
    refine Returns.bind (P := fun r => key ∈ residents r.2 ∧ Uniform size r.2 ∧
      ∃ keys', InOrder t r.2 keys' ∧ Stays key since (upper keys' r.2) keys') ?_
      fun r h => returns_ok h
    obtain ⟨r, hr, huses⟩ := read_uses hslowest hgood key
    obtain ⟨hresident, hstay⟩ :=
      hcomes ((read_lifts hslowest hgood huniform (hread rfl) horder).of_eq hr)
    exact ⟨r, hr, hresident, (huses huniform).1, hstay⟩

/-- With blocks of one size, the read of a resident block does not fail. -/
theorem read_ok (hfits : FitsAll config size) (hgood : Good config s) (huniform : Uniform size s)
    (hkey : key ∈ residents s) :
    Returns (read .lazy config key s) fun r => ∃ block, r.1 = .ok block := by
  obtain ⟨r, hr, houtcome, -⟩ := read_returns .lazy hgood key
  have hsame := (read_residents hfits hgood huniform key).of_eq hr
  refine ⟨r, hr, ?_⟩
  obtain ⟨it, hit⟩ := mem_residents.mp hkey
  cases houtcome with
  | miss h => cases h.symm.trans hit
  | hit => exact ⟨_, rfl⟩
  | stay => exact ⟨_, rfl⟩
  | promoted => exact ⟨_, rfl⟩
  | lost _ _ _ _ _ _ h' =>
    obtain ⟨it', hit'⟩ := mem_residents.mp (hsame ▸ hkey)
    cases h'.symm.trans hit'

theorem locate_hit_iff : (locate key s).hit = true ↔ key ∈ residents s := by
  rw [locate_hit, Option.isSome_iff_exists, mem_residents]

end

/-- **How long a block is kept.** In a run without tenant quotas and with blocks of one size that
fits every configured tier, a block that is written to the fastest tier, or read where it is located,
is located then, and is found by a read as long as the calls since, whose writes go to the fastest
tier, name fewer other keys than the slowest tier has room for. -/
theorem runOps_keeps {D : Type} [DoubleArith D] (config : TierConfig D)
    (hquota : config.quotaEnabledLocked = false) {size : Nat} (hsize : 0 < size)
    (hfits : FitsAll config size) {t : Tier} (ht : config.configured t = true) (hslow : config.fastestTierCache ≠ some t)
    (hlast : config.nextSlowerConfigured t = none) (ops : List Op)
    (hops : ∀ op ∈ ops, Writes size op) (key : BlockKey) (op : Op)
    (huse : UsesKey config size key op) (since : List Op)
    (hsince : ∀ op ∈ since, Writes size op ∧ EntersFastest config op)
    (hfew : ((since.flatMap namedKeys).toFinset.erase key).card <
      config.evictionThresholdOf t / size) :
    Returns (runOps .lazy config ops State.fresh) fun r =>
      (op = .read key → (locate key r.2).hit = true) →
        Returns (runOp .lazy config op r.2) fun r₁ => (locate key r₁.2).hit = true ∧
          Returns (runOps .lazy config since r₁.2) fun r₂ => (locate key r₂.2).hit = true ∧
            Returns (read .lazy config key r₂.2) fun r₃ => ∃ block, r₃.1 = .ok block := by
  have hslowest : Slowest config t size :=
    { quota := hquota, configured := ht, slow := hslow, last := hlast, size_pos := hsize,
      fits := hfits }
  refine (runOps_uniform hops).mono fun r ⟨hgood, huniform⟩ hread => ?_
  obtain ⟨r₁, hr₁, hkey, huniform₁, keys, horder, hstay⟩ := runOp_stays (t := t)
    ((since.flatMap namedKeys).toFinset.erase key) hslowest hgood huniform huse
    (Nat.zero_lt_of_lt hfew) fun hop => locate_hit_iff.mp (hread hop)
  have hgood₁ := ((runOp_returns hgood op).of_eq hr₁).2
  refine ⟨r₁, hr₁, locate_hit_iff.mpr hkey, ?_⟩
  refine (runOps_uses hslowest hsince hgood₁).mono fun r₂ ⟨hgood₂, huses⟩ => ?_
  obtain ⟨huniform₂, hlifts⟩ := huses huniform₁
  obtain ⟨keys', horder', hlift⟩ := hlifts keys horder
  have hnamed : ∀ k ∈ since.flatMap namedKeys,
      k = key ∨ k ∈ (since.flatMap namedKeys).toFinset.erase key := by
    intro k hk
    by_cases heq : k = key
    · exact .inl heq
    · exact .inr (Finset.mem_erase.mpr ⟨heq, List.mem_toFinset.mpr hk⟩)
  have hend := (hstay.lifts hlift (horder.parts hslowest hgood₁ huniform₁) hnamed hfew).2
  have hresident : key ∈ residents r₂.2 := horder'.mem_residents hend.mem
  exact ⟨locate_hit_iff.mpr hresident, read_ok hslowest.fits hgood₂ huniform₂ hresident⟩

/-- One block in the fastest tier, two in the other one. -/
theorem runOps_keeps_oneFastBlock :
    Returns (runOps .lazy oneFastBlock [.write (plainBlock 1 4) .hbm 0] State.fresh) fun r =>
      (Op.read (plainKey 1) = .read (plainKey 1) → (locate (plainKey 1) r.2).hit = true) →
        Returns (runOp .lazy oneFastBlock (.read (plainKey 1)) r.2) fun r₁ =>
          (locate (plainKey 1) r₁.2).hit = true ∧
          Returns (runOps .lazy oneFastBlock
              [.write (plainBlock 2 4) .hbm 0, .read (plainKey 2)] r₁.2) fun r₂ =>
            (locate (plainKey 1) r₂.2).hit = true ∧
              Returns (read .lazy oneFastBlock (plainKey 1) r₂.2) fun r₃ =>
                ∃ block, r₃.1 = .ok block := by
  refine runOps_keeps oneFastBlock rfl (by decide : 0 < 4) (fitsAll_rat ?_) (t := .dram) rfl
    (by decide) rfl _ ?_ (plainKey 1) _ .read _ ?_ (by decide +kernel)
  · intro t
    cases t <;> decide +kernel
  · simp only [List.mem_singleton]
    rintro op rfl
    rfl
  · simp only [List.mem_cons, List.not_mem_nil, or_false]
    rintro op (rfl | rfl)
    · exact ⟨rfl, rfl⟩
    · exact ⟨trivial, trivial⟩

end TieredKVCache.Storage
