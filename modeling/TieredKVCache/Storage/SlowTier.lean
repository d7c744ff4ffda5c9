import TieredKVCache.Storage.Cascade
import TieredKVCache.Storage.TierLog

/-!
# A slower tier is an LRU cache

Without tenant quotas the victim of a slower tier is its block with the oldest time stamp, and a
block that enters the tier or is read there gets the newest one. Where all blocks have one size
and the tier has room for a number of them, its events (`logOps`) can be replayed on an
`LRUPolicy` of this capacity: after every event the policy holds the keys of the tier in the order
of their time stamps, and it has evicted the same victims (`runOps_lru`).
-/

namespace TieredKVCache.Storage

open Lib Relation Bench

/-- The keys of a tier, in the order of their time stamps. -/
structure InOrder (t : Tier) (s : State) (keys : List BlockKey) : Prop where
  mem : ∀ k, k ∈ keys ↔ ∃ it, s.blocks.lookup k = some it ∧ it.entry.tier = t
  sorted : keys.Pairwise fun k k' => ∀ it it', s.blocks.lookup k = some it →
    s.blocks.lookup k' = some it' → it.entry.stats.lastAccessTs < it'.entry.stats.lastAccessTs

section

variable {t : Tier} {s s' : State} {keys keys' : List BlockKey} {key : BlockKey} {it : StoredBlock}

theorem inOrder_fresh (t : Tier) : InOrder t State.fresh [] where
  mem k := by simp [State.fresh]
  sorted := .nil

theorem InOrder.nodup (h : InOrder t s keys) : keys.Nodup := by
  refine h.sorted.imp_of_mem fun hk _ hlt => ?_
  rintro rfl
  obtain ⟨it, hit, -⟩ := (h.mem _).mp hk
  exact Nat.lt_irrefl _ (hlt it it hit hit)

/-- The bytes of the tier. -/
theorem InOrder.usedBytes {D : Type} {config : TierConfig D} {size : Nat} (h : InOrder t s keys)
    (hinv : RepInv config s) (huniform : Uniform size s) : s.usedBytes t = keys.length * size := by
  rw [hinv.used t]
  exact bytesOf_eq_length_mul h.nodup h.mem fun k it hit _ =>
    (hinv.sized hit).trans (huniform k it hit)

/-- Some of the keys are in the tier still, with their time stamps, and no others. -/
theorem InOrder.restrict (h : InOrder t s keys) (hsub : keys'.Sublist keys)
    (hlookup : ∀ k it, it.entry.tier = t →
      (s'.blocks.lookup k = some it ↔ k ∈ keys' ∧ s.blocks.lookup k = some it)) :
    InOrder t s' keys' := by
  have hkept {k : BlockKey} (hk : k ∈ keys') :
      ∃ it, s.blocks.lookup k = some it ∧ s'.blocks.lookup k = some it ∧ it.entry.tier = t := by
    obtain ⟨it, hit, ht⟩ := (h.mem k).mp (hsub.subset hk)
    exact ⟨it, hit, (hlookup k it ht).mpr ⟨hk, hit⟩, ht⟩
  constructor
  · intro k
    constructor
    · intro hk
      obtain ⟨it, -, hit, ht⟩ := hkept hk
      exact ⟨it, hit, ht⟩
    · rintro ⟨it, hit, ht⟩
      exact ((hlookup k it ht).mp hit).1
  · refine (h.sorted.sublist hsub).imp_of_mem fun hk hk' hlt it it' hit hit' => ?_
    obtain ⟨it₀, hit₀, hnew, -⟩ := hkept hk
    obtain ⟨it₀', hit₀', hnew', -⟩ := hkept hk'
    cases hit.symm.trans hnew
    cases hit'.symm.trans hnew'
    exact hlt it it' hit₀ hit₀'

theorem InOrder.sameIn (h : InOrder t s keys) (hsame : SameIn t s s') : InOrder t s' keys := by
  refine h.restrict (.refl _) fun k it ht => ?_
  rw [← hsame k it ht]
  exact ⟨fun hit => ⟨(h.mem k).mpr ⟨it, hit, ht⟩, hit⟩, And.right⟩

theorem InOrder.erase (h : InOrder t s keys) (hlookup : ∀ k it, it.entry.tier = t →
    (s'.blocks.lookup k = some it ↔ (s.blocks.erase key).lookup k = some it)) :
    InOrder t s' (keys.erase key) := by
  refine h.restrict List.erase_sublist fun k it ht => ?_
  rw [hlookup k it ht, lookup_erase_eq_some, h.nodup.mem_erase_iff]
  exact ⟨fun hit => ⟨⟨hit.1, (h.mem k).mpr ⟨it, hit.2, ht⟩⟩, hit.2⟩, fun hit => ⟨hit.1.1, hit.2⟩⟩

/-- A block enters the tier with the newest time stamp. -/
theorem InOrder.append (h : InOrder t s keys) (hkey : key ∉ keys)
    (hblocks : s'.blocks = s.blocks.insert key it) (ht : it.entry.tier = t)
    (hnew : ∀ k it', s.blocks.lookup k = some it' →
      it'.entry.stats.lastAccessTs < it.entry.stats.lastAccessTs) :
    InOrder t s' (keys ++ [key]) := by
  have hold {k : BlockKey} (hk : k ∈ keys) : s'.blocks.lookup k = s.blocks.lookup k := by
    rw [hblocks]
    exact AList.lookup_insert_ne fun heq => hkey (heq ▸ hk)
  have hself : s'.blocks.lookup key = some it := by
    rw [hblocks]
    exact AList.lookup_insert _
  constructor
  · intro k
    rw [List.mem_append, List.mem_singleton, h.mem]
    by_cases heq : k = key
    · subst heq
      exact ⟨fun _ => ⟨it, hself, ht⟩, fun _ => .inr rfl⟩
    · rw [hblocks, AList.lookup_insert_ne heq]
      exact ⟨fun hk => hk.resolve_right heq, .inl⟩
  · refine List.pairwise_append.mpr ⟨?_, List.pairwise_singleton _ _, ?_⟩
    · refine h.sorted.imp_of_mem fun hk hk' hlt => ?_
      rw [hold hk, hold hk']
      exact hlt
    · intro k hk k' hk' it₀ it₁ hit₀ hit₁
      rw [List.mem_singleton] at hk'
      subst hk'
      cases hself.symm.trans hit₁
      rw [hold hk] at hit₀
      exact hnew k it₀ hit₀

/-- The same for a block that may be in the tier already. -/
theorem InOrder.insert (h : InOrder t s keys) (hblocks : s'.blocks = s.blocks.insert key it)
    (ht : it.entry.tier = t) (hnew : ∀ k it', s.blocks.lookup k = some it' →
      it'.entry.stats.lastAccessTs < it.entry.stats.lastAccessTs) :
    InOrder t s' (keys.erase key ++ [key]) := by
  have herased : InOrder t { s with blocks := s.blocks.erase key } (keys.erase key) :=
    h.erase fun _ _ _ => .rfl
  refine herased.append (by simp [h.nodup.mem_erase_iff]) ?_ ht ?_
  · rw [hblocks]
    exact (insert_erase s.blocks key it).symm
  · exact fun k it' hk => hnew k it' (lookup_erase_eq_some.mp hk).2

/-- A block enters another tier. -/
theorem sameIn_enter (hblocks : s'.blocks = s.blocks.insert key it)
    (habsent : s.blocks.lookup key = none) (ht : it.entry.tier ≠ t) : SameIn t s s' := by
  intro k it' ht'
  rw [hblocks, lookup_insert_eq_some]
  constructor
  · intro hk
    refine .inr ⟨?_, hk⟩
    rintro rfl
    cases habsent.symm.trans hk
  · rintro (⟨-, rfl⟩ | ⟨-, hk⟩)
    · exact absurd ht' ht
    · exact hk

/-- The scan of the fastest tier leaves the tier alone. -/
theorem Scans.sameIn {D : Type} [DoubleArith D] {config : TierConfig D} {u : Tier}
    (h : Scans config u s s')
    (hslow : config.fastestTierCache ≠ some t) : SameIn t s s' := by
  induction h with
  | refl => exact .refl t s
  | tail _ hlast ih => exact ih.trans (hlast.2.sameIn hslow)

end

/-- The tier has room for a number of blocks of one size. It is not the fastest one, and there
are no tenant quotas. -/
structure Slots {D : Type} [DoubleArith D] (config : TierConfig D) (t : Tier)
    (size capacity : Nat) : Prop where
  quota : config.quotaEnabledLocked = false
  slow : config.fastestTierCache ≠ some t
  size_pos : 0 < size
  threshold : config.evictionThresholdOf t = capacity * size

section

variable {D : Type} [DoubleArith D] {config : TierConfig D} {t u : Tier} {s s' a b : State}
  {keys : List BlockKey} {size capacity depth : Nat} {v : Victim}

/-! ## Evictions from the tier -/

/-- Without quotas the victim of a slower tier is its first block. -/
theorem InOrder.victim (h : InOrder t a keys) (hquota : config.quotaEnabledLocked = false)
    (hslow : config.fastestTierCache ≠ some t) (hround : RoundInv config t a)
    (hvictim : roundVictim config t a = some v) : v.state = a ∧ ∃ rest, keys = v.key :: rest := by
  have hocc := hround.inv.occupied (roundVictim_over hvictim)
  obtain ⟨key, it, hpick, hit, ht, hold⟩ := pickVictimLocked_spec hslow hround.inv hocc
  obtain ⟨hstate, hkey⟩ : v.state = a ∧ v.key = key := by
    have hchoose := (roundVictim_chosen hvictim).1
    simp only [chooseVictim, hquota, hslow, hpick] at hchoose
    cases hchoose
    exact ⟨rfl, rfl⟩
  refine ⟨hstate, ?_⟩
  rw [hkey]
  have hmem : key ∈ keys := (h.mem key).mpr ⟨it, hit, ht⟩
  cases keys with
  | nil => cases hmem
  | cons first rest =>
    refine ⟨rest, ?_⟩
    rcases List.mem_cons.mp hmem with rfl | hrest
    · rfl
    · -- The first block would be older than the oldest one.
      obtain ⟨it', hit', ht'⟩ := (h.mem first).mp List.mem_cons_self
      have hlt := (List.pairwise_cons.mp h.sorted).1 key hrest it' it hit' hit
      exact absurd hlt (Nat.not_lt.mpr (hold hit' ht'))

theorem InOrder.evicted (h : InOrder t a keys) (hquota : config.quotaEnabledLocked = false)
    (hslow : config.fastestTierCache ≠ some t) (hround : RoundInv config t a)
    (hvictim : roundVictim config t a = some v) (hevict : EvictRound config depth t a v s')
    (hdepth : 3 ≤ depth + 1 + t.toNat) : ∃ rest, keys = v.key :: rest ∧ InOrder t s' rest := by
  obtain ⟨hstate, rest, rfl⟩ := h.victim hquota hslow hround hvictim
  have hev := hround.evicts_of_victim hvictim
  have hleft : InOrder t (Storage.evicted .lazy config t v.key v.it v.state) rest := by
    have herased : InOrder t (Storage.evicted .lazy config t v.key v.it v.state)
        ((v.key :: rest).erase v.key) := by
      refine h.erase fun k it ht => ?_
      rw [← hstate]
      exact evicted_lookup_iff hev.keyed hev.placed ht
    rwa [List.erase_cons_head] at herased
  refine ⟨rest, rfl, ?_⟩
  cases hevict with
  | dropped hcall => exact hleft
  | demoted hcall henforce =>
    obtain ⟨hb, hlt⟩ := hround.nested hcall
    have hsteps := ((enforceWithin_returns (by omega) hb.inv hb.slower).of_eq henforce).2.1
    exact hleft.sameIn (hsteps.sameIn hb.inv hlt)

theorem roundsWithin_tier (depth : Nat) (u : Tier) (s : State) :
    ∀ round ∈ roundsWithin config depth u s, u.toNat ≤ round.1.toNat := by
  induction depth generalizing u s with
  | zero => simp [roundsWithin]
  | succ depth ih =>
    refine forall_mem_collect (I := fun _ => True) (fun a _ => ⟨?_, fun _ _ => trivial⟩) trivial
    intro round hround
    rcases List.mem_cons.mp hround with rfl | hround
    · exact Nat.le_refl _
    · split at hround
      next slower b hcall =>
        obtain ⟨-, -, hnext, -⟩ := nestedCall_eq_some hcall
        exact (TierConfig.nextSlowerConfigured_lt hnext).le.trans (ih slower b round hround)
      next => cases hround

/-- A call for a slower tier evicts nothing from the tier. -/
theorem victimsOf_roundsWithin (hlt : t.toNat < u.toNat) :
    victimsOf config t (roundsWithin config depth u s) = [] := by
  refine List.filterMap_eq_nil_iff.mpr fun round hround => if_neg ?_
  rintro rfl
  exact absurd (roundsWithin_tier depth u s round hround) (Nat.not_le_of_lt hlt)

/-- Enforcement evicts the oldest blocks down to the capacity. -/
theorem enforceWithin_oldest (hslots : Slots config t size capacity) (hdepth : 3 ≤ depth + t.toNat)
    (hround : RoundInv config t s) (huniform : Uniform size s) (h : InOrder t s keys) :
    Returns (enforceWithin .lazy config depth t s) fun r =>
      victimsOf config t (roundsWithin config depth t s) = keys.take (keys.length - capacity) ∧
        InOrder t r.2 (keys.drop (keys.length - capacity)) := by
  cases depth with
  | zero =>
    have hlt := t.toNat_lt
    omega
  | succ depth =>
    refine iterate_collect
      (I := fun rounds a => EnforceInv .lazy config t s a ∧ ∃ rest,
        keys = victimsOf config t rounds ++ rest ∧ InOrder t a rest ∧
          (victimsOf config t rounds = [] ∨ capacity ≤ rest.length))
      (Q := fun rounds (r : Status × State) =>
        victimsOf config t rounds = keys.take (keys.length - capacity) ∧
          InOrder t r.2 (keys.drop (keys.length - capacity)))
      (residentCount t) ?_ ⟨hround.enforceInv, keys, rfl, h, .inl rfl⟩ (Nat.lt_succ_self _)
    intro rounds a ⟨ha, rest, hkeys, hrest, hlength⟩
    have hused : a.usedBytes t = rest.length * size :=
      hrest.usedBytes ha.inv (huniform.of_sub (ha.steps.contents_sub hround.inv))
    cases ha.round depth (by omega) with
    | ends hle hbody =>
      have hnone : roundVictim config t a = none := roundVictim_of_within hle
      rw [hused, hslots.threshold] at hle
      have hshort : rest.length ≤ capacity := Nat.le_of_mul_le_mul_right hle hslots.size_pos
      refine .inr ⟨_, hbody, ?_⟩
      have hlast : victimsOf config t [(t, a)] = [] := by simp [victimsOf, hnone]
      have hcount : keys.length - capacity = (victimsOf config t rounds).length := by
        rw [hkeys, List.length_append]
        rcases hlength with hnil | hlong
        · rw [hnil, List.length_nil]
          omega
        · omega
      rw [nestedCall_of_none hnone, victimsOf_append, hlast, List.append_nil, hcount, hkeys,
        List.take_left, List.drop_left]
      exact ⟨rfl, hrest⟩
    | @evicts v a' hvictim hevict hbody ha' hcount =>
      have hover := roundVictim_over hvictim
      rw [hused, hslots.threshold] at hover
      have hlong : capacity < rest.length := Nat.lt_of_mul_lt_mul_right hover
      obtain ⟨rest', rfl, hrest'⟩ :=
        hrest.evicted hslots.quota hslots.slow ha.roundInv hvictim hevict (by omega)
      refine .inl ⟨a', hbody, ⟨ha', rest', ?_, hrest', .inr (Nat.le_of_lt_succ hlong)⟩, hcount⟩
      rw [hkeys, victimsOf_append, victimsOf_cons_self hvictim]
      cases hcall : nestedCall config t a with
      | none => simp [victimsOf]
      | some call =>
        have hnested : victimsOf config t (roundsWithin config depth call.1 call.2) = [] :=
          victimsOf_roundsWithin (ha.roundInv.nested hcall).2
        rw [hnested, List.append_assoc, List.singleton_append]

/-! ## Evictions from other tiers -/

theorem RoundInv.sameIn_state (h : RoundInv config u a) (hvictim : roundVictim config u a = some v)
    (hslow : config.fastestTierCache ≠ some t) : SameIn t a v.state := by
  obtain ⟨s₁, hscans, hpick, -⟩ := h.picked hvictim
  refine (hscans.sameIn hslow).trans fun k it _ => ?_
  rw [hpick.blocks]

/-- A victim of another tier that is not demoted into this one. -/
theorem RoundInv.sameIn_left (h : RoundInv config u a) (hvictim : roundVictim config u a = some v)
    (hslow : config.fastestTierCache ≠ some t) (hne : t ≠ u)
    (hcall : ∀ b, nestedCall config u a ≠ some (t, b)) :
    SameIn t a (evicted .lazy config u v.key v.it v.state) := by
  have hev := h.evicts_of_victim hvictim
  obtain ⟨-, -, -, ht, -⟩ := h.picked hvictim
  refine (h.sameIn_state hvictim hslow).trans
    (evicted_sameIn .lazy hev.found ht hev.keyed hev.placed hne ?_)
  rintro slower hnext hfits rfl
  have hdemoted : nestedCall config u a =
      some (t, demoteLocked config t v.it (removeLocked config .lazy v.key v.state)) := by
    unfold nestedCall
    rw [hvictim, hnext]
    exact if_pos hfits
  exact hcall _ hdemoted

/-! ## Replaying the events -/

/-- What a record and the policy after its event agree on. -/
def Agrees (t : Tier) (record : TierRecord) (out : List BlockKey × LRUPolicy BlockKey) : Prop :=
  out.1 = record.victims ∧ InOrder t record.after out.2.store.toList

/-- Replayed on a policy that holds the keys of the tier, the events lead to one that does. -/
def Follows (t : Tier) (capacity : Nat) (log : List TierRecord) (s s' : State) : Prop :=
  ∀ p : LRUPolicy BlockKey, p.capacity = capacity → InOrder t s p.store.toList →
    List.Forall₂ (Agrees t) log (p.replay (log.map TierRecord.event)) ∧
      InOrder t s' (p.replayed (log.map TierRecord.event)).store.toList

theorem Follows.of_sameIn (h : SameIn t s s') : Follows t capacity [] s s' :=
  fun _ _ hp => ⟨.nil, hp.sameIn h⟩

theorem Follows.trans {log log' : List TierRecord} (h : Follows t capacity log s a)
    (h' : Follows t capacity log' a s') : Follows t capacity (log ++ log') s s' := by
  intro p hcapacity hp
  obtain ⟨hlog, ha⟩ := h p hcapacity hp
  obtain ⟨hlog', hs'⟩ := h' _ ((LRUPolicy.capacity_replayed _ p).trans hcapacity) ha
  rw [List.map_append, LRUPolicy.replay_append, LRUPolicy.replayed_append]
  exact ⟨List.rel_append hlog hlog', hs'⟩

theorem Follows.single {record : TierRecord} (h : ∀ p : LRUPolicy BlockKey, p.capacity = capacity →
    InOrder t s p.store.toList → Agrees t record (p.apply record.event)) :
    Follows t capacity [record] s record.after := by
  intro p hcapacity hp
  have hagrees := h p hcapacity hp
  exact ⟨.cons hagrees .nil, hagrees.2⟩

theorem departure_follows {key : BlockKey} (hlookup : ∀ k it, it.entry.tier = t →
    (s'.blocks.lookup k = some it ↔ (s.blocks.erase key).lookup k = some it)) :
    Follows t capacity (departure t key s s') s s' := by
  have hsame (h : ∀ it, s.blocks.lookup key = some it → it.entry.tier ≠ t) : SameIn t s s' := by
    intro k it ht
    rw [hlookup k it ht, lookup_erase_eq_some, iff_and_self]
    rintro hk rfl
    exact h it hk ht
  unfold departure
  cases h : s.blocks.lookup key with
  | none => exact .of_sameIn (hsame (by simp [h]))
  | some it =>
    dsimp only
    split
    next ht => exact .single fun p _ hp => ⟨rfl, hp.erase hlookup⟩
    next ht => exact .of_sameIn (hsame (by simp [h, ht]))

/-- A block enters the tier with the newest time stamp, and enforcement follows. -/
theorem admission_follows {key : BlockKey} {it : StoredBlock}
    (hslots : Slots config t size capacity) (hdepth : 3 ≤ depth + t.toNat)
    (hround : RoundInv config t b) (huniform : Uniform size b)
    (hblocks : b.blocks = s.blocks.insert key it) (ht : it.entry.tier = t)
    (hnew : ∀ k it', s.blocks.lookup k = some it' →
      it'.entry.stats.lastAccessTs < it.entry.stats.lastAccessTs) :
    Returns (enforceWithin .lazy config depth t b) fun r =>
      Follows t capacity [admission config t depth key b] s r.2 := by
  have hreturns : Returns (enforceWithin .lazy config depth t b) (Enforced .lazy config t b) :=
    enforceWithin_returns hdepth hround.inv hround.slower
  obtain ⟨r, hr, -⟩ := hreturns
  refine ⟨r, hr, ?_⟩
  have hafter : (admission config t depth key b).after = r.2 := by
    unfold admission
    rw [hr]
  show Follows t capacity _ s r.2
  rw [← hafter]
  refine .single fun p hp horder => ?_
  obtain ⟨hvictims, hleft⟩ := (enforceWithin_oldest hslots hdepth hround huniform
    (horder.insert hblocks ht hnew)).of_eq hr
  obtain ⟨hpopped, hkept⟩ := p.admitKey_eq (k := key)
  rw [← hp] at hvictims hleft
  rw [← hafter, ← hkept] at hleft
  exact ⟨hpopped.trans hvictims.symm, hleft⟩

/-- Enforcement of another tier. -/
theorem logWithin_follows (hslots : Slots config t size capacity) (hne : u ≠ t)
    (hdepth : 3 ≤ depth + u.toNat) (h : RoundInv config u s) (huniform : Uniform size s) :
    Returns (enforceWithin .lazy config depth u s) fun r =>
      Follows t capacity (logWithin config t depth u s) s r.2 := by
  induction depth generalizing u s with
  | zero =>
    have hlt := u.toNat_lt
    omega
  | succ depth ih =>
    refine iterate_collect
      (I := fun log a => EnforceInv .lazy config u s a ∧ Follows t capacity log s a)
      (Q := fun log (r : Status × State) => Follows t capacity log s r.2) (residentCount u) ?_
      ⟨h.enforceInv, .of_sameIn (.refl t s)⟩ (Nat.lt_succ_self _)
    intro log a ⟨ha, hlog⟩
    have huniform' : Uniform size a := huniform.of_sub (ha.steps.contents_sub h.inv)
    have hround := ha.roundInv
    cases ha.round depth (by omega) with
    | ends hle hbody =>
      refine .inr ⟨_, hbody, ?_⟩
      rw [roundVictim_of_within hle]
      exact hlog.trans (.of_sameIn (.refl t a))
    | @evicts v a' hvictim hevict hbody ha' hcount =>
      refine .inl ⟨a', hbody, ⟨ha', hlog.trans ?_⟩, hcount⟩
      rw [hvictim]
      cases hevict with
      | dropped hcall =>
        rw [hcall]
        exact .of_sameIn (hround.sameIn_left hvictim hslots.slow (Ne.symm hne) (by simp [hcall]))
      | @demoted slower _ hcall henforce =>
        obtain ⟨hb, hlt⟩ := hround.nested hcall
        have hnested : 3 ≤ depth + slower.toNat := by omega
        have hev := hround.evicts_of_victim hvictim
        have hleft : Uniform size (evicted .lazy config u v.key v.it v.state) :=
          huniform'.of_sub (hev.steps.contents_sub ha.inv)
        rw [hcall]
        dsimp only
        by_cases hslower : slower = t
        · subst hslower
          obtain ⟨v', hvictim', hnext, hfits, -⟩ := nestedCall_eq_some hcall
          cases hvictim.symm.trans hvictim'
          have hblocks : (evicted .lazy config u v.key v.it v.state).blocks = _ :=
            evicted_blocks hev.keyed hev.placed
          rw [hnext] at hblocks
          obtain ⟨-, -, -, -, hinv⟩ := hround.picked hvictim
          have hadmitted := admission_follows hslots hnested hb hleft
            (hblocks.trans (if_pos hfits)) rfl fun k it hk => Nat.lt_succ_of_le (hinv.stampLe hk)
          rw [if_pos rfl]
          exact (Follows.of_sameIn (hround.sameIn_state hvictim hslots.slow)).trans
            (hadmitted.of_eq henforce)
        · have hsame := hround.sameIn_left hvictim hslots.slow (Ne.symm hne)
            (by simp [hcall, hslower])
          rw [if_neg hslower]
          exact (Follows.of_sameIn hsame).trans ((ih hslower hnested hb hleft).of_eq henforce)

/-! ## Calls -/

/-- The events of a part of a run, in a run with blocks of one size. -/
def Replays (t : Tier) (size capacity : Nat) (log : List TierRecord) (s s' : State) : Prop :=
  Uniform size s → Uniform size s' ∧ Follows t capacity log s s'

theorem composes_replays : Composes (Replays t size capacity) where
  refl s huniform := ⟨huniform, .of_sameIn (.refl t s)⟩
  trans h h' huniform :=
    ⟨(h' (h huniform).1).1, (h huniform).2.trans (h' (h huniform).1).2⟩

theorem placeLocked_replays {block : KVCacheBlock} (hslots : Slots config t size capacity)
    (hgood : Good config s) (hu : config.configured u = true) (tenantId : UInt32)
    (hsize : Uniform size s → blockSizeBytes block = size) :
    Returns (placeLocked .lazy config block u tenantId s) fun r =>
      Replays t size capacity (logPlace config t block u tenantId s) s r.2 := by
  obtain ⟨r, hr, hplaced⟩ := placeLocked_returns .lazy hgood hu block tenantId
  refine ⟨r, hr, fun huniform => ?_⟩
  have hadmit := admitLocked_blocks .lazy config block u tenantId s
  have hinv := hgood.roundInv_admitted hu block tenantId
  have hadmitted : Uniform size (admitLocked .lazy config block u tenantId s) :=
    huniform.insert hadmit (hsize huniform)
  cases hplaced with
  | refused hlarge =>
    rw [logPlace, if_pos hlarge]
    exact ⟨huniform, .of_sameIn (.refl t s)⟩
  | @placed s' hsmall hsteps _ =>
    refine ⟨hadmitted.of_sub (hsteps.contents_sub hinv.inv), ?_⟩
    have henforce : enforceWithin .lazy config 3 u (admitLocked .lazy config block u tenantId s) =
        .ok (.success, s') := (if_neg (Nat.not_lt.mpr hsmall)).symm.trans hr
    have hremoved : (removeLocked config .lazy block.key s).blocks = s.blocks.erase block.key :=
      removeLocked_blocks config .lazy block.key s
    rw [← insert_erase, ← hremoved] at hadmit
    rw [logPlace, if_neg (Nat.not_lt.mpr hsmall)]
    refine (departure_follows fun k it _ => by rw [hremoved]).trans ?_
    by_cases htier : u = t
    · subst htier
      rw [if_pos rfl]
      refine (admission_follows hslots (by omega) hinv hadmitted hadmit rfl ?_).of_eq henforce
      intro k it hk
      rw [hremoved] at hk
      exact Nat.lt_succ_of_le (hgood.inv.stampLe (lookup_erase_eq_some.mp hk).2)
    · have hsame : SameIn t (removeLocked config .lazy block.key s)
          (admitLocked .lazy config block u tenantId s) :=
        sameIn_enter hadmit (by rw [hremoved, AList.lookup_erase]) htier
      rw [if_neg htier]
      exact (Follows.of_sameIn hsame).trans
        ((logWithin_follows hslots htier (by omega) hinv hadmitted).of_eq henforce)

theorem read_replays (hslots : Slots config t size capacity) (hgood : Good config s)
    (key : BlockKey) :
    Returns (read .lazy config key s) fun r =>
      Replays t size capacity (logRead config t key s) s r.2 := by
  obtain ⟨r, hr, houtcome, -⟩ := read_returns .lazy hgood key
  refine ⟨r, hr, fun huniform => ⟨huniform.of_sub (houtcome.contents_sub hgood.inv), ?_⟩⟩
  refine (read_rule (Q := fun a => Follows t capacity (logRead config t key s) s a) .lazy hgood key
    ?miss ?hit ?stay ?promote).of_eq hr
  case miss =>
    intro h
    rw [logRead, h]
    exact .of_sameIn (.refl t s)
  case hit =>
    intro it h hfast
    have hne : it.entry.tier ≠ t := fun heq => hslots.slow (heq ▸ hfast)
    rw [logRead, h, hfast]
    dsimp only
    rw [if_pos rfl]
    exact .of_sameIn (sameIn_insert rfl h hne hne)
  case stay =>
    intro it fast h hfast hslow hlarge
    rw [logRead, h, hfast]
    dsimp only
    rw [if_neg hslow, if_neg (Nat.not_le_of_lt hlarge)]
    split
    next ht =>
      refine .single fun p _ hp => ⟨rfl, ?_⟩
      have hkey : key ∈ p.store := (hp.mem key).mpr ⟨it, h, ht⟩
      show InOrder t (touchedState config key it s) (p.touch key).store.toList
      rw [LRUPolicy.toList_touch hkey]
      exact hp.insert rfl ht fun k it' hk => Nat.lt_succ_of_le (hgood.inv.stampLe hk)
    next ht => exact .of_sameIn (sameIn_insert rfl h ht ht)
  case promote =>
    intro it fast h hfast hslow hsmall
    have hne : fast ≠ t := fun heq => hslots.slow (heq ▸ hfast)
    have hremoved : (removeLocked config .lazy key (touchedState config key it s)).blocks =
        s.blocks.erase key := (removeLocked_blocks config .lazy key _).trans (erase_insert _ _ _)
    have hpromoted : (promotedState .lazy config key it fast s).blocks = _ :=
      promotedState_blocks hfast key it s
    have huniform' := huniform.insert hpromoted (huniform key it h)
    rw [← insert_erase, ← hremoved] at hpromoted
    have hsame : SameIn t (removeLocked config .lazy key (touchedState config key it s))
        (promotedState .lazy config key it fast s) :=
      sameIn_enter hpromoted (by rw [hremoved, AList.lookup_erase]) hne
    rw [logRead, h, hfast]
    dsimp only
    rw [if_neg hslow, if_pos hsmall]
    apply (logWithin_follows hslots hne (by omega) (hgood.roundInv_promoted h hfast)
      huniform').mono
    intro r hfollows
    exact (departure_follows fun k it _ => by rw [hremoved]).trans
      ((Follows.of_sameIn hsame).trans hfollows)

theorem runOp_replays {op : Op} (hslots : Slots config t size capacity) (hgood : Good config s)
    (hop : Writes size op) :
    Returns (runOp .lazy config op s) fun r =>
      Replays t size capacity (logOp config t op s) s r.2 := by
  refine composes_replays.runOp op hgood ?write ?place (read_replays hslots hgood) ?enforce
  case write =>
    rintro block target tenantId u rfl hu
    exact placeLocked_replays hslots hgood hu tenantId fun _ => hop
  case place =>
    exact fun fast key it s hfast hgood h =>
      placeLocked_replays hslots hgood hfast it.entry.tenantId fun huniform => huniform key it h
  case enforce =>
    intro u huniform
    rw [(roundsWithin_good (t := t) hgood 3 u).2]
    exact ⟨huniform, .of_sameIn (.refl t s)⟩

theorem victims_of_agrees {log : List TierRecord} {outs : List (List BlockKey × LRUPolicy BlockKey)}
    (h : List.Forall₂ (Agrees t) log outs) :
    outs.flatMap Prod.fst = log.flatMap TierRecord.victims := by
  induction h with
  | nil => rfl
  | cons hhead _ ih => rw [List.flatMap_cons, List.flatMap_cons, hhead.1, ih]

end

/-! ## Runs -/

/-- **A slower tier is an LRU cache.** In a run without tenant quotas and with blocks of one size,
a tier that is not the fastest one, without a high-water mark and with room for `n` blocks, has the
keys of `LRUPolicy` with capacity `n` after each of its events, in the same order, and the same
victims. -/
theorem runOps_lru (config : TierConfig ℚ) (hquota : config.quotaEnabledLocked = false)
    (hratio : config.highWaterRatio = 1) {size n : Nat} (hsize : 0 < size) (hn : 1 ≤ n) {t : Tier}
    (hslow : config.fastestTierCache ≠ some t) (hcapacity : config.capacityOf t = n * size)
    (ops : List Op) (hops : ∀ op ∈ ops, Writes size op) :
    Returns (LRUPolicy.new n) fun p => Returns (runOps .lazy config ops State.fresh) fun r =>
      let log := logOps config t ops State.fresh
      List.Forall₂ (Agrees t) log (p.replay (log.map TierRecord.event)) ∧
        InOrder t r.2 (p.replayed (log.map TierRecord.event)).store.toList ∧
          (p.replay (log.map TierRecord.event)).flatMap Prod.fst =
            victimsOf config t (roundsOps config ops State.fresh) := by
  have hslots : Slots config t size n :=
    { quota := hquota, slow := hslow, size_pos := hsize
      threshold := by
        rw [config.evictionThresholdOf_rat t, hratio, mul_one, Nat.floor_natCast, Nat.min_self,
          hcapacity] }
  apply (LRUPolicy.new_returns hn).mono
  intro p ⟨hp, hempty⟩
  have hrun : Returns (runOps .lazy config ops State.fresh) fun r =>
      Replays t size n (logOps config t ops State.fresh) State.fresh r.2 :=
    composes_replays.runOps (fun op hop s hgood => runOp_replays hslots hgood (hops op hop))
      (good_fresh config)
  apply hrun.mono
  intro r hreplays
  have huniform : Uniform size State.fresh := fun k it hk => by simp [State.fresh] at hk
  obtain ⟨hagrees, hfinal⟩ := (hreplays huniform).2 p hp (by rw [hempty]; exact inOrder_fresh t)
  refine ⟨hagrees, hfinal, ?_⟩
  rw [victims_of_agrees hagrees, victims_logOps hslow ops (good_fresh config)]

def oneFastBlock : TierConfig ℚ := plainConfig (some 4) (some 8) none

def oneFastBlockOps : List Op :=
  [.write (plainBlock 1 4) .hbm 0, .write (plainBlock 2 4) .hbm 0, .write (plainBlock 3 4) .hbm 0,
    .write (plainBlock 4 4) .hbm 0, .read (plainKey 2)]

theorem runOps_lru_oneFastBlock :
    Returns (LRUPolicy.new (2 : Nat)) fun p =>
      Returns (runOps .lazy oneFastBlock oneFastBlockOps State.fresh) fun r =>
        InOrder .dram r.2
          (p.replayed ((logOps oneFastBlock .dram oneFastBlockOps State.fresh).map
            TierRecord.event)).store.toList := by
  have hops : ∀ op ∈ oneFastBlockOps, Writes 4 op := by
    simp only [oneFastBlockOps, List.mem_cons, List.not_mem_nil, or_false]
    rintro op (rfl | rfl | rfl | rfl | rfl) <;> first | rfl | trivial
  exact (runOps_lru oneFastBlock rfl rfl (by decide) (by decide) (by decide) rfl oneFastBlockOps
    hops).mono fun p h => h.mono fun r h => h.2.1

end TieredKVCache.Storage
