import Mathlib.Data.Finset.Basic
import TieredKVCache.Storage.ReadSafety
import TieredKVCache.Storage.Rounds

/-!
# Which blocks are resident

`residents` is the set of the keys with a block. An iteration of `EnforceCapacityLocked` takes at
most its victim out of it, and only where the victim is not re-inserted
(`RoundInv.residents_dropped`). So the blocks after a public call are those before it and the one
that it writes, but for those that its iterations drop (`runOp_sheds`).
-/

namespace TieredKVCache.Storage

open Lib Relation

def residents (s : State) : Finset BlockKey := s.blocks.keys.toFinset

section

variable {D : Type} {config : TierConfig D} {t fast : Tier} {key k : BlockKey} {it : StoredBlock}
  {s s' : State}

theorem mem_residents : key ∈ residents s ↔ ∃ it, s.blocks.lookup key = some it := by
  rw [residents, List.mem_toFinset, ← Option.isSome_iff_exists, AList.lookup_isSome]
  exact Iff.rfl

theorem mem_residents_of_lookup (h : s.blocks.lookup key = some it) : key ∈ residents s :=
  mem_residents.mpr ⟨it, h⟩

theorem residents_congr (h : s'.blocks = s.blocks) : residents s' = residents s := by
  rw [residents, h]
  rfl

theorem residents_insert (h : s'.blocks = s.blocks.insert key it) :
    residents s' = insert key (residents s) := by
  ext k
  rw [mem_residents, h, Finset.mem_insert, mem_residents]
  simp only [lookup_insert_eq_some]
  by_cases hk : k = key <;> simp [hk]

/-- A block that is replaced by another one of the same key. -/
theorem residents_replace (h : s'.blocks = s.blocks.insert key it) (hkey : key ∈ residents s) :
    residents s' = residents s := by
  rw [residents_insert h, Finset.insert_eq_of_mem hkey]

theorem residents_erase (h : s'.blocks = s.blocks.erase key) :
    residents s' = (residents s).erase key := by
  ext k
  rw [mem_residents, h, Finset.mem_erase, mem_residents]
  simp only [lookup_erase_eq_some, exists_and_left]

/-! ## The parts of an iteration -/

theorem S3Step.residents (h : S3Step config fast s (.inl s')) : residents s' = residents s := by
  cases h with
  | staleSmall => rfl
  | staleMain => rfl
  | promote hfrom hq h hlive hfreq => exact residents_replace rfl (mem_residents_of_lookup h)
  | second hfrom hq h hlive hfreq => exact residents_replace rfl (mem_residents_of_lookup h)

theorem Scans.residents [DoubleArith D] (h : Scans config t s s') :
    Storage.residents s' = Storage.residents s := by
  induction h with
  | refl => rfl
  | tail _ hlast ih => exact hlast.2.residents.trans ih

end

section

variable {D : Type} [DoubleArith D] {config : TierConfig D} {t u fast : Tier} {key : BlockKey}
  {it : StoredBlock} {s s' a a' b : State} {v : Victim} {depth : Nat}

/-- The choice of the victim takes no block out. -/
theorem RoundInv.residents_state (h : RoundInv config t a)
    (hvictim : roundVictim config t a = some v) : residents v.state = residents a := by
  obtain ⟨s₁, hscans, hpick, -⟩ := h.picked hvictim
  exact (residents_congr hpick.blocks).trans hscans.residents

/-- The state in which the victim has been taken out, and re-inserted where it is demoted. -/
def Victim.left (config : TierConfig D) (t : Tier) (v : Victim) : State :=
  evicted .lazy config t v.key v.it v.state

/-- A victim that is not re-inserted is the only block that leaves. -/
theorem RoundInv.residents_dropped (h : RoundInv config t a)
    (hvictim : roundVictim config t a = some v) (hcall : nestedCall config t a = none) :
    residents (v.left config t) = (residents a).erase v.key := by
  have hev := h.evicts_of_victim hvictim
  have hblocks : (v.left config t).blocks = _ := evicted_blocks hev.keyed hev.placed
  rw [← h.residents_state hvictim]
  rcases (nestedCall_eq_none hvictim).mp hcall with hnext | ⟨u, hnext, hsize⟩
  · rw [hnext] at hblocks
    exact residents_erase hblocks
  · rw [hnext] at hblocks
    exact residents_erase (hblocks.trans (if_neg (Nat.not_le_of_lt hsize)))

/-- A victim that is re-inserted leaves no gap. -/
theorem RoundInv.residents_demoted (h : RoundInv config t a)
    (hvictim : roundVictim config t a = some v) (hcall : nestedCall config t a ≠ none) :
    residents (v.left config t) = residents a := by
  have hev := h.evicts_of_victim hvictim
  have hblocks : (v.left config t).blocks = _ := evicted_blocks hev.keyed hev.placed
  rw [← h.residents_state hvictim]
  obtain ⟨⟨u, b⟩, hcall⟩ := Option.ne_none_iff_exists'.mp hcall
  obtain ⟨v', hvictim', hnext, hfits, -⟩ := nestedCall_eq_some hcall
  cases hvictim.symm.trans hvictim'
  rw [hnext] at hblocks
  exact residents_replace (hblocks.trans (if_pos hfits)) (mem_residents_of_lookup hev.found)

/-- The victim of one of the iterations is not re-inserted. -/
def Dropped (config : TierConfig D) (key : BlockKey) (rounds : List (Tier × State)) : Prop :=
  ∃ round ∈ rounds, ∃ v, roundVictim config round.1 round.2 = some v ∧ v.key = key ∧
    key ∉ residents (v.left config round.1)

theorem dropped_append {rounds rounds' : List (Tier × State)} :
    Dropped config key (rounds ++ rounds') ↔
      Dropped config key rounds ∨ Dropped config key rounds' := by
  simp [Dropped, or_and_right, exists_or]

/-- Every block that is lost was dropped. -/
def Loses (config : TierConfig D) (rounds : List (Tier × State)) (s s' : State) : Prop :=
  ∀ key ∈ residents s, key ∈ residents s' ∨ Dropped config key rounds

/-- The keys that remain of some are those that were not dropped. -/
structure Sheds (config : TierConfig D) (rounds : List (Tier × State))
    (before after : Finset BlockKey) : Prop where
  mem_of_dropped : ∀ key, Dropped config key rounds → key ∈ before
  mem_iff : ∀ key, key ∈ after ↔ key ∈ before ∧ ¬ Dropped config key rounds

theorem Sheds.refl (config : TierConfig D) (before : Finset BlockKey) :
    Sheds config [] before before where
  mem_of_dropped key := by simp [Dropped]
  mem_iff key := by simp [Dropped]

theorem Sheds.trans {rounds rounds' : List (Tier × State)} {before middle after : Finset BlockKey}
    (h : Sheds config rounds before middle) (h' : Sheds config rounds' middle after) :
    Sheds config (rounds ++ rounds') before after where
  mem_of_dropped key hdropped :=
    (dropped_append.mp hdropped).elim (h.mem_of_dropped key) fun hlater =>
      ((h.mem_iff key).mp (h'.mem_of_dropped key hlater)).1
  mem_iff key := by rw [h'.mem_iff, h.mem_iff, dropped_append, not_or, and_assoc]

/-! ## Calls -/

theorem RoundInv.notMem_left_iff (h : RoundInv config t a)
    (hvictim : roundVictim config t a = some v) :
    v.key ∉ residents (v.left config t) ↔ nestedCall config t a = none := by
  constructor
  · intro hdropped
    by_contra hcall
    rw [h.residents_demoted hvictim hcall, ← h.residents_state hvictim] at hdropped
    exact hdropped (mem_residents_of_lookup (h.evicts_of_victim hvictim).found)
  · intro hcall
    rw [h.residents_dropped hvictim hcall]
    exact Finset.notMem_erase _ _

/-- An iteration sheds its victim, unless it is re-inserted. -/
theorem RoundInv.sheds (h : RoundInv config t a) (hvictim : roundVictim config t a = some v) :
    Sheds config [(t, a)] (residents a) (residents (v.left config t)) := by
  have hdropped : ∀ key, Dropped config key [(t, a)] ↔
      v.key = key ∧ nestedCall config t a = none := by
    intro key
    rw [← h.notMem_left_iff hvictim]
    simp only [Dropped, List.mem_singleton, exists_eq_left, hvictim, Option.some.injEq,
      exists_eq_left']
    exact and_congr_right fun heq => by rw [heq]
  have hkey : v.key ∈ residents a := by
    rw [← h.residents_state hvictim]
    exact mem_residents_of_lookup (roundVictim_chosen hvictim).2
  refine ⟨fun key hkey' => ((hdropped key).mp hkey').1 ▸ hkey, fun key => ?_⟩
  rw [hdropped]
  by_cases hcall : nestedCall config t a = none
  · rw [h.residents_dropped hvictim hcall, Finset.mem_erase]
    simp [hcall, and_comm, eq_comm]
  · rw [h.residents_demoted hvictim hcall]
    simp [hcall]

/-- An iteration within the threshold has no victim. -/
theorem sheds_within (hle : a.usedBytes t ≤ config.evictionThresholdOf t) :
    Sheds config [(t, a)] (residents a) (residents a) := by
  have hdropped : ∀ key, ¬ Dropped config key [(t, a)] := by
    simp [Dropped, roundVictim_of_within hle]
  exact ⟨fun key hkey => absurd hkey (hdropped key), fun key => by simp [hdropped key]⟩

theorem enforceWithin_sheds (hdepth : 3 ≤ depth + t.toNat) (h : RoundInv config t s) :
    Returns (enforceWithin .lazy config depth t s) fun r =>
      Sheds config (roundsWithin config depth t s) (residents s) (residents r.2) := by
  induction depth generalizing t s with
  | zero =>
    have hlt := t.toNat_lt
    omega
  | succ depth ih =>
    refine iterate_collect (I := fun rounds a => EnforceInv .lazy config t s a ∧
      Sheds config rounds (residents s) (residents a))
      (Q := fun rounds (r : Status × State) => Sheds config rounds (residents s) (residents r.2))
      (residentCount t)
      ?_ ⟨h.enforceInv, .refl config (residents s)⟩ (Nat.lt_succ_self _)
    intro rounds a ⟨ha, hsheds⟩
    cases ha.round depth (by omega) with
    | ends hle hbody =>
      refine .inr ⟨_, hbody, hsheds.trans ?_⟩
      rw [nestedCall_of_none (roundVictim_of_within hle)]
      exact sheds_within hle
    | @evicts v a' hvictim hround hbody ha' hcount =>
      refine .inl ⟨a', hbody, ⟨ha', hsheds.trans ?_⟩, hcount⟩
      have hhead := ha.roundInv.sheds hvictim
      cases hround with
      | dropped hcall =>
        rw [hcall]
        exact hhead
      | @demoted u _ hcall henforce =>
        obtain ⟨hb, hlt⟩ := ha.roundInv.nested hcall
        rw [hcall]
        exact hhead.trans ((ih (by omega) hb).of_eq henforce)

theorem roundsEnforce_sheds (h : RoundInv config t s) :
    Returns (enforceCapacityLocked .lazy config t s) fun r =>
      Sheds config (roundsEnforce config t s) (residents s) (residents r.2) :=
  enforceWithin_sheds (by omega) h

/-- The keys that a placement adds before capacity enforcement. -/
def placedKeys (config : TierConfig D) (block : KVCacheBlock) (t : Tier) : Finset BlockKey :=
  if blockSizeBytes block ≤ config.evictionThresholdOf t then {block.key} else ∅

/-- A block that is resident adds no key where it is placed anew. -/
theorem union_placedKeys (hgood : Good config s) (h : s.blocks.lookup key = some it) (t : Tier) :
    residents s ∪ placedKeys config it.block t = residents s := by
  refine Finset.union_eq_left.mpr fun key' hkey' => ?_
  unfold placedKeys at hkey'
  split at hkey'
  · rw [Finset.mem_singleton.mp hkey', (hgood.inv.keyed h).2]
    exact mem_residents_of_lookup h
  · cases Finset.notMem_empty _ hkey'

theorem placeLocked_sheds (hgood : Good config s) (ht : config.configured t = true)
    (block : KVCacheBlock) (tenantId : UInt32) :
    Returns (placeLocked .lazy config block t tenantId s) fun r =>
      Sheds config (roundsPlace config block t tenantId s)
        (residents s ∪ placedKeys config block t) (residents r.2) := by
  unfold placeLocked roundsPlace placedKeys
  by_cases hlarge : blockSizeBytes block > config.evictionThresholdOf t
  · rw [if_pos hlarge, if_pos hlarge, if_neg (Nat.not_le_of_lt hlarge), Finset.union_empty]
    exact returns_ok (.refl config (residents s))
  · rw [if_neg hlarge, if_neg hlarge, if_pos (Nat.le_of_not_lt hlarge), Finset.union_comm,
      ← Finset.insert_eq, ← residents_insert (admitLocked_blocks .lazy config block t tenantId s)]
    exact roundsEnforce_sheds (hgood.roundInv_admitted ht block tenantId)

theorem read_sheds (hgood : Good config s) (key : BlockKey) :
    Returns (read .lazy config key s) fun r =>
      Sheds config (roundsRead config key s) (residents s) (residents r.2) := by
  have hsame {it it' : StoredBlock} {a : State} (h : s.blocks.lookup key = some it)
      (ha : a.blocks = s.blocks.insert key it') : residents a = residents s :=
    residents_replace ha (mem_residents_of_lookup h)
  refine read_rule (Q := fun a => Sheds config (roundsRead config key s) (residents s)
    (residents a)) .lazy hgood key ?miss ?hit ?stay ?promote
  case miss =>
    intro h
    unfold roundsRead
    rw [h]
    exact .refl config (residents s)
  case hit =>
    intro it h hfast
    unfold roundsRead
    rw [h, hfast, hsame (a := retouch config key it (touchedFastest it s.logicalClock) s) h rfl]
    dsimp only
    rw [if_neg (by simp)]
    exact .refl config (residents s)
  case stay =>
    intro it fast h hfast hslow hsize
    unfold roundsRead
    rw [h, hfast, hsame (a := touchedState config key it s) h rfl]
    dsimp only
    rw [if_neg (fun hfits => Nat.not_le_of_lt hsize hfits.2)]
    exact .refl config (residents s)
  case promote =>
    intro it fast h hfast hslow hsize
    unfold roundsRead
    rw [h, hfast, ← hsame h (promotedState_blocks hfast key it s)]
    dsimp only
    rw [if_pos ⟨hslow, hsize⟩]
    exact roundsEnforce_sheds (hgood.roundInv_promoted h hfast)

/-- The keys that a call adds before capacity enforcement. -/
def writtenKeys (config : TierConfig D) : Op → Finset BlockKey
  | .write block target _ =>
    match config.resolveConfiguredTier target with
    | none => ∅
    | some t => placedKeys config block t
  | _ => ∅

theorem composes_sheds : Composes fun rounds s s' =>
    Sheds config rounds (residents s) (residents s') where
  refl s := .refl config (residents s)
  trans h h' := h.trans h'

/-- The blocks after a call are those before it and the one it writes, but for those it drops. -/
theorem runOp_sheds (hgood : Good config s) (op : Op) :
    Returns (runOp .lazy config op s) fun r =>
      Sheds config (roundsOp config op s) (residents s ∪ writtenKeys config op)
        (residents r.2) := by
  have hother (hop : ∀ block target tenantId, op ≠ .write block target tenantId) :
      Returns (runOp .lazy config op s) fun r =>
        Sheds config (roundsOp config op s) (residents s) (residents r.2) := by
    refine composes_sheds.runOp op hgood ?write ?place (read_sheds hgood) ?enforce
    case write => exact fun block target tenantId _ heq => absurd heq (hop block target tenantId)
    case place =>
      intro fast key it s hfast hgood h
      exact union_placedKeys hgood h fast ▸
        placeLocked_sheds hgood hfast it.block it.entry.tenantId
    case enforce =>
      intro t
      have henforce := (roundsEnforce_sheds ⟨hgood.inv, fun u _ => hgood.within u⟩).of_eq
        (enforceCapacity_eq hgood t)
      exact henforce
  cases op with
  | write block target tenantId =>
    refine Returns.bind (P := fun r =>
      Sheds config (roundsOp config (.write block target tenantId) s)
        (residents s ∪ writtenKeys config (.write block target tenantId)) (residents r.2)) ?_
      fun r h => returns_ok h
    rw [roundsOp, collectOp, writtenKeys]
    unfold write
    cases ht : config.resolveConfiguredTier target with
    | none =>
      dsimp only
      rw [Finset.union_empty]
      exact returns_ok (.refl config (residents s))
    | some t =>
      exact placeLocked_sheds hgood (TierConfig.resolveConfiguredTier_configured ht) block tenantId
  | read key => simpa [writtenKeys] using hother (by simp)
  | prefetch predicted => simpa [writtenKeys] using hother (by simp)
  | enforceCapacity t => simpa [writtenKeys] using hother (by simp)

/-- A block that is resident before a call and not after it was dropped in the call. -/
theorem runOp_loses (hgood : Good config s) (op : Op) :
    Returns (runOp .lazy config op s) fun r => Loses config (roundsOp config op s) s r.2 := by
  apply (runOp_sheds hgood op).mono
  intro r hsheds key hkey
  rw [hsheds.mem_iff, Finset.mem_union]
  exact or_iff_not_imp_right.mpr fun hkept => ⟨.inl hkey, hkept⟩

/-! ## Which victims are dropped -/

theorem RoundInv.dropped_iff (h : RoundInv config t a) (hvictim : roundVictim config t a = some v) :
    v.key ∉ residents (v.left config t) ↔ config.nextSlowerConfigured t = none ∨
      ∃ u, config.nextSlowerConfigured t = some u ∧
        config.capacityOf u < blockSizeBytes v.it.block :=
  (h.notMem_left_iff hvictim).trans (nestedCall_eq_none hvictim)

/-- A victim is dropped where there is no slower tier or it is larger than the next slower one,
and nothing but victims that are dropped leaves the store. -/
theorem runOps_dropped (config : TierConfig D) (ops : List Op) :
    (∀ round ∈ roundsOps config ops State.fresh, ∀ v,
      roundVictim config round.1 round.2 = some v →
        (v.key ∉ residents (v.left config round.1) ↔
          config.nextSlowerConfigured round.1 = none ∨
            ∃ u, config.nextSlowerConfigured round.1 = some u ∧
              config.capacityOf u < blockSizeBytes v.it.block)) ∧
      Returns (runOps .lazy config ops State.fresh) fun r => ∀ op,
        Returns (runOp .lazy config op r.2) fun r' => ∀ key ∈ residents r.2,
          key ∉ residents r'.2 → Dropped config key (roundsOp config op r.2) := by
  constructor
  · exact fun round hround v hvictim =>
      (roundsOps_inv ops (good_fresh config) round hround).dropped_iff hvictim
  · apply (runOps_good ops (good_fresh config)).mono
    intro r hgood op
    apply (runOp_loses hgood op).mono
    exact fun r' hloses key hkey hgone => (hloses key hkey).resolve_left hgone

end

def narrowMiddleOps : List Op := [.write (plainBlock 1 6) .hbm 0, .write (plainBlock 2 6) .hbm 0]

/-- The slowest tier could hold the victim, which is dropped as it does not fit the middle. -/
theorem narrowMiddle_drops_block :
    ¬ ∀ round ∈ roundsOps narrowMiddle narrowMiddleOps State.fresh, ∀ v,
      roundVictim narrowMiddle round.1 round.2 = some v →
        v.key ∉ residents (v.left narrowMiddle round.1) →
          narrowMiddle.nextSlowerConfigured round.1 = none ∨
            ∀ u, round.1.toNat < u.toNat → narrowMiddle.configured u = true →
              narrowMiddle.evictionThresholdOf u < blockSizeBytes v.it.block := by
  intro hall
  have hfound : ((roundsOps narrowMiddle narrowMiddleOps State.fresh).find? fun round =>
      (roundVictim narrowMiddle round.1 round.2).any fun v =>
        round.1 = .hbm ∧ v.key ∉ residents (v.left narrowMiddle round.1) ∧
          blockSizeBytes v.it.block = 6).isSome := by
    decide +kernel
  obtain ⟨round, hround⟩ := Option.isSome_iff_exists.mp hfound
  have hany := List.find?_some hround
  obtain ⟨v, hvictim, hv⟩ := (Option.any_eq_true _ _).mp hany
  obtain ⟨ht, hdropped, hsize⟩ := of_decide_eq_true hv
  rcases hall round (List.mem_of_find?_eq_some hround) v hvictim hdropped with hnone | hsmall
  · rw [ht] at hnone
    revert hnone
    decide
  · have hlarge := hsmall .nvme (by rw [ht]; decide) (by decide)
    rw [hsize] at hlarge
    revert hlarge
    decide +kernel

end TieredKVCache.Storage
