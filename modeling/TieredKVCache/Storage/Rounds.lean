import TieredKVCache.Storage.Collect

/-!
# The rounds of capacity enforcement

`roundsOps` lists the iterations of `EnforceCapacityLocked` in a run: the tier of each and the
state in which it starts. `roundVictim` is the victim of an iteration, and `nestedCall` the
recursive call that follows where the victim is demoted. Every listed state satisfies the
representation invariant (`roundsOps_inv`), so that what is true of the choice of a victim in such
a state is true of every eviction of every run.
-/

namespace TieredKVCache.Storage

open Lib

section

variable {D : Type} [DoubleArith D] (config : TierConfig D)

/-! ## One iteration -/

/-- A victim, and the state in which `EnforceCapacityLocked` looks it up. -/
structure Victim where
  key : BlockKey
  it : StoredBlock
  state : State

/-- The victim of the iteration that starts in a state; there is none within the threshold. -/
def roundVictim (tier : Tier) (s : State) : Option Victim :=
  if s.usedBytes tier ≤ config.evictionThresholdOf tier then none
  else
    match chooseVictim config tier s with
    | .ok (some key, s) => (s.blocks.lookup key).map fun it => ⟨key, it, s⟩
    | _ => none

/-- The recursive call of the iteration: the victim has entered the next slower tier. -/
def nestedCall (tier : Tier) (s : State) : Option (Tier × State) :=
  match roundVictim config tier s, config.nextSlowerConfigured tier with
  | some v, some slower =>
    if blockSizeBytes v.it.block ≤ config.capacityOf slower then
      some (slower, demoteLocked config slower v.it (removeLocked config .lazy v.key v.state))
    else none
  | _, _ => none

/-! ## All iterations -/

/-- The iterations of a call, each followed by those of its recursive call. -/
def roundsWithin : Nat → Tier → State → List (Tier × State)
  | 0, _, _ => []
  | depth + 1, tier, s =>
    collect (fun a => (tier, a) :: match nestedCall config tier a with
        | some (slower, b) => roundsWithin depth slower b
        | none => [])
      (enforceBody .lazy config (enforceWithin .lazy config depth) tier)
      (residentCount tier s + 1) s

def roundsEnforce (tier : Tier) (s : State) : List (Tier × State) := roundsWithin config 3 tier s

def roundsPlace (block : KVCacheBlock) (tier : Tier) (tenantId : UInt32) (s : State) :
    List (Tier × State) :=
  if blockSizeBytes block > config.evictionThresholdOf tier then []
  else roundsEnforce config tier (admitLocked .lazy config block tier tenantId s)

def roundsRead (key : BlockKey) (s : State) : List (Tier × State) :=
  match s.blocks.lookup key, config.fastestTierCache with
  | some it, some fast =>
    if it.entry.tier ≠ fast ∧ it.entry.sizeBytes ≤ config.evictionThresholdOf fast then
      roundsEnforce config fast (promotedState .lazy config key it fast s)
    else []
  | _, _ => []

def roundsOp : Op → State → List (Tier × State) :=
  collectOp config (roundsPlace config) (roundsRead config) (roundsEnforce config)

def roundsOps : List Op → State → List (Tier × State) := collectOps config (roundsOp config)

end

section

variable {D : Type} [DoubleArith D] {config : TierConfig D} {t u : Tier} {a b s : State}
  {v : Victim}

/-! ## The victim and the call -/

theorem roundVictim_over (h : roundVictim config t a = some v) :
    config.evictionThresholdOf t < a.usedBytes t := by
  unfold roundVictim at h
  split at h
  next => cases h
  next hover => exact Nat.lt_of_not_le hover

theorem roundVictim_chosen (h : roundVictim config t a = some v) :
    chooseVictim config t a = .ok (some v.key, v.state) ∧
      v.state.blocks.lookup v.key = some v.it := by
  unfold roundVictim at h
  split at h
  next => cases h
  next =>
    split at h
    next key s hchoose =>
      obtain ⟨it, hit, rfl⟩ := Option.map_eq_some_iff.mp h
      exact ⟨hchoose, hit⟩
    next => cases h

theorem nestedCall_eq_some (h : nestedCall config t a = some (u, b)) :
    ∃ v, roundVictim config t a = some v ∧ config.nextSlowerConfigured t = some u ∧
      blockSizeBytes v.it.block ≤ config.capacityOf u ∧
      b = demoteLocked config u v.it (removeLocked config .lazy v.key v.state) := by
  unfold nestedCall at h
  split at h
  next v slower hvictim hnext =>
    split at h
    next hfits =>
      cases h
      exact ⟨v, hvictim, hnext, hfits, rfl⟩
    next => cases h
  next => cases h

/-- Without a recursive call the victim does not fit the next slower tier, or there is none. -/
theorem nestedCall_eq_none (hvictim : roundVictim config t a = some v) :
    nestedCall config t a = none ↔ config.nextSlowerConfigured t = none ∨
      ∃ u, config.nextSlowerConfigured t = some u ∧
        config.capacityOf u < blockSizeBytes v.it.block := by
  unfold nestedCall
  rw [hvictim]
  cases config.nextSlowerConfigured t with
  | none => simp
  | some slower =>
    by_cases hfits : blockSizeBytes v.it.block ≤ config.capacityOf slower
    · simp [hfits, Nat.not_lt.mpr hfits]
    · simp [hfits, Nat.lt_of_not_le hfits]

/-- An iteration with a victim evicts it, and makes the recursive call. -/
theorem enforceBody_of_victim (enforce : Tier → State → Except Fault (Status × State))
    (h : roundVictim config t a = some v) :
    enforceBody .lazy config enforce t a =
      match nestedCall config t a with
      | none => .ok (.inl (evicted .lazy config t v.key v.it v.state))
      | some (slower, b) => do
        let r ← enforce slower b
        if !r.1.isOk then return .inr r
        return .inl r.2 := by
  obtain ⟨hchoose, hit⟩ := roundVictim_chosen h
  rw [enforceBody_over (roundVictim_over h) hchoose hit]
  unfold nestedCall evicted
  rw [h]
  cases config.nextSlowerConfigured t with
  | none => rfl
  | some slower =>
    dsimp only
    split <;> rfl

/-! ## The states in which iterations start -/

/-- What holds where an iteration starts. -/
structure RoundInv (config : TierConfig D) (t : Tier) (a : State) : Prop where
  inv : RepInv config a
  slower : SlowerWithin config t a

theorem EnforceInv.roundInv (h : EnforceInv .lazy config t s a) : RoundInv config t a :=
  ⟨h.inv, h.slower⟩

theorem RoundInv.enforceInv (h : RoundInv config t a) : EnforceInv .lazy config t a a :=
  ⟨h.inv, .refl, h.slower⟩

/-- A tier over its threshold has a victim. -/
theorem RoundInv.evicts (h : RoundInv config t a)
    (hover : config.evictionThresholdOf t < a.usedBytes t) :
    ∃ v, roundVictim config t a = some v ∧ Evicts .lazy config t a a v.key v.it v.state := by
  obtain ⟨⟨_, s⟩, hchoose, key, it, rfl, hev⟩ := h.enforceInv.evicts hover
  refine ⟨⟨key, it, s⟩, ?_, hev⟩
  rw [roundVictim, if_neg (Nat.not_le_of_lt hover), hchoose]
  exact congrArg (Option.map _) hev.found

theorem RoundInv.evicts_of_victim (h : RoundInv config t a)
    (hvictim : roundVictim config t a = some v) :
    Evicts .lazy config t a a v.key v.it v.state := by
  obtain ⟨v', hvictim', hev⟩ := h.evicts (roundVictim_over hvictim)
  cases hvictim.symm.trans hvictim'
  exact hev

/-- The victim as the choice leaves it. -/
theorem picked_of_victim (hinv : RepInv config a) (hvictim : roundVictim config t a = some v) :
    ∃ s₁, Scans config t a s₁ ∧ RepInv config s₁ ∧ Picked config t s₁ v.key v.state ∧
      v.it.entry.tier = t := by
  obtain ⟨hchoose, hit⟩ := roundVictim_chosen hvictim
  obtain ⟨key, s₁, heq, hscans, hinv₁, hpick, it, hk, ht⟩ :=
    (chooseVictim_returns hinv (hinv.occupied (roundVictim_over hvictim))).of_eq hchoose
  cases heq
  cases hit.symm.trans hk
  exact ⟨s₁, hscans, hinv₁, hpick, ht⟩

theorem RoundInv.picked (h : RoundInv config t a) (hvictim : roundVictim config t a = some v) :
    ∃ s₁, Scans config t a s₁ ∧ Picked config t s₁ v.key v.state ∧
      v.it.entry.tier = t ∧ RepInvExcept config (some v.key) v.state := by
  obtain ⟨s₁, hscans, hinv₁, hpick, ht⟩ := picked_of_victim h.inv hvictim
  exact ⟨s₁, hscans, hpick, ht, hpick.repInv hinv₁⟩

theorem evicted_of_nestedCall (h : nestedCall config t a = some (u, b))
    (hvictim : roundVictim config t a = some v) :
    b = evicted .lazy config t v.key v.it v.state := by
  obtain ⟨v', hvictim', hnext, hfits, rfl⟩ := nestedCall_eq_some h
  cases hvictim.symm.trans hvictim'
  rw [evicted, hnext]
  exact (if_pos hfits).symm

/-- The recursive call starts in a state of the same kind. -/
theorem RoundInv.nested (h : RoundInv config t a) (hcall : nestedCall config t a = some (u, b)) :
    RoundInv config u b ∧ t.toNat < u.toNat := by
  obtain ⟨v, hvictim, hnext, hfits, -⟩ := nestedCall_eq_some hcall
  obtain rfl := evicted_of_nestedCall hcall hvictim
  have hev := h.evicts_of_victim hvictim
  exact ⟨⟨hev.inv, hev.slowerWithin hnext⟩, TierConfig.nextSlowerConfigured_lt hnext⟩

theorem roundVictim_of_within (h : a.usedBytes t ≤ config.evictionThresholdOf t) :
    roundVictim config t a = none := if_pos h

theorem nestedCall_of_none (h : roundVictim config t a = none) : nestedCall config t a = none := by
  rw [nestedCall, h]

/-- An iteration that evicts a block, and where it leads. -/
inductive EvictRound (config : TierConfig D) (depth : Nat) (t : Tier) (a : State) (v : Victim) :
    State → Prop
  | dropped (hcall : nestedCall config t a = none) :
      EvictRound config depth t a v (evicted .lazy config t v.key v.it v.state)
  | demoted {u : Tier} {a' : State}
      (hcall : nestedCall config t a = some (u, evicted .lazy config t v.key v.it v.state))
      (henforce : enforceWithin .lazy config depth u (evicted .lazy config t v.key v.it v.state) =
        .ok (.success, a')) :
      EvictRound config depth t a v a'

/-- An iteration of a call that started in `s`. -/
inductive RoundCase (config : TierConfig D) (depth : Nat) (t : Tier) (s a : State) : Prop
  | ends (hle : a.usedBytes t ≤ config.evictionThresholdOf t)
      (hbody : enforceBody .lazy config (enforceWithin .lazy config depth) t a =
        .ok (.inr (.success, a)))
  | evicts {v : Victim} {a' : State} (hvictim : roundVictim config t a = some v)
      (hround : EvictRound config depth t a v a')
      (hbody : enforceBody .lazy config (enforceWithin .lazy config depth) t a = .ok (.inl a'))
      (hinv : EnforceInv .lazy config t s a')
      (hcount : residentCount t a' < residentCount t a)

theorem EnforceInv.round (depth : Nat) (hdepth : 3 ≤ depth + 1 + t.toNat)
    (h : EnforceInv .lazy config t s a) : RoundCase config depth t s a := by
  by_cases hle : a.usedBytes t ≤ config.evictionThresholdOf t
  · exact .ends hle (if_pos hle)
  · obtain ⟨v, hvictim, -⟩ := h.roundInv.evicts (Nat.lt_of_not_le hle)
    have hbody := enforceBody_of_victim (enforceWithin .lazy config depth) hvictim
    have hnext := enforceBody_round (fun u a hu hinv hslower =>
      have hnested : 3 ≤ depth + u.toNat := by omega
      enforceWithin_returns hnested hinv hslower) s a h
    have hfinish {a' : State} (ha' : EvictRound config depth t a v a')
        (hbody : enforceBody .lazy config (enforceWithin .lazy config depth) t a =
          .ok (.inl a')) : RoundCase config depth t s a := by
      rcases hnext with ⟨a'', hbody', hinv, hcount⟩ | ⟨r, hbody', -⟩
      · cases hbody.symm.trans hbody'
        exact .evicts hvictim ha' hbody hinv hcount
      · cases hbody.symm.trans hbody'
    cases hcall : nestedCall config t a with
    | none =>
      rw [hcall] at hbody
      exact hfinish (.dropped hcall) hbody
    | some call =>
      obtain ⟨u, b⟩ := call
      obtain ⟨hb, hlt⟩ := h.roundInv.nested hcall
      have hnested : 3 ≤ depth + u.toNat := by omega
      have hreturns : Returns (enforceWithin .lazy config depth u b) (Enforced .lazy config u b) :=
        enforceWithin_returns hnested hb.inv hb.slower
      obtain ⟨⟨_, a'⟩, henforce, rfl, -⟩ := hreturns
      obtain rfl := evicted_of_nestedCall hcall hvictim
      rw [hcall] at hbody
      dsimp only at hbody
      rw [henforce] at hbody
      exact hfinish (.demoted hcall henforce) hbody

theorem roundsWithin_inv {depth : Nat} (hdepth : 3 ≤ depth + t.toNat) (h : RoundInv config t s) :
    ∀ round ∈ roundsWithin config depth t s, RoundInv config round.1 round.2 := by
  induction depth generalizing t s with
  | zero =>
    have hlt := t.toNat_lt
    omega
  | succ depth ih =>
    refine forall_mem_collect (I := EnforceInv .lazy config t s) ?_ h.enforceInv
    intro a ha
    constructor
    · intro round hround
      rcases List.mem_cons.mp hround with rfl | hround
      · exact ha.roundInv
      · split at hround
        next slower b hcall =>
          obtain ⟨hb, hlt⟩ := ha.roundInv.nested hcall
          exact ih (by omega) hb round hround
        next => cases hround
    · intro a' hbody
      cases ha.round depth (by omega) with
      | ends hle hbody' => cases hbody.symm.trans hbody'
      | evicts hvictim hround hbody' hinv hcount =>
        cases hbody.symm.trans hbody'
        exact hinv

theorem roundsEnforce_inv (h : RoundInv config t s) :
    ∀ round ∈ roundsEnforce config t s, RoundInv config round.1 round.2 :=
  roundsWithin_inv (by omega) h

/-- After an insertion into a good state. -/
theorem Good.roundInv {key : BlockKey} {it : StoredBlock} (hgood : Good config s)
    (hinv : RepInv config a) (hblocks : a.blocks = s.blocks.insert key it) :
    RoundInv config it.entry.tier a := by
  refine ⟨hinv, fun u hu => hgood.within_of_insert hinv hblocks u ?_⟩
  rintro rfl
  omega

theorem Good.roundInv_admitted (hgood : Good config s) (ht : config.configured t = true)
    (block : KVCacheBlock) (tenantId : UInt32) :
    RoundInv config t (admitLocked .lazy config block t tenantId s) :=
  hgood.roundInv (admitLocked_repInv .lazy hgood.inv ht block tenantId)
    (admitLocked_blocks .lazy config block t tenantId s)

theorem Good.roundInv_promoted {key : BlockKey} {it : StoredBlock} {fast : Tier}
    (hgood : Good config s) (h : s.blocks.lookup key = some it)
    (hfast : config.fastestTierCache = some fast) :
    RoundInv config fast (promotedState .lazy config key it fast s) :=
  hgood.roundInv (promotedState_repInv .lazy hgood.inv h hfast)
    (promotedState_blocks hfast key it s)

theorem roundsPlace_inv (hgood : Good config s) (ht : config.configured t = true)
    (block : KVCacheBlock) (tenantId : UInt32) :
    ∀ round ∈ roundsPlace config block t tenantId s, RoundInv config round.1 round.2 := by
  unfold roundsPlace
  split
  next => simp
  next => exact roundsEnforce_inv (hgood.roundInv_admitted ht block tenantId)

theorem roundsRead_inv (hgood : Good config s) (key : BlockKey) :
    ∀ round ∈ roundsRead config key s, RoundInv config round.1 round.2 := by
  unfold roundsRead
  split
  next it fast h hfast =>
    split
    next => exact roundsEnforce_inv (hgood.roundInv_promoted h hfast)
    next => simp
  next => simp

/-- All iterations of a list start in such states, whatever the states before and after. -/
def AllRoundInv (config : TierConfig D) (rounds : List (Tier × State)) (_ _ : State) : Prop :=
  ∀ round ∈ rounds, RoundInv config round.1 round.2

theorem composes_allRoundInv : Composes (AllRoundInv config) where
  refl _ := by simp [AllRoundInv]
  trans h h' round hround := (List.mem_append.mp hround).elim (h round) (h' round)

theorem roundsOp_inv (hgood : Good config s) (op : Op) :
    Returns (runOp .lazy config op s) fun r => AllRoundInv config (roundsOp config op s) s r.2 := by
  refine composes_allRoundInv.runOp op hgood ?write ?place ?read ?enforce
  case write =>
    intro block target tenantId t _ ht
    exact (placeLocked_returns .lazy hgood ht block tenantId).mono fun _ _ =>
      roundsPlace_inv hgood ht block tenantId
  case place =>
    intro fast key it s hfast hgood _
    exact (placeLocked_returns .lazy hgood hfast it.block it.entry.tenantId).mono fun _ _ =>
      roundsPlace_inv hgood hfast it.block it.entry.tenantId
  case read => exact fun key => (read_returns .lazy hgood key).mono fun _ _ =>
    roundsRead_inv hgood key
  case enforce => exact fun t => roundsEnforce_inv ⟨hgood.inv, fun u _ => hgood.within u⟩

/-- Every iteration of every run starts in a state that satisfies the invariant. -/
theorem roundsOps_inv (ops : List Op) (hgood : Good config s) :
    ∀ round ∈ roundsOps config ops s, RoundInv config round.1 round.2 := by
  have hrun : Returns (runOps .lazy config ops s) fun r =>
      AllRoundInv config (roundsOps config ops s) s r.2 :=
    composes_allRoundInv.runOps (fun op _ s hgood => roundsOp_inv hgood op) hgood
  obtain ⟨_, _, hall⟩ := hrun
  exact hall

end

end TieredKVCache.Storage
