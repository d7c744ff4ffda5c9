import TieredKVCache.Storage.Rounds

/-!
# The loops of the manager end

The loops of `PickS3VictimLocked` and `EnforceCapacityLocked` without any bound. A round of the
picker is a step between states, and it lowers `s3Measure` in any state. The nested loops of
`EnforceCapacityLocked` are a machine with a stack of the tiers whose loops are running
(`EnforceMove`): a victim that is demoted starts the loop of the next slower tier, and a loop that
ends goes back to the one below. An eviction takes a block out of the tiers or to a slower one,
whatever its size, which lowers `descent`; the moves in between shorten the stack. So there is no
infinite sequence of moves (`acc_enforceMove`), and the moves of a call lead to what the call
returns (`loops_end`).
-/

namespace TieredKVCache.Storage

open Lib Relation

section

variable {D : Type} [DoubleArith D] (config : TierConfig D)

/-- A round of the picker that ends with `continue`. -/
def PickMove (fast : Tier) (a b : State) : Prop := s3Body config fast a = .ok (.inl b)

/-- A round of the innermost loop of `EnforceCapacityLocked`. -/
inductive EnforceMove : List Tier × State → List Tier × State → Prop
  /-- The loop ends, and the loop below goes on with its next round. -/
  | ends {t : Tier} {stack : List Tier} {a : State}
      (hle : a.usedBytes t ≤ config.evictionThresholdOf t) :
      EnforceMove (t :: stack, a) (stack, a)
  /-- Without a victim every call returns the error of the innermost one. -/
  | fails {t : Tier} {stack : List Tier} {a b : State}
      (hover : config.evictionThresholdOf t < a.usedBytes t)
      (hchoose : chooseVictim config t a = .ok (none, b)) : EnforceMove (t :: stack, a) ([], b)
  | drops {t : Tier} {stack : List Tier} {a : State} {v : Victim}
      (hvictim : roundVictim config t a = some v) (hcall : nestedCall config t a = none) :
      EnforceMove (t :: stack, a) (t :: stack, evicted .lazy config t v.key v.it v.state)
  | demotes {t u : Tier} {stack : List Tier} {a b : State}
      (hcall : nestedCall config t a = some (u, b)) :
      EnforceMove (t :: stack, a) (u :: t :: stack, b)

end

/-- How many steps down the blocks can still take: a block of the slowest tier takes one, out of
the tiers. -/
def descent (s : State) : Nat := sumOver (fun _ it => 3 - it.entry.tier.toNat) s.blocks

section

variable {D : Type} {config : TierConfig D} {t u fast : Tier} {a b s s' : State} {v : Victim}
  {stack : List Tier}

/-! ## The picker -/

theorem acc_pickMove (hfast : config.fastestTierCache = some fast) (s : State) :
    Acc (fun b a => PickMove config fast a b) s := by
  have hlower : ∀ {b a : State}, PickMove config fast a b → s3Measure b < s3Measure a := by
    intro b a hmove
    obtain ⟨r, hr, hstep⟩ := s3Body_spec hfast a
    cases hmove.symm.trans hr
    exact hstep.measure_lt
  have hwf : WellFounded fun b a => PickMove config fast a b :=
    Subrelation.wf hlower (measure s3Measure).wf
  exact hwf.apply s

/-- The picker returns in any state. -/
theorem pickS3VictimLocked_ends (hfast : config.fastestTierCache = some fast) (s : State) :
    ∃ r, pickS3VictimLocked config s = .ok r := by
  obtain ⟨⟨v, s'⟩, hr⟩ := s3Scan_terminates hfast s
  refine ⟨(v, { s' with s3Victims := v :: s'.s3Victims }), ?_⟩
  simp only [pickS3VictimLocked, hfast, hr, bind, Except.bind, pure, Except.pure]

/-! ## The nested loops -/

theorem Scans.descent [DoubleArith D] (h : Scans config t s s') : descent s' = descent s := by
  induction h with
  | refl => rfl
  | tail _ hlast ih => exact (hlast.2.sumOver_entry fun entry => 3 - entry.tier.toNat).trans ih

/-- An eviction takes the victim down, whatever its size. -/
theorem descent_evicted_lt {key : BlockKey} {it : StoredBlock}
    (h : s.blocks.lookup key = some it) (ht : it.entry.tier = t) (hkey : it.block.key = key)
    (hplaced : config.configured t = true) :
    descent (evicted .lazy config t key it s) < descent s := by
  have hlt := t.toNat_lt
  have hbefore : descent s = (3 - t.toNat) +
      sumOver (fun _ it => 3 - it.entry.tier.toNat) (s.blocks.erase key) := by
    rw [descent, sumOver_erase h, ht]
  rw [hbefore, descent, evicted_blocks hkey hplaced]
  split
  next => omega
  next slower hslower =>
    split
    next =>
      have hslow := TierConfig.nextSlowerConfigured_lt hslower
      have hdemoted : (demoted slower it s.logicalClock).entry.tier = slower := rfl
      rw [sumOver_insert, hdemoted]
      omega
    next => omega

variable [DoubleArith D]

/-- The state after an eviction satisfies the invariant, and its blocks have less way to go. -/
theorem evicted_of_victim (hinv : RepInv config a) (hvictim : roundVictim config t a = some v) :
    RepInv config (evicted .lazy config t v.key v.it v.state) ∧
      descent (evicted .lazy config t v.key v.it v.state) < descent a := by
  obtain ⟨s₁, hscans, hinv₁, hpick, ht⟩ := picked_of_victim hinv hvictim
  have hit := (roundVictim_chosen hvictim).2
  have hinv₂ := hpick.repInv hinv₁
  have hover : config.evictionThresholdOf t < s₁.usedBytes t := by
    rw [hscans.usedBytes]
    exact roundVictim_over hvictim
  have hstep : EnforceStep .lazy config t s₁ (evicted .lazy config t v.key v.it v.state) :=
    .evict hover hpick hit ht
  refine ⟨hstep.repInv hinv₁, ?_⟩
  calc descent (evicted .lazy config t v.key v.it v.state)
      < descent v.state :=
        descent_evicted_lt hit ht (hinv₂.keyed hit).2 (ht ▸ hinv₂.placed hit)
    _ = descent s₁ := by rw [descent, descent, hpick.blocks]
    _ = descent a := hscans.descent

theorem not_enforceMove_nil {c : List Tier × State} : ¬ EnforceMove config ([], a) c := by
  intro h
  cases h

/-- **Termination.** From a state of the invariant there is no infinite sequence of rounds, with
whatever loops running. -/
theorem acc_enforceMove (hinv : RepInv config a) (stack : List Tier) :
    Acc (fun c' c => EnforceMove config c c') (stack, a) := by
  have hempty : ∀ b : State, Acc (fun c' c => EnforceMove config c c') ([], b) :=
    fun b => Acc.intro _ fun c hmove => absurd hmove not_enforceMove_nil
  -- the outer induction is on the way down, the inner one on the loops that run
  induction hdescent : descent a using Nat.strong_induction_on generalizing a stack with
  | _ n ih =>
    subst hdescent
    induction stack with
    | nil => exact hempty a
    | cons t stack ihstack =>
      refine Acc.intro _ fun c hmove => ?_
      cases hmove with
      | ends hle => exact ihstack
      | fails hover hchoose => exact hempty _
      | drops hvictim hcall =>
        obtain ⟨hinv', hlt⟩ := evicted_of_victim hinv hvictim
        exact ih _ hlt hinv' _ rfl
      | demotes hcall =>
        obtain ⟨v, hvictim, -⟩ := nestedCall_eq_some hcall
        obtain rfl := evicted_of_nestedCall hcall hvictim
        obtain ⟨hinv', hlt⟩ := evicted_of_victim hinv hvictim
        exact ih _ hlt hinv' _ rfl

theorem not_within_of_roundVictim (hvictim : roundVictim config t a = some v) :
    ¬ a.usedBytes t ≤ config.evictionThresholdOf t :=
  Nat.not_le_of_lt (roundVictim_over hvictim)

theorem chooseVictim_ne_of_roundVictim (hvictim : roundVictim config t a = some v) :
    chooseVictim config t a ≠ .ok (none, b) := by
  intro hchoose
  cases hchoose.symm.trans (roundVictim_chosen hvictim).1

/-- A round has one outcome. -/
theorem EnforceMove.unique {c d d' : List Tier × State} (h : EnforceMove config c d)
    (h' : EnforceMove config c d') : d = d' := by
  cases h with
  | ends hle =>
    cases h' with
    | ends => rfl
    | fails hover => exact absurd hle (Nat.not_le_of_lt hover)
    | drops hvictim => exact absurd hle (not_within_of_roundVictim hvictim)
    | demotes hcall =>
      obtain ⟨v, hvictim, -⟩ := nestedCall_eq_some hcall
      exact absurd hle (not_within_of_roundVictim hvictim)
  | fails hover hchoose =>
    cases h' with
    | ends hle => exact absurd hle (Nat.not_le_of_lt hover)
    | fails _ hchoose' =>
      cases hchoose.symm.trans hchoose'
      rfl
    | drops hvictim => exact absurd hchoose (chooseVictim_ne_of_roundVictim hvictim)
    | demotes hcall =>
      obtain ⟨v, hvictim, -⟩ := nestedCall_eq_some hcall
      exact absurd hchoose (chooseVictim_ne_of_roundVictim hvictim)
  | drops hvictim hcall =>
    cases h' with
    | ends hle => exact absurd hle (not_within_of_roundVictim hvictim)
    | fails _ hchoose => exact absurd hchoose (chooseVictim_ne_of_roundVictim hvictim)
    | drops hvictim' =>
      cases hvictim.symm.trans hvictim'
      rfl
    | demotes hcall' => cases hcall.symm.trans hcall'
  | demotes hcall =>
    obtain ⟨v, hvictim, -⟩ := nestedCall_eq_some hcall
    cases h' with
    | ends hle => exact absurd hle (not_within_of_roundVictim hvictim)
    | fails _ hchoose => exact absurd hchoose (chooseVictim_ne_of_roundVictim hvictim)
    | drops _ hcall' => cases hcall.symm.trans hcall'
    | demotes hcall' =>
      cases hcall.symm.trans hcall'
      rfl

/-! ## The calls -/

/-- The moves of a call lead to what it returns, and leave the loops below as they were. -/
theorem enforceWithin_moves {depth : Nat} (hdepth : 3 ≤ depth + t.toNat)
    (h : RoundInv config t s) :
    Returns (enforceWithin .lazy config depth t s) fun r => r.1 = .success ∧
      ∀ stack, ReflTransGen (EnforceMove config) (t :: stack, s) (stack, r.2) := by
  induction depth generalizing t s with
  | zero =>
    have hlt := t.toNat_lt
    omega
  | succ depth ih =>
    refine iterate_returns (fun a => EnforceInv .lazy config t s a ∧
      ∀ stack, ReflTransGen (EnforceMove config) (t :: stack, s) (t :: stack, a))
      (residentCount t) ?_ ⟨h.enforceInv, fun _ => .refl⟩ (Nat.lt_succ_self _)
    rintro a ⟨ha, hmoves⟩
    cases ha.round depth (by omega) with
    | ends hle hbody =>
      exact .inr ⟨(.success, a), hbody, rfl, fun stack => (hmoves stack).tail (.ends hle)⟩
    | evicts hvictim hround hbody hinv hcount =>
      refine .inl ⟨_, hbody, ⟨hinv, fun stack => ?_⟩, hcount⟩
      cases hround with
      | dropped hcall => exact (hmoves stack).tail (.drops hvictim hcall)
      | @demoted u a' hcall henforce =>
        obtain ⟨hb, hlt⟩ := ha.roundInv.nested hcall
        have hnested := (ih (by omega) hb).of_eq henforce
        exact ((hmoves stack).tail (.demotes hcall)).trans (hnested.2 (t :: stack))

/-- A call returns, and every sequence of moves from its start leads on to this end. -/
def CallEnds (config : TierConfig D) (t : Tier) (a : State) : Prop :=
  Returns (enforceCapacityLocked .lazy config t a) fun r => r.1 = .success ∧
    ReflTransGen (EnforceMove config) ([t], a) ([], r.2) ∧
    ∀ c, ReflTransGen (EnforceMove config) ([t], a) c →
      ReflTransGen (EnforceMove config) c ([], r.2)

theorem RoundInv.callEnds (h : RoundInv config t a) : CallEnds config t a := by
  have hunique : Relator.RightUnique (EnforceMove config) := fun _ _ _ hd hd' => hd.unique hd'
  refine (enforceWithin_moves (by omega) h).mono fun r hr => ⟨hr.1, hr.2 [], fun c hc => ?_⟩
  rcases ReflTransGen.total_of_right_unique hunique hc (hr.2 []) with hon | hback
  · exact hon
  · cases hback.cases_head with
    | inl heq => exact heq ▸ .refl
    | inr hmove =>
      obtain ⟨d, hmove, -⟩ := hmove
      exact absurd hmove not_enforceMove_nil

/-- The loops end from the state, whichever of them are running. -/
structure LoopsEnd (config : TierConfig D) (s : State) : Prop where
  picker : ∀ fast, config.fastestTierCache = some fast →
    Acc (fun b a => PickMove config fast a b) s ∧ ∃ r, pickS3VictimLocked config s = .ok r
  nested : ∀ stack, Acc (fun c' c => EnforceMove config c c') (stack, s)

theorem RepInvExcept.loopsEnd (hinv : RepInv config s) : LoopsEnd config s :=
  ⟨fun _ hfast => ⟨acc_pickMove hfast s, pickS3VictimLocked_ends hfast s⟩, acc_enforceMove hinv⟩

/-- **The loops end.** After every sequence of public calls, and at every round of capacity
enforcement in between, the picker and the nested loops of capacity enforcement end. -/
theorem loops_end (config : TierConfig D) (ops : List Op) :
    (Returns (runOps .lazy config ops State.fresh) fun r =>
        LoopsEnd config r.2 ∧ ∀ t, CallEnds config t r.2) ∧
      ∀ round ∈ roundsOps config ops State.fresh,
        LoopsEnd config round.2 ∧ CallEnds config round.1 round.2 := by
  constructor
  · refine (runOps_good ops (good_fresh config)).mono fun r hgood => ?_
    exact ⟨hgood.inv.loopsEnd, fun t => RoundInv.callEnds ⟨hgood.inv, fun u _ => hgood.within u⟩⟩
  · intro round hround
    have hinv := roundsOps_inv ops (good_fresh config) round hround
    exact ⟨hinv.inv.loopsEnd, hinv.callEnds⟩

end

end TieredKVCache.Storage
