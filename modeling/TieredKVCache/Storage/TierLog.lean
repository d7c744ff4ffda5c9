import TieredKVCache.Bench.Policies
import TieredKVCache.Storage.Rounds

/-!
# What happens to one tier

`logOps` lists the events of one tier in a run, in the terms of a cache policy: a block enters it
by a write or a demotion (`admitKey`), leaves it other than as a victim (`remove`), or is read and
stays (`touch`). A record holds the victims of the tier up to the end of the event and the state
there. No victim of the run is missing (`victims_logOps`).
-/

namespace TieredKVCache.Storage

open Lib Bench

structure TierRecord where
  event : CacheEvent BlockKey
  victims : List BlockKey
  after : State

section

variable {D : Type} [DoubleArith D] (config : TierConfig D) (t : Tier)

/-- The victims of the tier in a list of iterations. -/
def victimsOf (rounds : List (Tier × State)) : List BlockKey :=
  rounds.filterMap fun round =>
    if round.1 = t then (roundVictim config round.1 round.2).map Victim.key else none

/-- The key has entered the tier, and `EnforceCapacityLocked` is called for it. -/
def admission (depth : Nat) (key : BlockKey) (s : State) : TierRecord where
  event := .admitKey key
  victims := victimsOf config t (roundsWithin config depth t s)
  after :=
    match enforceWithin .lazy config depth t s with
    | .ok (_, s) => s
    | .error _ => s

/-- The demotions into the tier in a call for another one. -/
def logWithin : Nat → Tier → State → List TierRecord
  | 0, _, _ => []
  | depth + 1, tier, s =>
    collect (fun a =>
        match roundVictim config tier a, nestedCall config tier a with
        | some v, some (slower, b) =>
          if slower = t then [admission config t depth v.key b] else logWithin depth slower b
        | _, _ => [])
      (enforceBody .lazy config (enforceWithin .lazy config depth) tier)
      (residentCount tier s + 1) s

/-- `RemoveLocked` takes the block of the key out, perhaps of the tier. -/
def departure (key : BlockKey) (s after : State) : List TierRecord :=
  match s.blocks.lookup key with
  | none => []
  | some it => if it.entry.tier = t then [⟨.remove key, [], after⟩] else []

/-- A block that is written again leaves before it enters; where it stays in the tier, the first
event makes no difference (`LRUPolicy.admitKey_remove`). -/
def logPlace (block : KVCacheBlock) (tier : Tier) (tenantId : UInt32) (s : State) :
    List TierRecord :=
  if blockSizeBytes block > config.evictionThresholdOf tier then []
  else
    departure t block.key s (removeLocked config .lazy block.key s) ++
      if tier = t then
        [admission config t 3 block.key (admitLocked .lazy config block tier tenantId s)]
      else logWithin config t 3 tier (admitLocked .lazy config block tier tenantId s)

def logRead (key : BlockKey) (s : State) : List TierRecord :=
  match s.blocks.lookup key, config.fastestTierCache with
  | some it, some fast =>
    if it.entry.tier = fast then []
    else if it.entry.sizeBytes ≤ config.evictionThresholdOf fast then
      departure t key s (removeLocked config .lazy key (touchedState config key it s)) ++
        logWithin config t 3 fast (promotedState .lazy config key it fast s)
    else if it.entry.tier = t then [⟨.touch key, [], touchedState config key it s⟩]
    else []
  | _, _ => []

def logOp : Op → State → List TierRecord :=
  collectOp config (logPlace config t) (logRead config t) (logWithin config t 3)

def logOps : List Op → State → List TierRecord := collectOps config (logOp config t)

end

/-! ## No victim is missing -/

section

variable {D : Type} [DoubleArith D] {config : TierConfig D} {t u : Tier} {a b s : State}
  {v : Victim} {depth : Nat}

@[simp]
theorem victimsOf_append (rounds rounds' : List (Tier × State)) :
    victimsOf config t (rounds ++ rounds') =
      victimsOf config t rounds ++ victimsOf config t rounds' :=
  List.filterMap_append

theorem victimsOf_cons_of_ne (h : u ≠ t) (rounds : List (Tier × State)) :
    victimsOf config t ((u, a) :: rounds) = victimsOf config t rounds :=
  List.filterMap_cons_none (if_neg h)

theorem victimsOf_cons_self (h : roundVictim config t a = some v) (rounds : List (Tier × State)) :
    victimsOf config t ((t, a) :: rounds) = v.key :: victimsOf config t rounds := by
  refine List.filterMap_cons_some ?_
  rw [if_pos rfl, h]
  rfl

theorem victims_departure (key : BlockKey) (s after : State) :
    (departure t key s after).flatMap TierRecord.victims = [] := by
  unfold departure
  split
  next => rfl
  next => split <;> rfl

theorem victims_logWithin (hne : u ≠ t) (depth : Nat) (s : State) :
    (logWithin config t depth u s).flatMap TierRecord.victims =
      victimsOf config t (roundsWithin config depth u s) := by
  induction depth generalizing u s with
  | zero => rfl
  | succ depth ih =>
    rw [logWithin, roundsWithin, map_collect (List.flatMap TierRecord.victims) rfl (by simp),
      map_collect (victimsOf config t) rfl victimsOf_append]
    congr 1
    funext a
    rw [victimsOf_cons_of_ne hne]
    cases hcall : nestedCall config u a with
    | none => split <;> simp_all [victimsOf]
    | some call =>
      obtain ⟨slower, b⟩ := call
      obtain ⟨v, hvictim, -⟩ := nestedCall_eq_some hcall
      rw [hvictim]
      dsimp only
      by_cases hslower : slower = t
      · subst hslower
        simp [admission]
      · rw [if_neg hslower]
        exact ih hslower b

theorem victims_logPlace (block : KVCacheBlock) (tier : Tier) (tenantId : UInt32) (s : State) :
    (logPlace config t block tier tenantId s).flatMap TierRecord.victims =
      victimsOf config t (roundsPlace config block tier tenantId s) := by
  unfold logPlace roundsPlace roundsEnforce
  split
  next => rfl
  next =>
    rw [List.flatMap_append, victims_departure, List.nil_append]
    by_cases htier : tier = t
    · subst htier
      simp [admission]
    · rw [if_neg htier]
      exact victims_logWithin htier 3 _

theorem victims_logRead (hslow : config.fastestTierCache ≠ some t) (key : BlockKey) (s : State) :
    (logRead config t key s).flatMap TierRecord.victims =
      victimsOf config t (roundsRead config key s) := by
  unfold logRead roundsRead roundsEnforce
  cases h : s.blocks.lookup key with
  | none => rfl
  | some it =>
    cases hfast : config.fastestTierCache with
    | none => rfl
    | some fast =>
      dsimp only
      have hne : fast ≠ t := fun heq => hslow (heq ▸ hfast)
      by_cases htier : it.entry.tier = fast
      · simp [htier, victimsOf]
      · by_cases hsize : it.entry.sizeBytes ≤ config.evictionThresholdOf fast
        · rw [if_neg htier, if_pos hsize, if_pos ⟨htier, hsize⟩, List.flatMap_append,
            victims_departure, List.nil_append]
          exact victims_logWithin hne 3 _
        · have hstays : ¬ (it.entry.tier ≠ fast ∧
              it.entry.sizeBytes ≤ config.evictionThresholdOf fast) := fun h => hsize h.2
          rw [if_neg htier, if_neg hsize, if_neg hstays]
          split <;> rfl

theorem victims_collectKeys (fastest : Tier) (keys : List BlockKey) (s : State) :
    (collectKeys config (logPlace config t) fastest keys s).flatMap TierRecord.victims =
      victimsOf config t (collectKeys config (roundsPlace config) fastest keys s) := by
  induction keys generalizing s with
  | nil => rfl
  | cons key rest ih =>
    unfold collectKeys
    split
    next => exact ih s
    next it _ =>
      split
      next => exact ih s
      next =>
        rw [List.flatMap_append, victimsOf_append, victims_logPlace]
        split
        next s' _ => rw [ih s']
        next => rfl

/-- In a good state the enforcement of a tier has no victim. -/
theorem roundsWithin_good (hgood : Good config s) (depth : Nat) (u : Tier) :
    victimsOf config t (roundsWithin config depth u s) = [] ∧
      logWithin config t depth u s = [] := by
  have hnone : roundVictim config u s = none := roundVictim_of_within (hgood.within u)
  have hbody : enforceBody .lazy config (enforceWithin .lazy config (depth - 1)) u s =
      .ok (.inr (.success, s)) := if_pos (hgood.within u)
  cases depth with
  | zero => exact ⟨rfl, rfl⟩
  | succ depth =>
    rw [Nat.add_sub_cancel] at hbody
    rw [roundsWithin, logWithin, collect, collect, hbody, nestedCall_of_none hnone, hnone]
    refine ⟨?_, rfl⟩
    by_cases htier : u = t
    · subst htier
      simp [victimsOf, hnone]
    · simp [victimsOf, htier]

theorem victims_logOp (hslow : config.fastestTierCache ≠ some t) (hgood : Good config s) (op : Op) :
    (logOp config t op s).flatMap TierRecord.victims =
      victimsOf config t (roundsOp config op s) := by
  unfold logOp roundsOp
  cases op with
  | write block target tenantId =>
    rw [collectOp, collectOp]
    cases config.resolveConfiguredTier target with
    | none => rfl
    | some tier => exact victims_logPlace block tier tenantId s
  | read key => exact victims_logRead hslow key s
  | prefetch predicted =>
    rw [collectOp, collectOp]
    cases config.resolveConfiguredTier .hbm with
    | none => rfl
    | some fastest => exact victims_collectKeys fastest predicted s
  | enforceCapacity u =>
    obtain ⟨hrounds, hlog⟩ := roundsWithin_good (t := t) hgood 3 u
    exact (congrArg (List.flatMap TierRecord.victims) hlog).trans hrounds.symm

theorem victims_logOps (hslow : config.fastestTierCache ≠ some t) (ops : List Op)
    (hgood : Good config s) :
    (logOps config t ops s).flatMap TierRecord.victims =
      victimsOf config t (roundsOps config ops s) := by
  induction ops generalizing s with
  | nil => rfl
  | cons op ops ih =>
    have hhead := victims_logOp hslow hgood op
    unfold logOps roundsOps collectOps
    rw [List.flatMap_append, victimsOf_append, hhead]
    split
    next reply s' hop => rw [← roundsOps, ← ih ((runOp_returns hgood op).of_eq hop).2, logOps]
    next => rfl

end

end TieredKVCache.Storage
