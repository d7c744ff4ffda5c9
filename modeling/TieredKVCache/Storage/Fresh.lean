import Mathlib.Data.List.Nodup
import TieredKVCache.Storage.Runs

/-!
# Fresh runs

`RemoveLocked` leaves the entries of a key in the queues of the fastest tier, to be skipped
when they are popped. The test for that looks at the block of the key alone, so that an old
entry counts again once the key is back in the queue. A call is fresh if it appends no key to a
queue that still has an entry of the key: `PlaceLocked` and the promotion by `Read` append
to a queue, and so does the scan when it moves a block to the main queue. The conditions are
evaluated in the states before these steps. Fresh calls keep both queues free of duplicates
(`Tidy`).
-/

namespace TieredKVCache.Storage

open Lib

/-! ## Fresh calls -/

section

variable {D : Type} [DoubleArith D] (config : TierConfig D)

/-- If the next round of the scan moves a block to the main queue, its key is new there. -/
def freshRound (fast : Tier) (s : State) : Bool :=
  match s.s3SmallFifo with
  | [] => true
  | key :: _ =>
    match s.blocks.lookup key with
    | none => true
    | some it =>
      decide (FromSmall config fast s ∧ InSmall config it ∧ 0 < it.s3Freq →
        key ∉ s.s3MainFifo)

/-- Every round of a call of `PickS3VictimLocked` is fresh. -/
def freshScan (fast : Tier) (s : State) : Bool :=
  along (freshRound config fast) (s3Body config fast) (s3Measure s + 1) s

/-- The next choice of a victim is fresh; it scans the queues if the tier is over its
threshold and the fastest one, and no tenant is over its share. -/
def freshVictim (tier : Tier) (s : State) : Bool :=
  if config.evictionThresholdOf tier < s.usedBytes tier ∧ config.fastestTierCache = some tier ∧
      (if config.quotaEnabledLocked then pickQuotaVictimLocked config tier s else none) = none then
    freshScan config tier s
  else true

/-- Every round of `EnforceCapacityLocked` is fresh. The recursive calls scan no queue. -/
def freshWithin : Nat → Tier → State → Bool
  | 0, _, _ => true
  | depth + 1, tier, s =>
    along (freshVictim config tier)
      (enforceBody .lazy config (enforceWithin .lazy config depth) tier)
      (residentCount tier s + 1) s

def freshEnforce (tier : Tier) (s : State) : Bool := freshWithin config 3 tier s

def freshPlace (block : KVCacheBlock) (tier : Tier) (tenantId : UInt32) (s : State) : Bool :=
  if config.fastestTierCache = some tier ∧
      blockSizeBytes block ≤ config.evictionThresholdOf tier then
    decide (block.key ∉ if Reused block.key s then s.s3MainFifo else s.s3SmallFifo) &&
      freshEnforce config tier (admitLocked .lazy config block tier tenantId s)
  else true

def freshWrite (block : KVCacheBlock) (target : Tier) (tenantId : UInt32) (s : State) : Bool :=
  match config.resolveConfiguredTier target with
  | none => true
  | some tier => freshPlace config block tier tenantId s

def freshRead (key : BlockKey) (s : State) : Bool :=
  match s.blocks.lookup key, config.fastestTierCache with
  | some it, some fast =>
    if it.entry.tier ≠ fast ∧ it.entry.sizeBytes ≤ config.evictionThresholdOf fast then
      decide (key ∉ s.s3MainFifo) &&
        freshEnforce config fast (promotedState .lazy config key it fast s)
    else true
  | _, _ => true

/-- The loop of `Prefetch`, each placement in the state in which it happens. -/
def freshKeys (fastest : Tier) : List BlockKey → State → Bool
  | [], _ => true
  | key :: rest, s =>
    match s.blocks.lookup key with
    | none => freshKeys fastest rest s
    | some it =>
      if it.entry.tier = fastest ∨
          config.evictionThresholdOf fastest < blockSizeBytes it.block then
        freshKeys fastest rest s
      else
        freshPlace config it.block fastest it.entry.tenantId s &&
          match placeLocked .lazy config it.block fastest it.entry.tenantId s with
          | .ok (_, s) => freshKeys fastest rest s
          | .error _ => true

def freshPrefetch (predicted : List BlockKey) (s : State) : Bool :=
  match config.resolveConfiguredTier .hbm with
  | none => true
  | some fastest => freshKeys config fastest predicted s

/-- Between two public calls every tier is within its threshold, so that there is nothing to
enforce. -/
def freshOp : Op → State → Bool
  | .write block target tenantId, s => freshWrite config block target tenantId s
  | .read key, s => freshRead config key s
  | .prefetch predicted, s => freshPrefetch config predicted s
  | .enforceCapacity _, _ => true

/-- Every call of a run is fresh in the state in which it is made. -/
def freshOps : List Op → State → Bool
  | [], _ => true
  | op :: ops, s =>
    freshOp config op s &&
      match runOp .lazy config op s with
      | .ok (_, s) => freshOps ops s
      | .error _ => true

end

/-! ## Queues without duplicates -/

structure Tidy (s : State) : Prop where
  small : s.s3SmallFifo.Nodup
  main : s.s3MainFifo.Nodup

theorem tidy_fresh : Tidy State.fresh := ⟨List.nodup_nil, List.nodup_nil⟩

theorem nodup_push {q : List BlockKey} {k : BlockKey} (hq : q.Nodup) (hk : k ∉ q) :
    (q ++ [k]).Nodup := by
  rw [List.nodup_append]
  refine ⟨hq, List.nodup_singleton k, ?_⟩
  intro a ha b hb heq
  rw [List.mem_singleton.mp hb] at heq
  exact hk (heq ▸ ha)

section

variable {D : Type} {config : TierConfig D} {fast : Tier} {key : BlockKey} {it : StoredBlock}
  {s s' : State}

theorem freshRound_spec (hfresh : freshRound config fast s = true) (hfrom : FromSmall config fast s)
    {rest : List BlockKey} (hq : s.s3SmallFifo = key :: rest) (h : s.blocks.lookup key = some it)
    (hlive : InSmall config it) (hfreq : 0 < it.s3Freq) : key ∉ s.s3MainFifo := by
  unfold freshRound at hfresh
  rw [hq] at hfresh
  dsimp only at hfresh
  rw [h] at hfresh
  exact of_decide_eq_true hfresh ⟨hfrom, hlive, hfreq⟩

/-- A round of the scan pops an entry, and appends its key to the main queue at most. -/
theorem S3Step.tidy {r : State ⊕ (Option BlockKey × State)} (h : S3Step config fast s r)
    (htidy : Tidy s) (hfresh : freshRound config fast s = true) :
    Tidy (r.elim id Prod.snd) := by
  have hsmall := htidy.small
  have hmain := htidy.main
  cases h with
  | empty => exact htidy
  | staleSmall hfrom hq hstale =>
    rw [hq, List.nodup_cons] at hsmall
    exact ⟨hsmall.2, hmain⟩
  | promote hfrom hq h hlive hfreq =>
    have hnew := freshRound_spec hfresh hfrom hq h hlive hfreq
    rw [hq, List.nodup_cons] at hsmall
    exact ⟨hsmall.2, nodup_push hmain hnew⟩
  | victimSmall hfrom hq h hlive hfreq =>
    rw [hq, List.nodup_cons] at hsmall
    rw [ghostInsertLocked_eq]
    exact ⟨hsmall.2, hmain⟩
  | staleMain hfrom hq hstale =>
    rw [hq, List.nodup_cons] at hmain
    exact ⟨hsmall, hmain.2⟩
  | second hfrom hq h hlive hfreq =>
    rw [hq, List.nodup_cons] at hmain
    exact ⟨hsmall, nodup_push hmain.2 hmain.1⟩
  | victimMain hfrom hq h hlive hfreq =>
    rw [hq, List.nodup_cons] at hmain
    exact ⟨hsmall, hmain.2⟩

theorem Tidy.removeLocked (htidy : Tidy s) (config : TierConfig D) (key : BlockKey) :
    Tidy (removeLocked config .lazy key s) := by
  constructor
  · rw [removeLocked_s3SmallFifo_lazy]
    exact htidy.small
  · rw [removeLocked_s3MainFifo_lazy]
    exact htidy.main

theorem Tidy.enter (htidy : Tidy s) (hsmall : InSmall config it → it.entry.key ∉ s.s3SmallFifo)
    (hmain : InMain config it → it.entry.key ∉ s.s3MainFifo) : Tidy (enter config it s) := by
  constructor
  · show (if InSmall config it then _ else _ : List BlockKey).Nodup
    split
    next hlive => exact nodup_push htidy.small (hsmall hlive)
    next => exact htidy.small
  · show (if InMain config it then _ else _ : List BlockKey).Nodup
    split
    next hlive => exact nodup_push htidy.main (hmain hlive)
    next => exact htidy.main

end

end TieredKVCache.Storage
