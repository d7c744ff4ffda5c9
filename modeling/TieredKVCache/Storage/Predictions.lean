import TieredKVCache.Lib.Distinct
import TieredKVCache.Lib.Walk
import TieredKVCache.Storage.PrefixPrefetcher

/-!
# Predictions on arbitrary graphs

`PredictChain` is a walk along the edges that ends when it is back at its head (`follow_eq_chain`).
On a cycle that avoids the head it goes round until the budget is used up, so that it predicts
distinct keys if and only if it does not enter such a cycle (`predictChain_cycleSafe_iff`).
`PredictChainMulti` walks from each anchor and leaves out the keys it has seen, wherever the walks
merge: it is what the single predictions give without later duplicates
(`predictChainMulti_merges`).
-/

namespace TieredKVCache.Storage.PrefixPrefetcher

open Lib

variable {successor : AList fun _ : BlockKey => BlockKey} {head cursor : BlockKey} {budget : Nat}

/-- The loop of `PredictChain` is a walk along the edges. -/
theorem follow_eq_chain (successor : AList fun _ : BlockKey => BlockKey) (head : BlockKey)
    (budget : Nat) (cursor : BlockKey) :
    follow successor head budget cursor =
      chain (fun key => successor.lookup key) head budget cursor := by
  induction budget generalizing cursor with
  | zero => rfl
  | succ budget ih =>
    rw [follow, chain]
    cases successor.lookup cursor with
    | none => rfl
    | some next =>
      dsimp only
      rw [ih]

/-! ## One head -/

/-- At most `budget` keys, all different, and not the head. -/
structure CycleSafe (head : BlockKey) (budget : Nat) (keys : List BlockKey) : Prop where
  bounded : keys.length ≤ budget
  headless : head ∉ keys
  distinct : keys.Nodup

/-- The edges lead from the head into a cycle that the head is not on, and `budget` steps are
enough to get there and go round it. -/
def EntersCycle (head : BlockKey) (budget : Nat) (p : PrefixPrefetcher) : Prop :=
  LeadsIntoCycle (fun key => p.successor.lookup key) budget head

theorem length_predictChain_le (head : BlockKey) (budget : Nat) (p : PrefixPrefetcher) :
    (p.predictChain head budget).length ≤ budget := by
  rw [predictChain, follow_eq_chain]
  exact length_chain_le

theorem nodup_predictChain_iff (head : BlockKey) (budget : Nat) (p : PrefixPrefetcher) :
    (p.predictChain head budget).Nodup ↔ ¬ p.EntersCycle head budget := by
  rw [predictChain, follow_eq_chain, nodup_chain_iff, rejoins_iff_leadsIntoCycle]
  exact Iff.rfl

/-- **Cycles.** After any calls, a prediction is safe exactly if its walk does not go round a cycle
that avoids the head. -/
theorem predictChain_cycleSafe_iff (maxEdges : Nat) (history : List (List BlockKey))
    (head : BlockKey) (budget : Nat) :
    CycleSafe head budget ((recorded maxEdges history).predictChain head budget) ↔
      ¬ (recorded maxEdges history).EntersCycle head budget := by
  set p := recorded maxEdges history
  refine ⟨fun hsafe => (p.nodup_predictChain_iff head budget).mp hsafe.distinct, fun hacyclic => ?_⟩
  refine ⟨p.length_predictChain_le head budget, ?_,
    (p.nodup_predictChain_iff head budget).mpr hacyclic⟩
  rw [predictChain, follow_eq_chain]
  exact notMem_chain

/-- The second and the third key follow each other, and the first leads to them. -/
theorem tailedCycle_repeats : ¬ CycleSafe ⟨1, 0, 1⟩ 3
    ((recorded 16 [[⟨1, 0, 1⟩, ⟨2, 0, 1⟩, ⟨3, 0, 1⟩, ⟨2, 0, 1⟩]]).predictChain ⟨1, 0, 1⟩ 3) := by
  intro hsafe
  have hdistinct := hsafe.distinct
  revert hdistinct
  decide

/-! ## Many anchors -/

/-- The inner loop adds the keys of a prediction one by one. -/
theorem followMerged_eq_foldl (successor : AList fun _ : BlockKey => BlockKey)
    (anchor : BlockKey) (budget : Nat) (cursor : BlockKey) (merged : List BlockKey) :
    followMerged successor anchor budget cursor merged =
      (follow successor anchor budget cursor).foldl addNew merged := by
  induction budget generalizing cursor merged with
  | zero => rfl
  | succ budget ih =>
    rw [followMerged, follow]
    cases successor.lookup cursor with
    | none => rfl
    | some next =>
      dsimp only
      split
      next => rfl
      next => exact ih next (addNew merged next)

theorem predictChainMulti_eq_foldl (anchors : List BlockKey) (budget : Nat)
    (p : PrefixPrefetcher) : p.predictChainMulti anchors budget =
      (anchors.flatMap fun anchor => p.predictChain anchor budget).foldl addNew [] := by
  rw [predictChainMulti, List.foldl_flatMap]
  simp only [followMerged_eq_foldl]
  rfl

/-- What several predictions merge to. -/
structure Merges (anchors : List BlockKey) (budget : Nat) (p : PrefixPrefetcher)
    (merged : List BlockKey) : Prop where
  eq : merged = (anchors.flatMap fun anchor => p.predictChain anchor budget).eraseDups
  distinct : merged.Nodup
  bounded : merged.length ≤ anchors.length * budget

/-- **Anchors.** After any calls, the prediction for several anchors consists of the first
occurrences of the keys in the predictions for the anchors, one after the other. -/
theorem predictChainMulti_merges (maxEdges : Nat) (history : List (List BlockKey))
    (anchors : List BlockKey) (budget : Nat) :
    Merges anchors budget (recorded maxEdges history)
      ((recorded maxEdges history).predictChainMulti anchors budget) := by
  set p := recorded maxEdges history
  have heq : p.predictChainMulti anchors budget =
      (anchors.flatMap fun anchor => p.predictChain anchor budget).eraseDups := by
    rw [predictChainMulti_eq_foldl, eraseDups_eq_foldl]
  refine ⟨heq, ?distinct, ?bounded⟩
  case distinct =>
    rw [heq]
    exact nodup_eraseDups _
  case bounded =>
    calc (p.predictChainMulti anchors budget).length
        ≤ (anchors.flatMap fun anchor => p.predictChain anchor budget).length := by
          rw [heq]
          exact length_eraseDups_le _
      _ ≤ anchors.length * budget :=
          length_flatMap_le (fun anchor => p.length_predictChain_le anchor budget) anchors

/-- Two walks that merge, and go round one cycle. -/
example : (recorded 16 [[⟨1, 0, 1⟩, ⟨3, 0, 1⟩, ⟨4, 0, 1⟩, ⟨3, 0, 1⟩],
    [⟨2, 0, 1⟩, ⟨4, 0, 1⟩]]).predictChainMulti [⟨1, 0, 1⟩, ⟨2, 0, 1⟩] 5 =
      [⟨3, 0, 1⟩, ⟨4, 0, 1⟩] := by
  decide

end TieredKVCache.Storage.PrefixPrefetcher
