import TieredKVCache.Bench.Tiered
import Mathlib.Algebra.Order.Ring.Rat
import Mathlib.Tactic.Linarith

/-!
# Growing the slow tier

Two simulations without prefetching that differ in the capacity of an LRU slow tier alone. Their
fast tiers go through the same states, since nothing of the slow tier comes back to the fast one,
and the smaller slow tier is at all times a suffix of the larger one in the order of use
(`Grown.accessBlock`): a key that is removed from the larger one alone is not in the suffix. So what
hits with the smaller tier hits with the larger one.
-/

namespace TieredKVCache.Bench

open Lib CachePolicy

variable {α D : Type} [DecidableEq α]

/-! ## Suffixes -/

omit [DecidableEq α] in
/-- The last `c'` elements of a list contain the last `c` of a suffix. -/
theorem suffix_drop {l l' : List α} {c c' : Nat} (h : l <:+ l') (hc : c ≤ c') :
    l.drop (l.length - c) <:+ l'.drop (l'.length - c') := by
  have hleft : l.drop (l.length - c) <:+ l' := (List.drop_suffix _ _).trans h
  refine List.suffix_of_suffix_length_le hleft (List.drop_suffix _ _) ?_
  have hlength := h.length_le
  rw [List.length_drop, List.length_drop]
  omega

theorem suffix_erase {l l' : List α} (k : α) (h : l <:+ l') (hnodup : l'.Nodup) :
    l.erase k <:+ l'.erase k := by
  obtain ⟨older, rfl⟩ := h
  by_cases hk : k ∈ older
  · have hout : k ∉ l := List.disjoint_of_nodup_append hnodup hk
    rw [List.erase_append_left _ hk, List.erase_of_not_mem hout]
    exact List.suffix_append _ _
  · rw [List.erase_append_right _ hk]
    exact List.suffix_append _ _

namespace LRUPolicy

/-- `q` has at least the capacity of `p`, and the keys of `p` are the last ones of `q`. -/
structure Extends (p q : LRUPolicy α) : Prop where
  capacity : p.capacity ≤ q.capacity
  store : p.store.toList <:+ q.store.toList

variable {p q : LRUPolicy α} {k : α}

theorem Extends.admitKey (k : α) (h : Extends p q) : Extends (p.admitKey k).2 (q.admitKey k).2 where
  capacity := h.capacity
  store := by
    rw [(p.admitKey_eq (k := k)).2, (q.admitKey_eq (k := k)).2]
    refine suffix_drop ?_ h.capacity
    obtain ⟨older, hstore⟩ := suffix_erase k h.store q.store.nodup
    exact ⟨older, by rw [← hstore, List.append_assoc]⟩

theorem Extends.remove (k : α) (h : Extends p q) : Extends (p.remove k).2 (q.remove k).2 where
  capacity := h.capacity
  store := suffix_erase k h.store q.store.nodup

/-- To remove a key that is not there changes nothing. -/
theorem Extends.remove_right (h : Extends p q) (hk : k ∉ p.store) :
    Extends p (q.remove k).2 := by
  have hremoved := h.remove k
  rwa [show (p.remove k).2 = p by rw [LRUPolicy.remove, KeyQueue.erase_of_notMem hk]] at hremoved

end LRUPolicy

namespace TieredSimulator

/-- The second simulation has the larger slow tier; neither prefetches. -/
structure Grown (costs : TieredCosts D) (sim sim' : TieredSimulator α D) : Prop where
  fast : sim'.fast = sim.fast
  slow : ∃ p q : LRUPolicy α, sim.slow = .inl p ∧ sim'.slow = .inl q ∧ p.Extends q
  costs_eq : sim.costs = costs
  costs_eq' : sim'.costs = costs
  depth : sim.prefetchDepth ≤ 0
  depth' : sim'.prefetchDepth ≤ 0

variable {costs : TieredCosts D} {sim sim' : TieredSimulator α D} {k : α}

/-- The same keys come in from the fast tier. -/
theorem Grown.admitFast (k : α) (h : Grown costs sim sim') :
    Grown costs (sim.admitFast k) (sim'.admitFast k) := by
  obtain ⟨hfast, ⟨p, q, hp, hq, hextends⟩, hcosts, hcosts', hdepth, hdepth'⟩ := h
  rw [TieredSimulator.admitFast, TieredSimulator.admitFast, hfast, hp, hq]
  generalize admitKey k sim.fast = run
  obtain ⟨es, fast⟩ := run
  refine ⟨rfl, ?_, hcosts, hcosts', hdepth, hdepth'⟩
  clear hp hq
  show ∃ p' q' : LRUPolicy α, es.foldl _ _ = _ ∧ es.foldl _ _ = _ ∧ _
  induction es generalizing p q with
  | nil => exact ⟨p, q, rfl, rfl, hextends⟩
  | cons e es ih => exact ih _ _ (hextends.admitKey e.key)

theorem Grown.promote (k : α) (h : Grown costs sim sim') :
    Grown costs (sim.promote k) (sim'.promote k) := by
  obtain ⟨hfast, ⟨p, q, hp, hq, hextends⟩, hcosts, hcosts', hdepth, hdepth'⟩ := h
  refine Grown.admitFast k ⟨hfast, ⟨(p.remove k).2, (q.remove k).2, ?_, ?_, hextends.remove k⟩,
    hcosts, hcosts', hdepth, hdepth'⟩
  · exact congrArg (fun slow => (CachePolicy.remove k slow).2) hp
  · exact congrArg (fun slow => (CachePolicy.remove k slow).2) hq

/-- A promotion in the second simulation where the first has a miss. -/
theorem Grown.promote_right (h : Grown costs sim sim') (hk : contains k sim.slow = false) :
    Grown costs (sim.admitFast k) (sim'.promote k) := by
  obtain ⟨hfast, ⟨p, q, hp, hq, hextends⟩, hcosts, hcosts', hdepth, hdepth'⟩ := h
  rw [hp] at hk
  refine Grown.admitFast k ⟨hfast, ⟨p, (q.remove k).2, hp, ?_,
    hextends.remove_right (of_decide_eq_false hk)⟩, hcosts, hcosts', hdepth, hdepth'⟩
  exact congrArg (fun slow => (CachePolicy.remove k slow).2) hq

theorem Grown.contains_slow (h : Grown costs sim sim') (hk : contains k sim.slow = true) :
    contains k sim'.slow = true := by
  obtain ⟨-, ⟨p, q, hp, hq, hextends⟩, -⟩ := h
  rw [hp] at hk
  rw [hq]
  exact decide_eq_true (hextends.store.subset (of_decide_eq_true hk))

/-- Two accesses are fast hits together, and the second hits where the first does. -/
def NoWorse (kind kind' : AccessKind) : Prop :=
  (kind = .fastHit ↔ kind' = .fastHit) ∧ (kind ≠ .miss → kind' ≠ .miss)

/-- One access to a block. -/
theorem Grown.accessBlock (k : α) (h : Grown costs sim sim') :
    NoWorse (sim.accessBlock k).1 (sim'.accessBlock k).1 ∧
      Grown costs (sim.accessBlock k).2 (sim'.accessBlock k).2 := by
  unfold TieredSimulator.accessBlock
  rw [h.fast]
  by_cases hfast : contains k sim.fast = true
  · rw [if_pos hfast, if_pos hfast]
    exact ⟨⟨.rfl, id⟩, rfl, h.slow, h.costs_eq, h.costs_eq', h.depth, h.depth'⟩
  · rw [if_neg hfast, if_neg hfast]
    by_cases hslow : contains k sim.slow = true
    · rw [if_pos hslow, if_pos (h.contains_slow hslow)]
      exact ⟨⟨.rfl, id⟩, h.promote k⟩
    · rw [if_neg hslow]
      by_cases hslow' : contains k sim'.slow = true
      · rw [if_pos hslow']
        exact ⟨by simp [NoWorse], h.promote_right (Bool.eq_false_iff.mpr hslow)⟩
      · rw [if_neg hslow']
        exact ⟨⟨.rfl, id⟩, h.admitFast k⟩

theorem Grown.link (prev : Option α) (k : α) (h : Grown costs sim sim') :
    Grown costs (sim.link prev k) (sim'.link prev k) := by
  cases prev with
  | none => exact h
  | some prev => exact ⟨h.fast, h.slow, h.costs_eq, h.costs_eq', h.depth, h.depth'⟩

theorem Grown.accessBlocks (prev : Option α) (hashIds : List α) (h : Grown costs sim sim') :
    List.Forall₂ NoWorse (accessBlocks prev hashIds sim).1 (accessBlocks prev hashIds sim').1 ∧
      Grown costs (accessBlocks prev hashIds sim).2 (accessBlocks prev hashIds sim').2 := by
  induction hashIds generalizing prev sim sim' with
  | nil => exact ⟨.nil, h⟩
  | cons k hashIds ih =>
    obtain ⟨hkind, hnext⟩ := h.accessBlock k
    obtain ⟨hkinds, hfinal⟩ := ih (some k) (hnext.link prev k)
    exact ⟨.cons hkind hkinds, hfinal⟩

/-- Without prefetching a request is its accesses. -/
theorem processRequest_of_depth [DoubleArith D] (hashIds : List α) (h : sim.prefetchDepth ≤ 0) :
    sim.processRequest hashIds =
      (outcome (accessBlocks none hashIds sim).2.costs (accessBlocks none hashIds sim).1,
        (accessBlocks none hashIds sim).2) := by
  rw [processRequest, prefetchForRequest, if_pos (.inl h)]

theorem Grown.processRequests [DoubleArith D] (requests : List (List α))
    (h : Grown costs sim sim') :
    Grown costs (processRequests requests sim).2 (processRequests requests sim').2 := by
  induction requests generalizing sim sim' with
  | nil => exact h
  | cons hashIds requests ih =>
    have hnext := (h.accessBlocks none hashIds).2
    rw [TieredSimulator.processRequests, TieredSimulator.processRequests,
      processRequest_of_depth _ h.depth, processRequest_of_depth _ h.depth']
    exact ih hnext

/-! ## Counts and costs -/

theorem count_kinds {kinds kinds' : List AccessKind} (h : List.Forall₂ NoWorse kinds kinds') :
    kinds'.count .fastHit = kinds.count .fastHit ∧ kinds'.count .miss ≤ kinds.count .miss ∧
      kinds'.count .miss + kinds'.count .slowHit = kinds.count .miss + kinds.count .slowHit := by
  induction h with
  | nil => exact ⟨rfl, Nat.le_refl _, rfl⟩
  | @cons kind kind' _ _ hkind _ ih =>
    obtain ⟨hfast, hmiss⟩ := hkind
    cases kind <;> cases kind' <;> simp at hfast hmiss <;> simp only [List.count_cons] <;>
      simp <;> omega

theorem count_le_length (kinds : List AccessKind) :
    kinds.count .miss + kinds.count .slowHit ≤ kinds.length := by
  induction kinds with
  | nil => exact Nat.le_refl _
  | cons kind kinds ih =>
    cases kind <;> simp <;> omega

/-- The arithmetic computes the cost of up to `n` blocks without rounding, and compares numbers by
their values. -/
structure Exact [DoubleArith D] (value : D → ℚ) (costs : TieredCosts D) (n : Nat) : Prop where
  lt_iff : ∀ x y : D, x < y ↔ value x < value y
  cost : ∀ misses slowHits : Nat, misses + slowHits ≤ n →
    value (DoubleArith.ofSize misses * costs.prefillMsPerBlock +
      DoubleArith.ofSize slowHits * costs.promoteMsPerBlock) =
      misses * value costs.prefillMsPerBlock + slowHits * value costs.promoteMsPerBlock

/-- Rational arithmetic does not round. -/
theorem Exact.rat (costs : TieredCosts ℚ) (n : Nat) : Exact id costs n where
  lt_iff _ _ := .rfl
  cost _ _ _ := rfl

theorem Exact.value_ttftMs [DoubleArith D] {value : D → ℚ} {n : Nat} {kinds : List AccessKind}
    (h : Exact value costs n) (hn : kinds.length ≤ n) :
    value (outcome costs kinds).ttftMs =
      max (kinds.count .miss * value costs.prefillMsPerBlock +
        kinds.count .slowHit * value costs.promoteMsPerBlock) (value costs.prefillMsPerBlock) := by
  have hcost := h.cost _ _ ((count_le_length kinds).trans hn)
  unfold outcome
  dsimp only
  split
  next hlt => rw [max_eq_right (hcost ▸ ((h.lt_iff _ _).mp hlt).le)]
  next hlt =>
    rw [hcost, max_eq_left (hcost ▸ not_lt.mp fun hvalue => hlt ((h.lt_iff _ _).mpr hvalue))]

/-- A promotion in place of a miss does not cost more. -/
theorem Exact.ttft_le [DoubleArith D] {value : D → ℚ} {n : Nat} {kinds kinds' : List AccessKind}
    (h : Exact value costs n) (hn : kinds.length ≤ n) (hkinds : List.Forall₂ NoWorse kinds kinds')
    (hcosts : value costs.promoteMsPerBlock ≤ value costs.prefillMsPerBlock) :
    ¬ (outcome costs kinds).ttftMs < (outcome costs kinds').ttftMs := by
  obtain ⟨-, hmisses, htotal⟩ := count_kinds hkinds
  rw [h.lt_iff, not_lt, h.value_ttftMs hn, h.value_ttftMs (hkinds.length_eq ▸ hn)]
  refine max_le_max ?_ (le_refl _)
  have hmisses' : (kinds'.count .miss : ℚ) ≤ kinds.count .miss := by exact_mod_cast hmisses
  have hslow : (kinds'.count .slowHit : ℚ) =
      kinds.count .miss + kinds.count .slowHit - kinds'.count .miss := by
    rw [eq_sub_iff_add_eq, add_comm]
    exact_mod_cast htotal
  rw [hslow]
  nlinarith [mul_nonneg (sub_nonneg.mpr hmisses') (sub_nonneg.mpr hcosts)]

/-! ## Two capacities -/

/-- How the accesses of a request go. -/
def classify (hashIds : List α) (sim : TieredSimulator α D) : List AccessKind :=
  (accessBlocks none hashIds (prefetchForRequest hashIds sim).2).1

/-- A request goes no worse in the second simulation. -/
structure RequestNoWorse [DoubleArith D] (costs : TieredCosts D) (hashIds : List α)
    (sim sim' : TieredSimulator α D) : Prop where
  kinds : List.Forall₂ NoWorse (classify hashIds sim) (classify hashIds sim')
  fastHits : (sim'.processRequest hashIds).1.fastHits = (sim.processRequest hashIds).1.fastHits
  misses : (sim'.processRequest hashIds).1.misses ≤ (sim.processRequest hashIds).1.misses
  ttft : ∀ value : D → ℚ, Exact value costs hashIds.length →
    value costs.promoteMsPerBlock ≤ value costs.prefillMsPerBlock →
    ¬ (sim.processRequest hashIds).1.ttftMs < (sim'.processRequest hashIds).1.ttftMs

theorem length_accessBlocks (prev : Option α) (hashIds : List α) (sim : TieredSimulator α D) :
    (accessBlocks prev hashIds sim).1.length = hashIds.length := by
  induction hashIds generalizing prev sim with
  | nil => rfl
  | cons k hashIds ih => exact congrArg Nat.succ (ih _ _)

theorem Grown.requestNoWorse [DoubleArith D] (hashIds : List α) (h : Grown costs sim sim') :
    RequestNoWorse costs hashIds sim sim' := by
  obtain ⟨hkinds, hfinal⟩ := h.accessBlocks none hashIds
  obtain ⟨hfast, hmisses, -⟩ := count_kinds hkinds
  have hrun := processRequest_of_depth hashIds h.depth
  have hrun' := processRequest_of_depth hashIds h.depth'
  rw [hfinal.costs_eq] at hrun
  rw [hfinal.costs_eq'] at hrun'
  refine ⟨?_, ?_, ?_, fun value hexact hcosts => ?_⟩
  · rw [classify, classify, prefetchForRequest, prefetchForRequest, if_pos (.inl h.depth),
      if_pos (.inl h.depth')]
    exact hkinds
  · rw [hrun, hrun']
    exact hfast
  · rw [hrun, hrun']
    exact hmisses
  · rw [hrun, hrun']
    exact hexact.ttft_le (length_accessBlocks none hashIds sim).le hkinds hcosts

omit [DecidableEq α] in
theorem new_eq {name : String} {fastBlocks slowBlocks : Nat} {fast slow : Policy α}
    (hfast : makePolicy name fastBlocks = .ok fast)
    (hslow : makePolicy "lru" slowBlocks = .ok slow) :
    new fastBlocks slowBlocks name 0 costs "lru" =
      .ok { fast, slow, successor := ∅, prefetchDepth := 0, costs } := by
  rw [new, hfast, if_neg (by decide), hslow]
  rfl

theorem new_grown {name : String} {fastBlocks slowBlocks slowBlocks' : Nat}
    (hname : name ∈ (POLICIES α).map Prod.fst) (hfast : 1 ≤ fastBlocks) (hslow : 1 ≤ slowBlocks)
    (hle : slowBlocks ≤ slowBlocks') :
    Returns (new fastBlocks slowBlocks name 0 costs "lru" : Except String (TieredSimulator α D))
      fun sim => Returns (new fastBlocks slowBlocks' name 0 costs "lru" :
        Except String (TieredSimulator α D)) (Grown costs sim) := by
  obtain ⟨fast, hrun, -⟩ := makePolicy_fresh hname hfast
  obtain ⟨_, hp, ⟨hvalid, hempty⟩, p, rfl⟩ := makePolicy_lru (α := α) hslow
  obtain ⟨_, hq, ⟨hvalid', -⟩, q, rfl⟩ := makePolicy_lru (α := α) (hslow.trans hle)
  have hstore : p.store.toList <:+ q.store.toList := by
    rw [show p.store.toList = [] from hempty]
    exact List.nil_suffix
  refine ⟨_, new_eq hrun hp, _, new_eq hrun hq, rfl, ⟨p, q, rfl, rfl, ?_, hstore⟩, rfl, rfl,
    le_refl _, le_refl _⟩
  exact (hvalid.1.trans_le hle).trans_eq hvalid'.1.symm

/-- **Growth of the slow tier.** Without prefetching, a larger LRU slow tier leaves the fast hits as
they are, keeps every hit, adds no miss, and makes no request dearer where its cost is computed
without rounding. -/
theorem slowTier_growth (α : Type) {D : Type} [DecidableEq α] [DoubleArith D] (name : String)
    (fastBlocks slowBlocks slowBlocks' : Nat) (costs : TieredCosts D)
    (hname : name ∈ (POLICIES α).map Prod.fst) (hfast : 1 ≤ fastBlocks) (hslow : 1 ≤ slowBlocks)
    (hle : slowBlocks ≤ slowBlocks') :
    Returns (new fastBlocks slowBlocks name 0 costs "lru" : Except String (TieredSimulator α D))
      fun sim => Returns (new fastBlocks slowBlocks' name 0 costs "lru" :
        Except String (TieredSimulator α D)) fun sim' =>
          ∀ requests hashIds, RequestNoWorse costs hashIds (processRequests requests sim).2
            (processRequests requests sim').2 :=
  (new_grown hname hfast hslow hle).mono fun _ h => h.mono fun _ hgrown requests hashIds =>
    (hgrown.processRequests requests).requestNoWorse hashIds

theorem slowTier_growth_sieve :
    Returns (new 4 6 "sieve" 0 TieredCosts.standard "lru" : Except String (TieredSimulator Nat ℚ))
      fun sim => Returns (new 4 9 "sieve" 0 TieredCosts.standard "lru" :
        Except String (TieredSimulator Nat ℚ)) fun sim' =>
          ∀ hashIds,
            ¬ (sim.processRequest hashIds).1.ttftMs < (sim'.processRequest hashIds).1.ttftMs :=
  (slowTier_growth Nat "sieve" 4 6 9 TieredCosts.standard (by decide) (by decide) (by decide)
    (by decide)).mono fun _ h => h.mono fun _ hgrown hashIds =>
      (hgrown [] hashIds).ttft id (.rat _ _) (by decide +kernel)

/-- 0.1. -/
def tenth : Double := ⟨roundDouble (1 / 10)⟩

/-- The time to the first token of a request with two slow hits at most, at 0.1 ms for a miss and
for a promotion. -/
def tenthRun (slowBlocks : Int) : Except String Double :=
  (new 1 slowBlocks "lru" 0 ⟨tenth, tenth⟩ "lru").map fun sim =>
    (processRequest [1, 3, 10, 11, 12, 13] (processRequests [[1, 2, 3]] sim).2).1.ttftMs

/-- Five misses and a promotion cost less than four misses and two promotions, by rounding: 0.6 and
0.6000000000000001. -/
theorem tenthRun_dearer : (0 : Double) ≤ tenth ∧ ∃ t t', (tenthRun 1).toOption = some t ∧
    (tenthRun 2).toOption = some t' ∧ t < t' :=
  ⟨by decide +kernel, ⟨5404319552844595 / 9007199254740992⟩, ⟨1351079888211149 / 2251799813685248⟩,
    by decide +kernel, by decide +kernel, by decide +kernel⟩

end TieredSimulator

end TieredKVCache.Bench
