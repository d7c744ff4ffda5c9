import TieredKVCache.Bench.AccessLog
import TieredKVCache.Bench.SlowGrowth
import TieredKVCache.Lib.StackDistance

/-!
# Replays with LRU

An LRU pool holds the ids that have been used last (`LRUPolicy.toList_access`), so that an access
hits if and only if fewer ids than the pool has blocks have been accessed since the last access to
its own (`lruReplay_stackDistance`). Two LRU tiers without prefetching hold the same ids as one pool
with the blocks of both, the slow tier those that have not been used for longer; their replays have
the same log (`tieredReplay_eq_pool`).
-/

namespace TieredKVCache.Bench

open Lib CachePolicy LawfulPolicy

variable {α D : Type} [DecidableEq α]

/-- The id has been accessed, and fewer than `n` ids have been since. -/
def Recent (n : Nat) (before : List α) (k : α) : Prop :=
  ∃ first since, before = first ++ k :: since ∧ since.toFinset.card < n

theorem mem_rtake_iff_recent {n : Nat} {uses : List α} {k : α} :
    k ∈ uses.dedup.rtake n ↔ Recent n uses k := mem_rtake_dedup_iff

theorem Recent.mono {n m : Nat} {before : List α} {k : α} (h : Recent n before k) (hle : n ≤ m) :
    Recent m before k := by
  obtain ⟨first, since, hbefore, hfew⟩ := h
  exact ⟨first, since, hbefore, hfew.trans_le hle⟩

namespace LRUPolicy

variable {capacity : Nat} {p : LRUPolicy α}

/-- The key of an access comes last, and the last keys stay. -/
theorem toList_access (k : α) (blockIndex : Int) (h : p.Valid capacity) :
    (p.access k blockIndex).2.2.capacity = capacity ∧ (p.access k blockIndex).2.2.store.toList =
      (p.store.toList.erase k ++ [k]).rtake capacity := by
  unfold access
  split
  next hk =>
    have hlength : (p.store.toList.erase k ++ [k]).length ≤ capacity := by
      have herase := List.length_erase_add_one hk
      have hle : p.store.toList.length ≤ capacity := h.2
      rw [List.length_append, List.length_singleton]
      omega
    exact ⟨h.1, KeyQueue.toList_moveToEnd.trans (rtake_of_length_le hlength).symm⟩
  next hk => exact ⟨h.1, h.1 ▸ (p.admitKey_eq (k := k)).2⟩

/-- The pool holds the last of the keys that have been used. -/
structure Holds (capacity : Nat) (uses : List α) (p : LRUPolicy α) : Prop where
  capacity_eq : p.capacity = capacity
  store : p.store.toList = uses.dedup.rtake capacity

variable {uses : List α}

theorem Holds.valid (h : p.Holds capacity uses) : p.Valid capacity := by
  refine ⟨h.capacity_eq, ?_⟩
  show p.store.toList.length ≤ capacity
  rw [h.store, length_rtake]
  exact Nat.min_le_left _ _

theorem Holds.mem_iff {k : α} (h : p.Holds capacity uses) :
    k ∈ p.store ↔ Recent capacity uses k := by
  rw [← KeyQueue.mem_toList, h.store, mem_rtake_iff_recent]

theorem Holds.access (k : α) (blockIndex : Int) (h : p.Holds capacity uses) :
    (p.access k blockIndex).2.2.Holds capacity (uses ++ [k]) := by
  obtain ⟨hcapacity, hstore⟩ := toList_access k blockIndex h.valid
  refine ⟨hcapacity, ?_⟩
  rw [hstore, h.store, rtake_use k uses.nodup_dedup, dedup_concat]

theorem hit_access (k : α) (blockIndex : Int) (p : LRUPolicy α) :
    (p.access k blockIndex).1 = true ↔ k ∈ p.store := by
  unfold LRUPolicy.access
  split
  next hk => exact iff_of_true rfl hk
  next hk => exact iff_of_false Bool.false_ne_true hk

/-- The hits of an LRU pool. -/
theorem Holds.hitsWhere {p : LRUPolicy α} (h : p.Holds capacity []) (accs : List (α × Nat)) :
    HitsWhere (Recent capacity) (runAccesses accs (.inl p : Policy α)).1 := by
  have hinv := runAccesses_invariant
    (I := fun past (policy : Policy α) => (∃ q : LRUPolicy α, policy = .inl q ∧
      q.Holds capacity (idsOf past)) ∧ HitsWhere (Recent capacity) past)
    (fun {past policy} k blockIndex ⟨⟨q, hpolicy, hholds⟩, hhits⟩ => by
      subst hpolicy
      refine ⟨⟨(q.access k blockIndex).2.2, rfl, ?_⟩, hhits.snoc ?_⟩
      · rw [idsOf_append]
        exact hholds.access k blockIndex
      · exact (hit_access k blockIndex q).trans hholds.mem_iff)
    accs ⟨⟨p, rfl, h⟩, atEvery_nil _⟩
  exact hinv.2

end LRUPolicy

open LRUPolicy

theorem makePolicy_lru_holds {pool : Nat} (h : 1 ≤ pool) :
    Returns (makePolicy "lru" pool : Except String (Policy α)) fun policy =>
      ∃ p : LRUPolicy α, policy = .inl p ∧ p.Holds pool [] :=
  (makePolicy_lru h).mono fun _ ⟨⟨hvalid, hempty⟩, p, hp⟩ => by
    subst hp
    have hstore : p.store.toList = [] := hempty
    exact ⟨p, rfl, hvalid.1, by rw [hstore, List.dedup_nil, List.rtake_nil]⟩

/-- The log of a replay on an LRU pool. -/
def LruLog (plan : List (ReplayStep α)) (pool : Nat) (events : List (AccessEvent α)) : Prop :=
  idsOf events = plan.flatMap (·.record.hashIds) ∧ HitsWhere (Recent pool) events

theorem simulateReplay_lru {D : Type} [DoubleArith D] (plan : List (ReplayStep α)) {pool : Nat}
    (h : 1 ≤ pool) : Returns (simulateReplay plan pool "lru" : Except String (ReplayResult α D))
      fun r => LruLog plan pool r.accessLog.events := by
  refine (makePolicy_lru_holds h).bind fun policy ⟨p, hpolicy, hp⟩ => returns_ok ?_
  subst hpolicy
  show LruLog plan pool ((replaySteps plan (.inl p : Policy α)).flatMap (·.events))
  rw [LruLog, events_replaySteps, idsOf_runAccesses, map_fst_accesses]
  exact ⟨rfl, hp.hitsWhere _⟩

/-- **Stack distance.** In a replay on an LRU pool, an access hits if and only if its id has been
accessed and fewer ids than the pool has blocks have been accessed since. -/
theorem lruReplay_stackDistance (α D : Type) [DecidableEq α] [DoubleArith D]
    (plan : List (ReplayStep α)) (pool : Nat) (hpool : 1 ≤ pool) :
    Returns (simulateReplay plan pool "lru" : Except String (ReplayResult α D)) fun r =>
      idsOf r.accessLog.events = plan.flatMap (·.record.hashIds) ∧
        HitsWhere (Recent pool) r.accessLog.events :=
  simulateReplay_lru plan hpool

theorem lruReplay_stackDistance_twoRequests :
    Returns (simulateReplay twoRequests 2 "lru" : Except String (ReplayResult Nat ℚ)) fun r =>
      idsOf r.accessLog.events = twoRequests.flatMap (·.record.hashIds) ∧
        HitsWhere (Recent 2) r.accessLog.events :=
  lruReplay_stackDistance Nat ℚ twoRequests 2 (by decide)

/-! ## Two tiers as one pool -/

omit [DecidableEq α] in
theorem map_key_popped (victims kept : List α) :
    (popped victims kept).map Eviction.key = victims := by
  induction victims with
  | nil => rfl
  | cons victim victims ih => exact congrArg (victim :: ·) ih

/-- Evictions that the slow tier takes in one after the other join at its end. -/
theorem foldl_admitKey (keys : List α) {p : LRUPolicy α} {capacity : Nat}
    (h : p.Valid capacity) (hnodup : (p.store.toList ++ keys).Nodup) :
    ∃ q : LRUPolicy α, keys.foldl (fun slow k => (admitKey k slow).2) (.inl p : Policy α) = .inl q ∧
      q.capacity = capacity ∧ q.store.toList = (p.store.toList ++ keys).rtake capacity := by
  induction keys generalizing p with
  | nil =>
    refine ⟨p, rfl, h.1, ?_⟩
    rw [List.append_nil]
    exact (rtake_of_length_le h.2).symm
  | cons k keys ih =>
    have hk : k ∉ p.store.toList := fun hmem =>
      List.disjoint_of_nodup_append hnodup hmem List.mem_cons_self
    have hstore : (p.admitKey k).2.store.toList = (p.store.toList ++ [k]).rtake capacity := by
      rw [(p.admitKey_eq (k := k)).2, List.erase_of_not_mem hk, h.1]
      rfl
    have hrest : ((p.admitKey k).2.store.toList ++ keys).Nodup := by
      rw [hstore]
      rw [← List.singleton_append, ← List.append_assoc] at hnodup
      exact hnodup.sublist (((rtake_suffix _ _).sublist).append_right keys)
    obtain ⟨q, hq, hcapacity, hqstore⟩ := ih (valid_admitKey k h).1 hrest
    refine ⟨q, hq, hcapacity, ?_⟩
    rw [hqstore, hstore, rtake_rtake_append, List.append_assoc, List.singleton_append]

namespace TieredSimulator

/-- Two LRU tiers hold the last of the keys that have been used, the fast tier the last of these. -/
structure Stacked (fastBlocks slowBlocks : Nat) (uses : List α) (sim : TieredSimulator α D) :
    Prop where
  tiers : ∃ fast slow : LRUPolicy α, sim.fast = .inl fast ∧ sim.slow = .inl slow ∧
    fast.Holds fastBlocks uses ∧ slow.Valid slowBlocks ∧
      slow.store.toList ++ fast.store.toList = uses.dedup.rtake (fastBlocks + slowBlocks)
  depth : sim.prefetchDepth ≤ 0

variable {fastBlocks slowBlocks : Nat} {uses : List α} {sim : TieredSimulator α D}

/-- A key comes to the fast tier, from the slow one if it is there. -/
theorem admitFast_stacked {fast slow : LRUPolicy α} {k : α} (hfast : fast.Holds fastBlocks uses)
    (hslow : slow.Valid slowBlocks) (hk : k ∉ fast.store)
    (hboth : slow.store.toList ++ fast.store.toList =
      uses.dedup.rtake (fastBlocks + slowBlocks)) (successor : AList fun _ : α => α) {depth : Int}
    (costs : TieredCosts D) (hdepth : depth ≤ 0) :
    (admitFast k ⟨.inl fast, .inl (slow.remove k).2, successor, depth, costs⟩).Stacked fastBlocks
      slowBlocks (uses ++ [k]) := by
  have hcapacity := hfast.capacity_eq
  obtain ⟨hvictims, hstore⟩ := fast.admitKey_eq (k := k)
  rw [List.erase_of_not_mem hk, hcapacity] at hvictims hstore
  -- the evicted keys and the keys that stay
  have hsplit : (fast.admitKey k).1 ++ (fast.admitKey k).2.store.toList =
      fast.store.toList ++ [k] := by
    rw [hvictims, hstore, List.take_append_drop]
  have hnodup : (slow.store.toList ++ fast.store.toList).Nodup :=
    hboth ▸ uses.nodup_dedup.sublist (rtake_suffix _ _).sublist
  have hremoved : ((slow.remove k).2.store.toList ++ (fast.store.toList ++ [k])).Nodup := by
    show (slow.store.toList.erase k ++ (fast.store.toList ++ [k])).Nodup
    rw [← List.append_assoc, ← erase_append_of_notMem hk]
    refine (hnodup.erase k).append (List.nodup_singleton k) fun x hx hxk => ?_
    cases List.mem_singleton.mp hxk
    exact hnodup.not_mem_erase hx
  obtain ⟨q, hq, hqcapacity, hqstore⟩ := foldl_admitKey (fast.admitKey k).1
    (valid_remove k hslow) (hremoved.sublist (List.Sublist.append_left
      (hsplit ▸ (List.sublist_append_left _ _)) _))
  refine ⟨⟨(fast.admitKey k).2, q, rfl, ?_, ⟨hcapacity, ?_⟩, ⟨hqcapacity, ?_⟩, ?_⟩, hdepth⟩
  · rw [← hq, ← map_key_popped (fast.admitKey k).1 (fast.admitKey k).2.store.toList,
      List.foldl_map]
    rfl
  · rw [hstore, dedup_concat, ← rtake_use k uses.nodup_dedup, ← hfast.store,
      List.erase_of_not_mem hk]
    rfl
  · show q.store.toList.length ≤ slowBlocks
    rw [hqstore, length_rtake]
    exact Nat.min_le_left _ _
  · have hall : (uses ++ [k]).dedup.rtake (fastBlocks + slowBlocks) =
        ((slow.remove k).2.store.toList ++ (fast.admitKey k).1 ++
          (fast.admitKey k).2.store.toList).rtake (fastBlocks + slowBlocks) := by
      rw [dedup_concat, ← rtake_use k uses.nodup_dedup, ← hboth, erase_append_of_notMem hk,
        List.append_assoc, List.append_assoc, hsplit]
      rfl
    rw [hall, hqstore]
    have hkept : (fast.admitKey k).2.store.toList.length =
        min fastBlocks (fast.store.toList.length + 1) := by
      rw [hstore, List.length_drop, List.length_append, List.length_singleton]
      omega
    have hlength : fast.store.toList.length = min fastBlocks
        (slow.store.toList.length + fast.store.toList.length) := by
      have hfound := rtake_rtake uses.dedup (Nat.le_add_right fastBlocks slowBlocks)
      rw [← hboth, ← hfast.store] at hfound
      have hcount := congrArg List.length hfound
      rw [length_rtake, List.length_append] at hcount
      exact hcount.symm
    by_cases hroom : fast.store.toList.length < fastBlocks
    · -- the slow tier is empty as long as the fast one has room
      have hslowEmpty : slow.store.toList = [] := List.length_eq_zero_iff.mp (by omega)
      have hnone : (fast.admitKey k).1 = [] := by
        rw [hvictims, List.take_eq_nil_iff, List.length_append, List.length_singleton]
        exact .inl (by omega)
      have hstart : (slow.remove k).2.store.toList = [] := by
        show slow.store.toList.erase k = []
        rw [hslowEmpty]
        rfl
      rw [hnone, hstart, List.append_nil, List.rtake_nil, List.nil_append, rtake_of_length_le]
      omega
    · have hfull : (fast.admitKey k).2.store.toList.length = fastBlocks := by omega
      have happend := rtake_append_length ((slow.remove k).2.store.toList ++ (fast.admitKey k).1)
        (fast.admitKey k).2.store.toList slowBlocks
      rw [hfull] at happend
      exact happend.symm

theorem Stacked.mem_residents {k : α} (h : sim.Stacked fastBlocks slowBlocks uses) :
    k ∈ sim.residents ↔ Recent (fastBlocks + slowBlocks) uses k := by
  obtain ⟨⟨fast, slow, hfast, hslow, -, -, hboth⟩, -⟩ := h
  rw [← mem_rtake_iff_recent, ← hboth, residents, hfast, hslow, List.mem_append, List.mem_append]
  exact or_comm

theorem Stacked.accessBlock (k : α) (h : sim.Stacked fastBlocks slowBlocks uses) :
    (sim.accessBlock k).2.Stacked fastBlocks slowBlocks (uses ++ [k]) := by
  obtain ⟨fast, slow, successor, depth, costs⟩ := sim
  obtain ⟨⟨p, q, rfl, rfl, hp, hq, hboth⟩, hdepth⟩ := h
  unfold TieredSimulator.accessBlock
  split
  next hin =>
    have hk : k ∈ p.store := of_decide_eq_true hin
    have hnodup : (q.store.toList ++ p.store.toList).Nodup :=
      hboth ▸ uses.nodup_dedup.sublist (rtake_suffix _ _).sublist
    have hout : k ∉ q.store.toList := fun hmem => List.disjoint_of_nodup_append hnodup hmem hk
    have hstore := toList_touch hk
    have hlength : (p.store.toList.erase k ++ [k]).length = p.store.toList.length :=
      ((List.perm_append_singleton _ _).trans (List.perm_cons_erase hk).symm).length_eq
    have hcapacity : (p.touch k).capacity = p.capacity := by
      unfold LRUPolicy.touch
      split <;> rfl
    refine ⟨⟨p.touch k, q, rfl, rfl, ⟨hcapacity.trans hp.capacity_eq, ?_⟩, hq, ?_⟩, hdepth⟩
    · rw [hstore, dedup_concat, ← rtake_use k uses.nodup_dedup, ← hp.store,
        rtake_of_length_le (hlength.trans_le hp.valid.2)]
    · have htotal : (q.store.toList ++ p.store.toList).length ≤ fastBlocks + slowBlocks := by
        rw [hboth, length_rtake]
        exact Nat.min_le_left _ _
      rw [hstore, dedup_concat, ← rtake_use k uses.nodup_dedup, ← hboth,
        List.erase_append_right _ hout, List.append_assoc, rtake_of_length_le]
      rw [List.length_append, hlength, ← List.length_append]
      exact htotal
  next hout =>
    have hk : k ∉ p.store := fun hk => hout (decide_eq_true hk)
    split
    next => exact admitFast_stacked hp hq hk hboth successor costs hdepth
    next hslow =>
      have hsame : (q.remove k).2 = q := by
        rw [LRUPolicy.remove, KeyQueue.erase_of_notMem fun hin => hslow (decide_eq_true hin)]
      have hspec := admitFast_stacked hp hq hk hboth successor costs hdepth
      rwa [hsame] at hspec

theorem Stacked.link (prev : Option α) (k : α) (h : sim.Stacked fastBlocks slowBlocks uses) :
    (sim.link prev k).Stacked fastBlocks slowBlocks uses := by
  cases prev with
  | none => exact h
  | some prev => exact ⟨h.tiers, h.depth⟩

/-- The hits of two LRU tiers are those of a pool with the blocks of both. -/
theorem Stacked.hitsWhere [DoubleArith D] (h : sim.Stacked fastBlocks slowBlocks [])
    (plan : List (ReplayStep α)) :
    HitsWhere (Recent (fastBlocks + slowBlocks)) ((tieredSteps plan sim).flatMap (·.events)) := by
  obtain ⟨_, hinv⟩ := tieredSteps_invariant
    (I := fun past sim => sim.Stacked fastBlocks slowBlocks (idsOf past) ∧
      HitsWhere (Recent (fastBlocks + slowBlocks)) past)
    (fun {past sim} hashIds ⟨hstacked, hhits⟩ => by
      rw [prefetchForRequest, if_pos (.inl hstacked.depth)]
      exact ⟨hstacked, hhits⟩)
    (fun {past sim} prev k _ ⟨hstacked, hhits⟩ => by
      refine ⟨?_, hhits.snoc ?_⟩
      · rw [idsOf_append]
        exact (hstacked.accessBlock k).link prev k
      · exact decide_eq_true_iff.trans (accessBlock_ne_miss.trans hstacked.mem_residents))
    plan (List.Subset.refl _)
    ⟨h, atEvery_nil _⟩
  exact hinv.2

end TieredSimulator

/-- **Two LRU tiers are one pool.** Without prefetching, a replay on two LRU tiers has the log of the
replay on one LRU pool with the blocks of both. -/
theorem tieredReplay_eq_pool (α D : Type) [DecidableEq α] [DoubleArith D]
    (plan : List (ReplayStep α)) (fastBlocks slowBlocks : Nat) (hfast : 1 ≤ fastBlocks)
    (hslow : 1 ≤ slowBlocks) :
    Returns (simulateTieredReplay plan fastBlocks slowBlocks "lru" false :
      Except String (ReplayResult α D)) fun tiered =>
        Returns (simulateReplay plan (fastBlocks + slowBlocks : Nat) "lru" :
          Except String (ReplayResult α D)) fun pool => tiered.accessLog = pool.accessLog := by
  obtain ⟨_, hrunFast, fast, rfl, hholds⟩ := makePolicy_lru_holds (α := α) hfast
  obtain ⟨_, hrunSlow, slow, rfl, hslowHolds⟩ := makePolicy_lru_holds (α := α) hslow
  have hstacked : (⟨.inl fast, .inl slow, ∅, 0, TieredCosts.standard⟩ :
      TieredSimulator α D).Stacked fastBlocks slowBlocks [] := by
    refine ⟨⟨fast, slow, rfl, rfl, hholds, hslowHolds.valid, ?_⟩, le_refl _⟩
    rw [hslowHolds.store, hholds.store, List.dedup_nil, List.rtake_nil, List.rtake_nil,
      List.rtake_nil]
    rfl
  have hsim : simulateTieredReplay plan fastBlocks slowBlocks "lru" false =
      .ok (summarize (tieredSteps plan (⟨.inl fast, .inl slow, ∅, 0, TieredCosts.standard⟩ :
        TieredSimulator α D))) := by
    have hnew : TieredSimulator.new fastBlocks slowBlocks "lru" 0 (TieredCosts.standard :
        TieredCosts D) "lru" = _ := TieredSimulator.new_eq hrunFast hrunSlow
    rw [simulateTieredReplay, if_neg Bool.false_ne_true, projectSlowPolicy, hnew]
    rfl
  refine ⟨_, hsim, (simulateReplay_lru plan (Nat.le_add_right_of_le hfast)).mono ?_⟩
  rintro pool ⟨hids, hhits⟩
  have hsame := (hstacked.hitsWhere plan).unique hhits
    ((TieredSimulator.idsOf_tieredSteps plan _).trans hids.symm)
  exact congrArg AccessLog.mk hsame

theorem tieredReplay_eq_pool_twoRequests :
    Returns (simulateTieredReplay twoRequests (1 : Nat) (2 : Nat) "lru" false :
      Except String (ReplayResult Nat ℚ)) fun tiered =>
        Returns (simulateReplay twoRequests (1 + 2 : Nat) "lru" :
          Except String (ReplayResult Nat ℚ)) fun pool => tiered.accessLog = pool.accessLog :=
  tieredReplay_eq_pool Nat ℚ twoRequests 1 2 (by decide) (by decide)

end TieredKVCache.Bench
