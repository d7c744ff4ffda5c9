import TieredKVCache.Bench.PoolSizes
import TieredKVCache.Lib.Retention

/-!
# What an LRU slow tier guarantees

Without prefetching, an access brings its block to the fast tier, and what the fast tier evicts for
it goes to the end of the slow one (`Exclusive.accessBlock_lifted`). Whichever policy decides that,
a block stays in the two tiers until as many other blocks have been accessed as the slow tier has
room for: the replay keeps every hit of an LRU pool of the size of the slow tier
(`tieredReplay_floor`).
-/

namespace TieredKVCache.Bench

open Lib CachePolicy LawfulPolicy LRUPolicy

variable {α D : Type} [DecidableEq α]

/-- The blocks that were accessed last hit. -/
def RecentHits (slots : Nat) (events : List (AccessEvent α)) : Prop :=
  AtEvery (fun before event => Recent slots (idsOf before) event.hashId → event.hit = true) events

namespace TieredSimulator

/-- The keys of the fast tier, as a set. -/
def fastKeys (sim : TieredSimulator α D) : Finset α := (CachePolicy.residents sim.fast).toFinset

/-- The keys of the slow tier, in its order. -/
def slowKeys (sim : TieredSimulator α D) : List α := CachePolicy.residents sim.slow

variable {fastBlocks slowBlocks : Nat} {sim : TieredSimulator α D} {k : α}

theorem Exclusive.parts (h : sim.Exclusive fastBlocks slowBlocks) :
    Parts slowBlocks sim.fastKeys sim.slowKeys where
  nodup := LawfulPolicy.nodup h.slow
  disjoint _ hx hmem := List.disjoint_of_nodup_append h.nodup (List.mem_toFinset.mp hmem) hx
  length_le := length_le h.slow

/-- The key of an admission comes up; the slow tier has let it go before. -/
theorem admitFast_lifted (sim : TieredSimulator α D) {q : LRUPolicy α} {lower : List α}
    (hfast : Valid fastBlocks sim.fast) (hslow : sim.slow = .inl q) (hq : q.Valid slowBlocks)
    (hnodup : sim.residents.Nodup) (hlower : q.store.toList = lower.erase k)
    (hkfast : k ∉ CachePolicy.residents sim.fast) (hkslow : k ∉ q.store.toList) :
    Lifted slowBlocks k sim.fastKeys lower (sim.admitFast k).fastKeys
      (sim.admitFast k).slowKeys := by
  obtain ⟨-, hadmission⟩ := admitKey_spec k hfast
  unfold fastKeys slowKeys
  rw [admitFast, hslow]
  generalize admitKey k sim.fast = run at hadmission
  obtain ⟨es, fast⟩ := run
  dsimp only at hadmission ⊢
  cases hadmission with
  | resident hin => exact absurd hin hkfast
  | stored _ hperm =>
    have hkeys : (CachePolicy.residents fast).toFinset =
        insert k (CachePolicy.residents sim.fast).toFinset := by
      rw [List.toFinset_eq_of_perm _ _ hperm, List.toFinset_cons]
    have hstore : CachePolicy.residents (.inl q : Policy α) = lower.erase k := hlower
    rw [hkeys, List.foldl_nil, hstore]
    exact .kept
  | @displaced _ _ victim _ _ hperm =>
    have hall : (victim :: CachePolicy.residents fast).Nodup :=
      hperm.nodup_iff.mpr (List.nodup_cons.mpr ⟨hkfast, nodup hfast⟩)
    have hvictim : victim ∈ k :: CachePolicy.residents sim.fast :=
      hperm.subset List.mem_cons_self
    have hkeys : (CachePolicy.residents fast).toFinset =
        (insert k (CachePolicy.residents sim.fast).toFinset).erase victim := by
      rw [← List.toFinset_cons, ← List.toFinset_eq_of_perm _ _ hperm, List.toFinset_cons,
        Finset.erase_insert (mt List.mem_toFinset.mp (List.nodup_cons.mp hall).1)]
    have hout : victim ∉ q.store.toList := by
      intro hmem
      rcases List.mem_cons.mp hvictim with rfl | hmemFast
      · exact hkslow hmem
      · rw [residents, hslow] at hnodup
        exact List.disjoint_of_nodup_append hnodup hmemFast hmem
    obtain ⟨q', hq', -, hstore⟩ := foldl_admitKey [victim] hq
      (List.nodup_append_comm.mp (List.nodup_cons.mpr ⟨hout, KeyQueue.nodup q.store⟩))
    have hadmitted : CachePolicy.residents (admitKey victim (.inl q : Policy α)).2 =
        (lower.erase k ++ [victim]).rtake slowBlocks := by
      rw [← hlower, ← hstore]
      exact congrArg CachePolicy.residents hq'
    rw [hkeys, List.foldl_cons, List.foldl_nil, hadmitted]
    refine .pushed (mt List.mem_toFinset.mp hkfast) ?_
    rw [← List.toFinset_cons]
    exact List.mem_toFinset.mpr hvictim

/-- An access brings its key up. -/
theorem Exclusive.accessBlock_lifted (k : α) (h : sim.Exclusive fastBlocks slowBlocks) :
    Lifted slowBlocks k sim.fastKeys sim.slowKeys (sim.accessBlock k).2.fastKeys
      (sim.accessBlock k).2.slowKeys := by
  obtain ⟨q, hq⟩ := h.lru
  have hslow : CachePolicy.residents sim.slow = q.store.toList := by
    rw [hq]
    rfl
  have hvalid : q.Valid slowBlocks := by
    have hvalid := h.slow
    rw [hq] at hvalid
    exact hvalid
  unfold accessBlock
  split
  next hin =>
    have hkfast := contains_iff.mp hin
    have hkslow : k ∉ sim.slowKeys := List.disjoint_of_nodup_append h.nodup hkfast
    have hsame : fastKeys { sim with fast := touch k sim.fast } = insert k sim.fastKeys := by
      rw [fastKeys, List.toFinset_eq_of_perm _ _ (touch_spec k h.fast).2, fastKeys,
        Finset.insert_eq_of_mem (List.mem_toFinset.mpr hkfast)]
    have hlifted : Lifted slowBlocks k sim.fastKeys sim.slowKeys _ _ := .kept
    rw [← hsame, List.erase_of_not_mem hkslow] at hlifted
    exact hlifted
  next hin =>
    have hkfast : k ∉ CachePolicy.residents sim.fast := fun hmem => hin (contains_iff.mpr hmem)
    split
    next =>
      have hnodup := h.nodup
      rw [residents, hslow] at hnodup
      have hremoved : (remove k sim.slow).2 = (.inl (q.remove k).2 : Policy α) := by
        rw [hq]
        rfl
      have hstore : (q.remove k).2.store.toList = sim.slowKeys.erase k := by
        rw [slowKeys, hslow]
        rfl
      refine admitFast_lifted { sim with slow := (remove k sim.slow).2 } h.fast hremoved
        (valid_remove k hvalid) ?_ hstore hkfast ?_
      · have hleft : residents { sim with slow := (remove k sim.slow).2 } =
            CachePolicy.residents sim.fast ++ q.store.toList.erase k := by
          rw [residents, hremoved]
          rfl
        rw [hleft]
        exact hnodup.sublist (List.erase_sublist.append_left _)
      · rw [hstore]
        exact (LawfulPolicy.nodup h.slow).not_mem_erase
    next hout =>
      have hkslow : k ∉ q.store.toList := by
        rw [← hslow]
        exact fun hmem => hout (contains_iff.mpr hmem)
      refine admitFast_lifted sim h.fast hq hvalid h.nodup ?_ hkfast hkslow
      rw [slowKeys, hslow, List.erase_of_not_mem hkslow]

theorem prefetchDepth_accessBlock (k : α) (sim : TieredSimulator α D) :
    (sim.accessBlock k).2.prefetchDepth = sim.prefetchDepth := by
  unfold accessBlock
  split
  next => rfl
  next => split <;> rfl

theorem mem_residents {sim : TieredSimulator α D} :
    k ∈ sim.residents ↔ k ∈ sim.fastKeys ∨ k ∈ sim.slowKeys := by
  rw [residents, List.mem_append, fastKeys, List.mem_toFinset, slowKeys]

/-- No prefetching has been done, and the tiers hold the blocks that were accessed last. -/
structure Floored (fastBlocks slowBlocks : Nat) (uses : List α) (sim : TieredSimulator α D) :
    Prop where
  exclusive : sim.Exclusive fastBlocks slowBlocks
  depth : sim.prefetchDepth ≤ 0
  holding : Holding slowBlocks uses sim.fastKeys sim.slowKeys

theorem Floored.accessBlock {uses : List α} (k : α) (h : sim.Floored fastBlocks slowBlocks uses) :
    (sim.accessBlock k).2.Floored fastBlocks slowBlocks (uses ++ [k]) where
  exclusive := (accessBlock_spec k h.exclusive).1
  depth := (prefetchDepth_accessBlock k sim).trans_le h.depth
  holding := h.holding.lifted (h.exclusive.accessBlock_lifted k)

theorem Floored.link {uses : List α} (prev : Option α) (k : α)
    (h : sim.Floored fastBlocks slowBlocks uses) :
    (sim.link prev k).Floored fastBlocks slowBlocks uses := by
  cases prev with
  | none => exact h
  | some prev => exact ⟨link_spec (some prev) k h.exclusive, h.depth, h.holding⟩

theorem Floored.hit {uses : List α} (h : sim.Floored fastBlocks slowBlocks uses)
    (hrecent : Recent slowBlocks uses k) : (sim.accessBlock k).1 ≠ .miss :=
  accessBlock_ne_miss.mpr (mem_residents.mpr (h.holding.mem (mem_rtake_iff_recent.mpr hrecent)))

theorem Exclusive.recentHits [DoubleArith D] (h : sim.Exclusive fastBlocks slowBlocks)
    (hempty : sim.residents = []) (hdepth : sim.prefetchDepth ≤ 0) (plan : List (ReplayStep α)) :
    RecentHits slowBlocks ((tieredSteps plan sim).flatMap (·.events)) := by
  obtain ⟨hfastEmpty, hslowEmpty⟩ := List.append_eq_nil_iff.mp hempty
  have hstart : Holding slowBlocks [] sim.fastKeys sim.slowKeys := by
    rw [fastKeys, hfastEmpty, slowKeys, hslowEmpty]
    exact holding_empty slowBlocks
  obtain ⟨_, hinv⟩ := tieredSteps_invariant
    (I := fun past sim => sim.Floored fastBlocks slowBlocks (idsOf past) ∧
      RecentHits slowBlocks past)
    (fun {past sim} hashIds ⟨hfloored, hhits⟩ => by
      rw [prefetchForRequest, if_pos (.inl hfloored.depth)]
      exact ⟨hfloored, hhits⟩)
    (fun {past sim} prev k _ ⟨hfloored, hhits⟩ => by
      refine ⟨?_, hhits.snoc fun hrecent => decide_eq_true (hfloored.hit hrecent)⟩
      rw [idsOf_append]
      exact (hfloored.accessBlock k).link prev k)
    plan (List.Subset.refl _)
    ⟨⟨h, hdepth, hstart⟩, atEvery_nil _⟩
  exact hinv.2

end TieredSimulator

open TieredSimulator

/-! ## Against one pool -/

/-- A log in which the recent blocks hit keeps the hits of an LRU pool. -/
theorem RecentHits.keepsHits {slots : Nat} {events events' : List (AccessEvent α)}
    (h : RecentHits slots events') (hpool : HitsWhere (Recent slots) events)
    (hids : idsOf events' = idsOf events) : List.Forall₂ KeepsHit events events' := by
  induction events using List.reverseRecOn generalizing events' with
  | nil =>
    rw [List.map_eq_nil_iff.mp hids]
    exact .nil
  | append_singleton events event ih =>
    rcases List.eq_nil_or_concat events' with rfl | ⟨init, last, rfl⟩
    · simp [idsOf] at hids
    · rw [List.concat_eq_append] at h hids ⊢
      rw [idsOf_append, idsOf_append] at hids
      obtain ⟨hinit, hlast⟩ := List.append_inj' hids rfl
      obtain ⟨hbefore, hevent⟩ := atEvery_snoc.mp hpool
      obtain ⟨hbefore', hevent'⟩ := atEvery_snoc.mp h
      have hid : last.hashId = event.hashId := List.singleton_inj.mp hlast
      refine List.rel_append (ih hbefore' hbefore hinit) (.cons ⟨hid, fun hhit => ?_⟩ .nil)
      rw [hinit, hid] at hevent'
      exact hevent' (hevent.mp hhit)

/-- The second log keeps the hits of the first, and its rates are no lower. -/
structure KeepsHits (events events' : List (AccessEvent α)) : Prop where
  hits : List.Forall₂ KeepsHit events events'
  hitRate : (rates ⟨events⟩ : ℚ × ℚ).1 ≤ (rates ⟨events'⟩ : ℚ × ℚ).1
  reuseRate : (rates ⟨events⟩ : ℚ × ℚ).2 ≤ (rates ⟨events'⟩ : ℚ × ℚ).2

/-- **An LRU slow tier is a floor.** Without prefetching, and whatever the policy and the size of
the fast tier are, a replay on two tiers hits wherever fewer blocks than the slow tier has room for
have been accessed since the last access to the block. It keeps every hit of an LRU pool of the size
of the slow tier, and its rates are no lower. -/
theorem tieredReplay_floor (α D : Type) [DecidableEq α] [DoubleArith D] (name : String)
    (plan : List (ReplayStep α)) (fastBlocks slowBlocks : Nat)
    (hname : name ∈ (POLICIES α).map Prod.fst) (hfast : 1 ≤ fastBlocks) (hslow : 1 ≤ slowBlocks) :
    Returns (simulateTieredReplay plan fastBlocks slowBlocks name false :
      Except String (ReplayResult α D)) fun tiered =>
        RecentHits slowBlocks tiered.accessLog.events ∧
          Returns (simulateReplay plan slowBlocks "lru" : Except String (ReplayResult α D))
            fun pool => KeepsHits pool.accessLog.events tiered.accessLog.events := by
  obtain ⟨fast, hrunFast, hfastValid, hfastEmpty⟩ := makePolicy_fresh (α := α) hname hfast
  obtain ⟨slow, hrunSlow, ⟨hslowValid, hslowEmpty⟩, hlru⟩ := makePolicy_lru (α := α) hslow
  have hempty : (⟨fast, slow, ∅, 0, TieredCosts.standard⟩ :
      TieredSimulator α D).residents = [] := by
    rw [TieredSimulator.residents, hfastEmpty, hslowEmpty]
    rfl
  have hexclusive : (⟨fast, slow, ∅, 0, TieredCosts.standard⟩ :
      TieredSimulator α D).Exclusive fastBlocks slowBlocks :=
    ⟨hfastValid, hslowValid, hlru, hempty ▸ List.nodup_nil⟩
  have hnew : TieredSimulator.new fastBlocks slowBlocks name 0 (TieredCosts.standard :
      TieredCosts D) "lru" = _ := TieredSimulator.new_eq hrunFast hrunSlow
  have hrecent := hexclusive.recentHits hempty (le_refl _) plan
  refine ⟨summarize (tieredSteps plan ⟨fast, slow, ∅, 0, TieredCosts.standard⟩), ?_, hrecent, ?_⟩
  · rw [simulateTieredReplay, if_neg Bool.false_ne_true, projectSlowPolicy, hnew]
    rfl
  · refine (simulateReplay_lru plan hslow).mono fun pool hpool => ?_
    obtain ⟨hids, hhits⟩ := hpool
    have hkeeps := hrecent.keepsHits hhits ((idsOf_tieredSteps plan _).trans hids.symm)
    obtain ⟨hhitRate, hreuseRate⟩ := rates_le hkeeps
    exact ⟨hkeeps, hhitRate, hreuseRate⟩

theorem tieredReplay_floor_twoRequests :
    Returns (simulateTieredReplay twoRequests (1 : Nat) (2 : Nat) "s3fifo" false :
      Except String (ReplayResult Nat ℚ)) fun tiered =>
        RecentHits 2 tiered.accessLog.events ∧
          Returns (simulateReplay twoRequests (2 : Nat) "lru" : Except String (ReplayResult Nat ℚ))
            fun pool => KeepsHits pool.accessLog.events tiered.accessLog.events :=
  tieredReplay_floor Nat ℚ "s3fifo" twoRequests 1 2 (by decide) (by decide) (by decide)

end TieredKVCache.Bench
