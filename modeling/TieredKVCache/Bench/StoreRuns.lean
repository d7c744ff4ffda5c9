import TieredKVCache.Bench.StoreReplay

/-!
# The replay of one trace on the storage

`replay` of `replay_cpp.py`. It runs to its end for every trace whose ids fit 64 bits, and the first
access to every id misses (`replayCpp_counts`). With room for every id only these miss, and
the simulator of `tiered.py` agrees with the storage (`replayCpp_agrees`).
-/

namespace TieredKVCache.Bench

open Lib Storage VllmAdapter

/-! ## The replay -/

/-- `records[:stop]`. -/
def sliceTo {A : Type} (stop : Int) (l : List A) : List A :=
  l.take (if stop < 0 then l.length + stop else stop).toNat

section

variable {D : Type} [DoubleArith D]

/-- The loop over the records; the counters of the source count its events. -/
def replayRecords : List (TraceRecord Int) → PyTieredStore D →
    Except ReplayFailure (List (AccessEvent BlockKey) × PyTieredStore D)
  | [], store => .ok ([], store)
  | record :: records, store => do
    let keys ← record.hashIds.mapM newBlockKey
    let (events, store) ← replayKeys 0 keys store
    let (rest, store) ← replayRecords records store
    return (events ++ rest, store)

end

structure StoreStats (D : Type) where
  requests : Nat
  blocks : Nat
  hits : Nat
  misses : Nat
  hitRate : D

/-- The statistics of the events. -/
def storeStats {D : Type} [DoubleArith D] (requests : Nat) (events : List (AccessEvent BlockKey)) :
    StoreStats D :=
  let hits := events.countP (·.hit)
  let misses := events.countP (!·.hit)
  let total := hits + misses
  { requests
    blocks := total
    hits
    misses
    hitRate := if total = 0 then 0 else DoubleArith.ofSize hits / DoubleArith.ofSize total }

/-- The records that are replayed. -/
def takenRecords (maxRequests : Option Int) (records : List (TraceRecord Int)) :
    List (TraceRecord Int) :=
  match maxRequests with
  | none => records
  | some stop => sliceTo stop records

/-- `replay` of `replay_cpp.py`. -/
def replayCpp {D : Type} [DoubleArith D] (records : List (TraceRecord Int))
    (fastBlocks slowFactor : Nat) (maxRequests : Option Int) :
    Except ReplayFailure (StoreStats D) := do
  let records := takenRecords maxRequests records
  let (events, _) ← replayRecords records (replayStore (D := D) fastBlocks slowFactor ∅)
  return storeStats records.length events

/-! ## The records -/

section

variable {D : Type} [DoubleArith D] {I : List (AccessEvent BlockKey) → PyTieredStore D → Prop}
  {ids : List BlockKey} {past : List (AccessEvent BlockKey)} {store : PyTieredStore D}

/-- The ids of a trace. -/
def traceIds (records : List (TraceRecord Int)) : List Int := records.flatMap (·.hashIds)

theorem Replayable.replayRecords (h : Replayable I (fun _ => 0) ids)
    {records : List (TraceRecord Int)}
    (hfit : ∀ hashId ∈ traceIds records, 0 ≤ hashId ∧ hashId < 2 ^ 64)
    (hids : ∀ hashId ∈ traceIds records, keyOf hashId ∈ ids) (hstore : I past store) :
    Returns (Bench.replayRecords records store) fun r =>
      I (past ++ r.1) r.2 ∧ idsOf r.1 = (traceIds records).map keyOf := by
  induction records generalizing past store with
  | nil =>
    refine returns_ok ⟨?_, rfl⟩
    rwa [List.append_nil]
  | cons record records ih =>
    obtain ⟨hfit, hfits⟩ := List.forall_mem_append.mp hfit
    obtain ⟨hid, hids⟩ := List.forall_mem_append.mp hids
    rw [Bench.replayRecords, mapM_newBlockKey hfit]
    have hkeys : ∀ key ∈ record.hashIds.map keyOf, key ∈ ids ∧ (0 : UInt32) = 0 :=
      List.forall_mem_map.mpr fun hashId hhash => ⟨hid hashId hhash, rfl⟩
    refine (h.replayKeys 0 hkeys hstore).bind fun r hr => (ih hfits hids hr.1).bind fun q hq => ?_
    refine returns_ok ⟨?_, ?_⟩
    · rw [← List.append_assoc]
      exact hq.1
    · rw [idsOf_append, hr.2, hq.2, ← List.map_append]
      rfl

/-- The first record with an id that does not fit ends the replay. -/
theorem Replayable.replayRecords_typeError (h : ∀ ids, Replayable I (fun _ => 0) ids)
    {records : List (TraceRecord Int)}
    (hfit : ¬ ∀ hashId ∈ traceIds records, 0 ≤ hashId ∧ hashId < 2 ^ 64) (hstore : I past store) :
    Bench.replayRecords records store = .error .typeError := by
  induction records generalizing past store with
  | nil => exact absurd (fun _ hmem => absurd hmem List.not_mem_nil) hfit
  | cons record records ih =>
    rw [Bench.replayRecords]
    by_cases hfirst : ∀ hashId ∈ record.hashIds, 0 ≤ hashId ∧ hashId < 2 ^ 64
    · have hrest : ¬ ∀ hashId ∈ traceIds records, 0 ≤ hashId ∧ hashId < 2 ^ 64 := fun hrest =>
        hfit (List.forall_mem_append.mpr ⟨hfirst, hrest⟩)
      obtain ⟨r, hr, hnext, -⟩ := (h (record.hashIds.map keyOf)).replayKeys 0
        (fun key hkey => ⟨hkey, rfl⟩) hstore
      rw [mapM_newBlockKey hfirst]
      show (do
        let (events, store) ← Bench.replayKeys 0 (record.hashIds.map keyOf) store
        let (rest, store) ← Bench.replayRecords records store
        return (events ++ rest, store)) = _
      rw [hr]
      show (do
        let (rest, store) ← Bench.replayRecords records r.2
        return (r.1 ++ rest, store)) = _
      rw [ih hrest hnext]
      rfl
    · rw [mapM_newBlockKey_typeError hfirst]
      rfl

end

/-! ## Whole replays -/

section

variable {records : List (TraceRecord Int)} {events : List (AccessEvent BlockKey)}

theorem card_keys (hfit : ∀ hashId ∈ traceIds records, 0 ≤ hashId ∧ hashId < 2 ^ 64) :
    ((traceIds records).map keyOf).toFinset.card = (traceIds records).toFinset.card := by
  have himage : ((traceIds records).map keyOf).toFinset =
      (traceIds records).toFinset.image keyOf := by
    ext key
    simp
  rw [himage]
  refine Finset.card_image_of_injOn fun h hh h' hh' heq => ?_
  exact keyOf_injOn (hfit h (List.mem_toFinset.mp hh)) (hfit h' (List.mem_toFinset.mp hh')) heq

/-- Every block of the records is a hit or a miss, and the first one with an id is a miss. -/
structure StoreCounts (records : List (TraceRecord Int)) (fastBlocks slowFactor : Nat)
    (stats : StoreStats Double) : Prop where
  requests : stats.requests = records.length
  blocks : stats.blocks = (traceIds records).length
  accesses : stats.hits + stats.misses = stats.blocks
  hits_le : stats.hits + (traceIds records).toFinset.card ≤ stats.blocks
  hitRate : stats.hitRate = if stats.blocks = 0 then 0 else
    DoubleArith.ofSize stats.hits / DoubleArith.ofSize stats.blocks
  /-- The hits are those of the accesses that the replay makes, in the order of the trace. -/
  cold : Returns (replayRecords records (replayStore (D := Double) fastBlocks slowFactor ∅)) fun r =>
    idsOf r.1 = (traceIds records).map keyOf ∧ Warm r.1 ∧ stats.hits = hitsOf r.1

theorem hits_add_misses (events : List (AccessEvent BlockKey)) :
    events.countP (·.hit) + events.countP (!·.hit) = events.length := by
  rw [List.length_eq_countP_add_countP (·.hit)]
  simp only [Bool.not_eq_true, Bool.decide_eq_false]

theorem storeStats_blocks (requests : Nat) (events : List (AccessEvent BlockKey)) :
    (storeStats (D := Double) requests events).blocks = events.length :=
  hits_add_misses events

theorem storeStats_hitRate (requests : Nat) (events : List (AccessEvent BlockKey)) :
    (storeStats (D := Double) requests events).hitRate = if events.length = 0 then 0 else
      DoubleArith.ofSize (hitsOf events) / DoubleArith.ofSize events.length := by
  unfold storeStats
  simp only [hits_add_misses, hitsOf]

theorem ids_buildReplayPlan (records : List (TraceRecord Int)) :
    (buildReplayPlan records).flatMap (·.record.hashIds) = traceIds records := by
  have hrecords : (buildReplayPlan records).map (·.record) = records := by
    refine List.ext_getElem (by simp [buildReplayPlan]) fun i hi hi' => ?_
    simp [buildReplayPlan]
  calc (buildReplayPlan records).flatMap (·.record.hashIds)
      = ((buildReplayPlan records).map (·.record)).flatMap (·.hashIds) := by rw [List.flatMap_map]
    _ = traceIds records := by rw [hrecords, traceIds]

theorem replayRecords_complete {fastBlocks slowFactor : Nat}
    (hfit : ∀ hashId ∈ traceIds records, 0 ≤ hashId ∧ hashId < 2 ^ 64) (hfast : 1 ≤ fastBlocks)
    (hslow : 1 ≤ slowFactor) (hexact : Exact fastBlocks slowFactor)
    (hroom : (traceIds records).toFinset.card ≤ fastBlocks * (1 + slowFactor)) :
    Returns (replayRecords records (replayStore (D := Double) fastBlocks slowFactor ∅)) fun r =>
      r.1.length = (traceIds records).length ∧
        hitsOf r.1 + (traceIds records).toFinset.card = r.1.length := by
  have hids : ((traceIds records).map keyOf).toFinset.card ≤
      roomFor (replayStore (D := Double) fastBlocks slowFactor ∅).tiers blockBytes := by
    rw [card_keys hfit, hexact.roomFor]
    exact hroom
  have hreplay := complete_replayable (fun _ => 0) rfl (hexact.fitsAll hfast hslow) hids
  refine (hreplay.replayRecords hfit (fun _ => List.mem_map_of_mem)
    ⟨stocked_replayStore fastBlocks slowFactor ∅ _, nofun, List.nil_subset _, atEvery_nil _⟩).mono
      fun r ⟨hcomplete, hkeys⟩ => ⟨?_, ?_⟩
  · have hlength := congrArg List.length hkeys
    rwa [idsOf, List.length_map, List.length_map] at hlength
  · have hhits := hcomplete.hits.hits_add_distinct
    rwa [List.nil_append, distinctIds, hkeys, card_keys hfit] at hhits

/-- The simulator keeps every id where its slow tier has room for them. -/
theorem TieredSimulator.Exclusive.complete {fastBlocks slowBlocks : Nat}
    {sim : TieredSimulator Int Double} (hsim : sim.Exclusive fastBlocks slowBlocks)
    (hempty : sim.residents = []) (hroom : (traceIds records).toFinset.card ≤ slowBlocks) :
    let log := (summarize (tieredSteps (buildReplayPlan records) sim)).accessLog
    log.events.length = (traceIds records).length ∧
      hitsOf log.events + (traceIds records).toFinset.card = log.events.length := by
  have hplan := ids_buildReplayPlan records
  have hhits := (hsim.hitsWhere hempty (buildReplayPlan records) (hplan ▸ hroom)).hits_add_distinct
  have hids := TieredSimulator.idsOf_tieredSteps (buildReplayPlan records) sim
  rw [hplan] at hids
  have hlength := congrArg List.length hids
  rw [idsOf, List.length_map] at hlength
  rw [distinctIds, hids] at hhits
  exact ⟨hlength, hhits⟩

/-- The hit rate of a log depends on the hits and the accesses. -/
theorem hitRate_eq {α D : Type} [DecidableEq α] [DoubleArith D] (log : AccessLog α) :
    (rates log : D × D).1 = if log.events.length = 0 then 0 else
      DoubleArith.ofSize (hitsOf log.events) / DoubleArith.ofSize log.events.length := by
  rw [rates]
  cases log.events <;> rfl

/-- **The replay on the storage.** Where every id fits 64 bits, the replay runs to its end, counts its
accesses, and the first one to every id misses; otherwise it raises a `TypeError`. -/
theorem replayCpp_counts (records : List (TraceRecord Int)) (fastBlocks slowFactor : Nat)
    (maxRequests : Option Int) (hfast : 1 ≤ fastBlocks) (hexact : Exact fastBlocks slowFactor) :
    ((∀ hashId ∈ traceIds (takenRecords maxRequests records), 0 ≤ hashId ∧ hashId < 2 ^ 64) →
        Returns (replayCpp records fastBlocks slowFactor maxRequests)
          (StoreCounts (takenRecords maxRequests records) fastBlocks slowFactor)) ∧
      ((¬ ∀ hashId ∈ traceIds (takenRecords maxRequests records), 0 ≤ hashId ∧ hashId < 2 ^ 64) →
        (replayCpp records fastBlocks slowFactor maxRequests :
          Except ReplayFailure (StoreStats Double)) = .error .typeError) := by
  have hreplay := stocked_replayable (fun _ => 0) rfl (hexact.fits hfast ∅)
  have hstart := stocked_replayStore (D := Double) fastBlocks slowFactor ∅ fun _ => 0
  refine ⟨fun hfit => ?_, fun hunfit => ?_⟩
  · obtain ⟨r, hrun, hr⟩ := (hreplay _).replayRecords hfit (fun _ => List.mem_map_of_mem) hstart
    refine Returns.bind (P := (· = r)) ⟨r, hrun, rfl⟩ fun _ heq => heq ▸ returns_ok ?_
    have hlength : r.1.length = (traceIds (takenRecords maxRequests records)).length := by
      have hids := congrArg List.length hr.2
      rwa [idsOf, List.length_map, List.length_map] at hids
    have hle := hr.1.warm.hits_add_distinct_le
    rw [List.nil_append, distinctIds, hr.2, card_keys hfit, hlength] at hle
    refine ⟨rfl, (storeStats_blocks _ _).trans hlength, rfl, ?_, rfl,
      r, hrun, hr.2, hr.1.warm, rfl⟩
    rw [storeStats_blocks, hlength]
    exact hle
  · rw [replayCpp, Replayable.replayRecords_typeError hreplay hunfit hstart]
    rfl

/-- **The replay on the storage and the simulator.** Where the storage has room for every id, only
the first access to each misses. Where already the slow tier has it, the simulator of two tiers of
these sizes has the same hits and the same hit rate, whatever the policy of its fast tier is. -/
theorem replayCpp_agrees (records : List (TraceRecord Int)) (fastBlocks slowFactor : Nat)
    (maxRequests : Option Int)
    (hfit : ∀ hashId ∈ traceIds (takenRecords maxRequests records), 0 ≤ hashId ∧ hashId < 2 ^ 64)
    (hfast : 1 ≤ fastBlocks) (hslow : 1 ≤ slowFactor) (hexact : Exact fastBlocks slowFactor)
    (hroom : (traceIds (takenRecords maxRequests records)).toFinset.card ≤
      fastBlocks * (1 + slowFactor)) :
    Returns (replayCpp records fastBlocks slowFactor maxRequests) fun stats : StoreStats Double =>
      stats.hits + (traceIds (takenRecords maxRequests records)).toFinset.card = stats.blocks ∧
        ((traceIds (takenRecords maxRequests records)).toFinset.card ≤ fastBlocks * slowFactor →
          ∀ name ∈ (POLICIES Int).map Prod.fst, ∀ prefetch,
            Returns (simulateTieredReplay (buildReplayPlan (takenRecords maxRequests records))
              fastBlocks (fastBlocks * slowFactor : Nat) name prefetch :
              Except String (ReplayResult Int Double)) fun r =>
                hitsOf r.accessLog.events = stats.hits ∧
                  (rates r.accessLog : Double × Double).1 = stats.hitRate) := by
  refine (replayRecords_complete hfit hfast hslow hexact hroom).bind fun r ⟨hlength, hhits⟩ =>
    returns_ok ⟨?_, fun hsmall name hname prefetch => ?_⟩
  · rw [storeStats_blocks]
    exact hhits
  · refine simulateTieredReplay_returns hname hfast (Nat.mul_pos hfast hslow)
      fun sim hsim hempty => ?_
    obtain ⟨hlength', hhits'⟩ := hsim.complete hempty hsmall
    have hsame := Nat.add_right_cancel
      ((hhits'.trans (hlength'.trans hlength.symm)).trans hhits.symm)
    refine ⟨hsame, ?_⟩
    rw [hitRate_eq, storeStats_hitRate, hsame, hlength', hlength]

end

/-- Two requests that share two blocks. -/
def sharedBlocks : List (TraceRecord Int) := [⟨0, 1024, 8, [1, 2]⟩, ⟨5, 1536, 0, [1, 2, 3]⟩]

theorem replayCpp_counts_sharedBlocks :
    Returns (replayCpp sharedBlocks 1 2 none) (StoreCounts sharedBlocks 1 2) :=
  (replayCpp_counts sharedBlocks 1 2 none (by decide) ⟨by decide, by decide⟩).1 (by decide)

theorem replayCpp_agrees_sharedBlocks :
    Returns (replayCpp sharedBlocks 1 3 (some 2)) fun stats : StoreStats Double =>
      stats.hits + 3 = stats.blocks ∧
        Returns (simulateTieredReplay (buildReplayPlan sharedBlocks) 1 3 "sieve" true :
          Except String (ReplayResult Int Double)) fun r =>
            hitsOf r.accessLog.events = stats.hits ∧
              (rates r.accessLog : Double × Double).1 = stats.hitRate :=
  (replayCpp_agrees sharedBlocks 1 3 (some 2) (by decide) (by decide) (by decide)
    ⟨by decide, by decide⟩ (by decide)).mono fun _ h =>
      ⟨h.1, h.2 (by decide) "sieve" (by decide) true⟩

end TieredKVCache.Bench
