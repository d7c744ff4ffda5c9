import TieredKVCache.Bench.Multitenant
import TieredKVCache.Storage.Reserve

/-!
# A tenant within its share in a replay

In the replay of `replay_multitenant.py` with tenant weights, a tenant whose ids fit its share of
the fastest tier misses only the first access to each, however many ids the other tenants bring
(`replayStreams_reserved`). Shares are computed exactly here.
-/

namespace TieredKVCache.Bench

open Lib Storage VllmAdapter

section

variable {r : Reserve} {store store' : PyTieredStore ℚ} {key : BlockKey} {payload : List UInt8}
  {tenantId : UInt32} {fast : Tier}

/-! ## The calls of the bindings -/

theorem storePrefetch_updates (hcovers : Covers store.tiers r) (hsound : store.Sound)
    (keys : List BlockKey) : Returns (store.prefetch keys) fun q =>
      r.Updates (fun _ => none) store.manager q.2.manager := by
  unfold PyTieredStore.prefetch
  exact (prefetch_updates hcovers hsound keys).bind fun q h => returns_ok h

theorem prefetchChainMulti_updates (hcovers : Covers store.tiers r) (hsound : store.Sound)
    (anchors : List BlockKey) (budget : Nat) :
    Returns (store.prefetchChainMulti anchors budget) fun q =>
      r.Updates (fun _ => none) store.manager q.2.manager := by
  rw [PyTieredStore.prefetchChainMulti]
  dsimp only
  split
  · exact returns_ok (.refl r store.manager)
  · exact (storePrefetch_updates hcovers hsound _).bind fun q h => returns_ok h

theorem get_updates (hcovers : Covers store.tiers r) (hsound : store.Sound) (key : BlockKey) :
    Returns (store.get key) fun q => r.Updates (fun _ => none) store.manager q.2.manager := by
  unfold PyTieredStore.get
  refine (read_updates hcovers hsound key).bind fun q h => ?_
  obtain ⟨result, manager⟩ := q
  cases result with
  | error status => exact returns_ok h
  | ok block => exact returns_ok h

theorem put_updates (hcovers : Covers store.tiers r) (hsound : store.Sound)
    (hop : r.Respects store.tiers (.write (blockFromPayload key payload) .hbm tenantId)) :
    Returns (store.put key payload tenantId) fun q =>
      r.Updates (fun k => if key = k then some (blockFromPayload key payload) else none)
        store.manager q.2.manager := by
  unfold PyTieredStore.put
  exact (write_updates hcovers hsound hop).bind fun q h => returns_ok h

theorem uncaught_eq_ok {A S : Type} {x : Except Fault (Except PyError A × S)} {a : A} {s : S}
    (h : uncaught x = .ok (a, s)) : x = .ok (.ok a, s) := by
  match x with
  | .error fault => cases h
  | .ok (.error error, _) => cases h
  | .ok (.ok a, store) =>
    cases h
    rfl

/-- An access writes the block of its key where it was missing. -/
theorem accessKey_updates {q : Bool × PyTieredStore ℚ} (hcovers : Covers store.tiers r)
    (hsound : store.Sound)
    (hop : r.Respects store.tiers (.write (blockFromPayload key blankPayload) .hbm tenantId))
    (h : accessKey tenantId key store = .ok q) :
    r.Updates (fun k => if q.1 = false ∧ key = k then some (blockFromPayload key blankPayload)
      else none) store.manager q.2.manager := by
  unfold accessKey at h
  cases hhit : holds key store with
  | true =>
    rw [hhit, if_pos rfl] at h
    obtain ⟨⟨found, store'⟩, hget, hupdates⟩ := get_updates hcovers hsound key
    rw [hget] at h
    cases h
    exact hupdates.congr fun k _ => rfl
  | false =>
    rw [hhit, if_neg Bool.false_ne_true] at h
    cases hput : uncaught (store.put key blankPayload tenantId) with
    | error failure =>
      rw [hput] at h
      cases h
    | ok result =>
      obtain ⟨a, store'⟩ := result
      rw [hput] at h
      cases h
      have hupdates := (put_updates hcovers hsound hop).of_eq (uncaught_eq_ok hput)
      exact hupdates.congr fun k _ => by simp only [true_and]

end

/-! ## The replay of the tenants -/

section

variable {r : Reserve} {tiers : TierConfig ℚ} {tenantOf : BlockKey → UInt32} {ids : List BlockKey}
  {past : List (AccessEvent BlockKey)} {store store' : PyTieredStore ℚ} {key : BlockKey}

/-- The accesses to the keys of a tenant. -/
def ownEvents (tenantOf : BlockKey → UInt32) (tenant : UInt32)
    (events : List (AccessEvent BlockKey)) : List (AccessEvent BlockKey) :=
  events.filter fun event => tenantOf event.hashId = tenant

theorem mem_idsOf_ownEvents {tenant : UInt32} :
    key ∈ idsOf (ownEvents tenantOf tenant past) ↔ key ∈ idsOf past ∧ tenantOf key = tenant := by
  simp only [idsOf, ownEvents, List.mem_map, List.mem_filter, decide_eq_true_eq]
  constructor
  · rintro ⟨event, ⟨hevent, htenant⟩, rfl⟩
    exact ⟨⟨event, hevent, rfl⟩, htenant⟩
  · rintro ⟨⟨event, hevent, rfl⟩, htenant⟩
    exact ⟨event, ⟨hevent, htenant⟩, rfl⟩

theorem ownEvents_snoc (tenant : UInt32) (event : AccessEvent BlockKey) :
    ownEvents tenantOf tenant (past ++ [event]) =
      if tenantOf event.hashId = tenant then ownEvents tenantOf tenant past ++ [event]
      else ownEvents tenantOf tenant past := by
  unfold ownEvents
  rw [List.filter_append, List.filter_singleton]
  by_cases h : tenantOf event.hashId = tenant <;> simp [h]

/-- The blank blocks of the tenant are within the bounds, in the fastest tier. -/
structure Blank (tiers : TierConfig ℚ) (tenantOf : BlockKey → UInt32) (ids : List BlockKey)
    (r : Reserve) : Prop where
  covers : Covers tiers r
  size : ∀ key ∈ r.keys, r.size key = blockBytes
  own : ∀ key ∈ ids, key ∈ r.keys ↔ tenantOf key = r.tenant

/-- The storage holds every id of the tenant that has been accessed. -/
structure Reserved (tiers : TierConfig ℚ) (tenantOf : BlockKey → UInt32) (r : Reserve)
    (past : List (AccessEvent BlockKey)) (store : PyTieredStore ℚ) : Prop where
  stocked : Stocked tiers tenantOf past store
  separate : r.Separate store.manager
  all : ∀ key ∈ r.keys, key ∈ idsOf past → key ∈ residents store.manager
  hits : HitsWhere (fun before key => key ∈ before) (ownEvents tenantOf r.tenant past)

theorem mem_residents_iff_storedBlock {s : State} :
    key ∈ residents s ↔ (storedBlock key s).isSome = true := by
  rw [mem_residents, storedBlock, Option.isSome_map, Option.isSome_iff_exists]

/-- What is there stays there. -/
theorem Reserve.Updates.residents {writes : BlockKey → Option KVCacheBlock} {s s' : State}
    (h : r.Updates writes s s') (hseparate : r.Separate s) (hkey : key ∈ r.keys) :
    key ∈ Storage.residents s' ↔ (writes key).isSome = true ∨ key ∈ Storage.residents s := by
  rw [mem_residents_iff_storedBlock, mem_residents_iff_storedBlock, (h hseparate).2 key hkey,
    Option.isSome_or, Bool.or_eq_true]

theorem Blank.respects (h : Blank tiers tenantOf ids r) (hfast : tiers.fastestTierCache = some .hbm)
    (hkey : key ∈ ids) :
    r.Respects tiers (.write (blockFromPayload key blankPayload) .hbm (tenantOf key)) := by
  refine ⟨h.own key hkey, fun hown => ⟨?_, .hbm, h.covers.fastest .hbm hfast, hfast⟩⟩
  rw [blockSizeBytes_blockFromPayload, blankPayload, List.length_replicate]
  exact (h.size key hown).ge

theorem reserved_replayable (hfast : tiers.fastestTierCache = some .hbm)
    (hfits : blockBytes ≤ tiers.evictionThresholdOf .hbm) (hblank : Blank tiers tenantOf ids r) :
    Replayable (Reserved tiers tenantOf r) tenantOf ids where
  prefetch {past store} keys h := by
    obtain ⟨q, hq, hstocked⟩ :=
      (stocked_replayable tenantOf hfast hfits ids).prefetch keys h.stocked
    have hcovers : Covers store.tiers r := h.stocked.tiers ▸ hblank.covers
    have hupdates := (prefetchChainMulti_updates hcovers h.stocked.sound keys _).of_eq
      (uncaught_eq_ok hq)
    refine ⟨q, hq, hstocked, (hupdates h.separate).1, fun key hkey hseen => ?_, h.hits⟩
    exact (Reserve.Updates.residents hupdates h.separate hkey).mpr (.inr (h.all key hkey hseen))
  record keys h :=
    ⟨(stocked_replayable tenantOf hfast hfits ids).record keys h.stocked, h.separate, h.all, h.hits⟩
  access {past store} key hkey h := by
    obtain ⟨⟨hit, store'⟩, hq, hhit, hstocked, -⟩ := h.stocked.access hfast hfits key
    have htiers := h.stocked.tiers
    have hupdates := accessKey_updates (htiers ▸ hblank.covers) h.stocked.sound
      (htiers ▸ hblank.respects hfast hkey) hq
    have hown := hblank.own key hkey
    refine ⟨(hit, store'), hq, hstocked, (hupdates h.separate).1, fun k hk hseen => ?_, ?_⟩
    · refine (Reserve.Updates.residents hupdates h.separate hk).mpr ?_
      rw [idsOf_append, List.mem_append, idsOf_cons, idsOf_nil, List.mem_singleton] at hseen
      rcases hseen with hbefore | rfl
      · exact .inr (h.all k hk hbefore)
      · cases hit with
        | true => exact .inr (hhit.mp rfl)
        | false => exact .inl (by simp)
    · rw [ownEvents_snoc]
      split
      next htenant =>
        refine h.hits.snoc (hhit.trans ⟨fun hresident => ?_, fun hseen => ?_⟩)
        · exact mem_idsOf_ownEvents.mpr ⟨h.stocked.seen hresident, htenant⟩
        · exact h.all key (hown.mpr htenant) (mem_idsOf_ownEvents.mp hseen).1
      next => exact h.hits

/-! ## Runs -/

/-- The ids of a tenant in the fastest tier. -/
def tenantReserve (tenant : UInt32) (records : List (TraceRecord Int)) : Reserve where
  tenant := tenant
  keys := ((traceIds records).map (tenantKey tenant)).toFinset
  size _ := blockBytes
  tiers := {.hbm}

variable {streams : Streams} {tenant : UInt32} {records : List (TraceRecord Int)}

/-- The keys of a tenant among those of all tenants. -/
theorem Streams.Salted.mem_tenantReserve (hsalted : streams.Salted)
    (hstream : (tenant, records) ∈ streams) (hkey : key ∈ streams.keys) :
    key ∈ (tenantReserve tenant records).keys ↔ Bench.tenantOf key = tenant := by
  obtain ⟨stream, hmem, hkey⟩ := List.mem_flatMap.mp hkey
  obtain ⟨hashId, hhash, rfl⟩ := List.mem_map.mp hkey
  have hsmall (stream : UInt32 × List (TraceRecord Int)) (hmem : stream ∈ streams) (hashId : Int)
      (hhash : hashId ∈ traceIds stream.2) :
      Bench.tenantOf (tenantKey stream.1 hashId) = stream.1 :=
    tenantOf_tenantKey (hsalted.small stream hmem hashId hhash) (hsalted.tenant stream hmem)
  rw [tenantReserve, List.mem_toFinset]
  constructor
  · intro hown
    obtain ⟨hashId', hhash', heq⟩ := List.mem_map.mp hown
    rw [← heq]
    exact hsmall _ hstream hashId' hhash'
  · intro htenant
    rw [hsmall stream hmem hashId hhash] at htenant
    have hsame : stream = (tenant, records) :=
      List.inj_on_of_nodup_map hsalted.nodup hmem hstream htenant
    rw [hsame] at hhash ⊢
    exact List.mem_map_of_mem hhash

end

/-- **A tenant within its share.** With tenant weights, a tenant whose ids fit its share of the
fastest tier misses only the first access to each of them, in every replay, whatever ids the other
tenants bring. -/
theorem replayStreams_reserved (streams : Streams) (fastBlocks slowFactor : Nat)
    (weights : AList fun _ : UInt32 => ℚ) (hsalted : streams.Salted) (hfast : 1 ≤ fastBlocks)
    (hquota : weights ≠ ∅)
    (hweights : ∀ tenant weight, weights.lookup tenant = some weight → 0 ≤ weight)
    (tenant : UInt32) (records : List (TraceRecord Int)) (hstream : (tenant, records) ∈ streams)
    (hshare : (((traceIds records).toFinset.card * blockBytes : Nat) : ℚ) ≤
      (replayStore fastBlocks slowFactor weights).tiers.tenantShareOf tenant .hbm) :
    Returns (replayStreams streams (replayStore fastBlocks slowFactor weights)) fun q =>
      HitsWhere (fun before key => key ∈ before) (tenantEvents tenant q.1) ∧
        hitsOf (tenantEvents tenant q.1) + (traceIds records).toFinset.card =
          (traceIds records).length := by
  have hcard := hsalted.card_keys hstream
  have hcovers : Covers (replayStore fastBlocks slowFactor weights).tiers
      (tenantReserve tenant records) :=
    { quota := by
        have hne : weights.entries ≠ [] := fun hnil => hquota (AList.ext hnil)
        simpa [TierConfig.quotaEnabledLocked, replayStore] using hne
      weights := hweights
      ratio := le_of_eq Nat.cast_one.symm
      fastest := fun fast hfast => Finset.mem_singleton.mpr (Option.some.inj hfast).symm
      share := by
        intro t ht
        rw [Finset.mem_singleton.mp ht]
        simpa [tenantReserve, hcard] using hshare }
  have hfits : blockBytes ≤
      (replayStore fastBlocks slowFactor weights).tiers.evictionThresholdOf .hbm := by
    rw [hcovers.threshold]
    exact Nat.le_mul_of_pos_left blockBytes hfast
  have hblank : Blank (replayStore fastBlocks slowFactor weights).tiers tenantOf streams.keys
      (tenantReserve tenant records) :=
    ⟨hcovers, fun _ _ => rfl, fun key hkey => hsalted.mem_tenantReserve hstream hkey⟩
  have hreplay := reserved_replayable rfl hfits hblank
  refine (hreplay.replayTurns (List.range (maxLength streams)) hsalted Streams.mem_keys
    ⟨stocked_replayStore fastBlocks slowFactor weights tenantOf, Reserve.separate_fresh _,
      fun _ _ hseen => absurd hseen List.not_mem_nil, atEvery_nil _⟩).mono fun q hq => ?_
  obtain ⟨hreserved, hkeys⟩ := hq
  have hhits : HitsWhere (fun before key => key ∈ before) (tenantEvents tenant q.1) := by
    rw [tenantEvents_eq (hsalted.tenantOf_log hkeys)]
    exact hreserved.hits
  have htotal := hhits.hits_add_distinct
  have hids := idsOf_tenantEvents hsalted.nodup hstream hkeys
  have hlength := congrArg List.length hids
  rw [idsOf, List.length_map, List.length_map] at hlength
  rw [distinctIds, hids, hcard, hlength] at htotal
  exact ⟨hhits, htotal⟩

/-- Three ids with half of a fastest tier of six blocks, against a flood. -/
theorem replayStreams_reserved_sharedBlock :
    Returns (replayStreams [(1, sharedBlock), (2, floodRecords 2)]
      (replayStore 6 1 (((∅ : AList fun _ : UInt32 => ℚ).insert 1 1).insert 2 1))) fun q =>
        hitsOf (tenantEvents 1 q.1) + 3 = 4 := by
  refine (replayStreams_reserved [(1, sharedBlock), (2, floodRecords 2)] 6 1
    (((∅ : AList fun _ : UInt32 => ℚ).insert 1 1).insert 2 1)
    (@salted_flood sharedBlock (by decide) (by decide)) (by decide) ?_ ?_ 1 sharedBlock
    (by simp) ?_).mono fun q hq => hq.2
  · exact fun heq => by cases congrArg AList.entries heq
  · exact twoTenants_weights 0 1
  · decide +kernel

end TieredKVCache.Bench
