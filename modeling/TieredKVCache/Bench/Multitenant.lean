import TieredKVCache.Bench.StoreRuns

/-!
# The replay of several tenants

`replay_multitenant.py` replays traces in turns on one storage. A tenant has its own keys, so that
it hits only where it has accessed an id itself, whatever the other tenants do
(`replayStreams_isolated`). A flood of new ids never hits (`replayPair_flood`).
-/

namespace TieredKVCache.Bench

open Lib Storage VllmAdapter

/-! ## The replay -/

/-- `_TENANT_SALT`. -/
def tenantSalt : Int := 2 ^ 48

/-- The keys of a request. -/
def tenantKeys (tenant : UInt32) (hashIds : List Int) : Except ReplayFailure (List BlockKey) :=
  hashIds.mapM fun hashId => newBlockKey (hashId + tenant.toNat * tenantSalt)

/-- The traces of the tenants, in the order of their turns. -/
abbrev Streams := List (UInt32 × List (TraceRecord Int))

/-- The accesses of the tenants; the counters of the source count them. -/
abbrev TenantLog := List (UInt32 × AccessEvent BlockKey)

section

variable {D : Type} [DoubleArith D]

/-- The requests with an index, of the tenants that have one. -/
def replayTurn (i : Nat) : Streams → PyTieredStore D →
    Except ReplayFailure (TenantLog × PyTieredStore D)
  | [], store => .ok ([], store)
  | (tenant, records) :: streams, store =>
    match records[i]? with
    | none => replayTurn i streams store
    | some record => do
      let keys ← tenantKeys tenant record.hashIds
      let (events, store) ← replayKeys tenant keys store
      let (rest, store) ← replayTurn i streams store
      return (events.map (tenant, ·) ++ rest, store)

def replayTurns (streams : Streams) : List Nat → PyTieredStore D →
    Except ReplayFailure (TenantLog × PyTieredStore D)
  | [], store => .ok ([], store)
  | i :: indices, store => do
    let (events, store) ← replayTurn i streams store
    let (rest, store) ← replayTurns streams indices store
    return (events ++ rest, store)

/-- `max_len`. -/
def maxLength (streams : Streams) : Nat := (streams.map (·.2.length)).foldr max 0

/-- The loops over all turns. -/
def replayStreams (streams : Streams) (store : PyTieredStore D) :
    Except ReplayFailure (TenantLog × PyTieredStore D) :=
  replayTurns streams (List.range (maxLength streams)) store

/-- The accesses of a tenant. -/
def tenantEvents (tenant : UInt32) (log : TenantLog) : List (AccessEvent BlockKey) :=
  (log.filter (·.1 = tenant)).map (·.2)

/-- The hit rates of the tenants. -/
def tenantRates (streams : Streams) (log : TenantLog) : List (UInt32 × D) :=
  streams.map fun (tenant, _) =>
    let events := tenantEvents tenant log
    let hits := events.countP (·.hit)
    (tenant, if events.length = 0 then 0
      else DoubleArith.ofSize hits / DoubleArith.ofSize events.length)

end

/-- The loop of `_flood_records`. -/
def floodFrom (blocksPerRequest i nextId : Nat) : Nat → List (TraceRecord Int)
  | 0 => []
  | count + 1 =>
    ⟨i, blocksPerRequest * 512, 1, (List.range' nextId blocksPerRequest).map Int.ofNat⟩ ::
      floodFrom blocksPerRequest (i + 1) (nextId + blocksPerRequest) count

/-- `_flood_records`, with its default. -/
def floodRecords (count : Nat) : List (TraceRecord Int) := floodFrom 32 0 1 count

/-- The second trace, or the flood. -/
inductive SecondTrace where
  | flood
  | trace (records : List (TraceRecord Int))

def SecondTrace.records (recordsA : List (TraceRecord Int)) : SecondTrace → List (TraceRecord Int)
  | .flood => floodRecords recordsA.length
  | .trace records => records

/-- `replay_pair`. -/
def replayPair {D : Type} [DoubleArith D] (recordsA : List (TraceRecord Int))
    (traceB : SecondTrace) (fastBlocks slowFactor : Nat) (weights : AList fun _ : UInt32 => D) :
    Except ReplayFailure (List (UInt32 × D)) := do
  let streams : Streams := [(1, recordsA), (2, traceB.records recordsA)]
  let (log, _) ← replayStreams streams (replayStore fastBlocks slowFactor weights)
  return tenantRates streams log

/-! ## The keys of the tenants -/

def tenantKey (tenant : UInt32) (hashId : Int) : BlockKey :=
  keyOf (hashId + tenant.toNat * tenantSalt)

/-- The tenant of a key. -/
def tenantOf (key : BlockKey) : UInt32 := UInt32.ofNat (key.hashId.toNat / 2 ^ 48)

/-- An id that leaves the bits of the tenant alone. -/
def Small (hashId : Int) : Prop := 0 ≤ hashId ∧ hashId < 2 ^ 48

instance (hashId : Int) : Decidable (Small hashId) :=
  inferInstanceAs (Decidable (0 ≤ hashId ∧ hashId < 2 ^ 48))

section

variable {tenant : UInt32} {hashId hashId' : Int}

theorem Small.fits (h : Small hashId) (htenant : tenant.toNat < 2 ^ 16) :
    0 ≤ hashId + tenant.toNat * tenantSalt ∧ hashId + tenant.toNat * tenantSalt < 2 ^ 64 := by
  obtain ⟨hlo, hhi⟩ := h
  rw [tenantSalt]
  omega

theorem tenantOf_tenantKey (h : Small hashId) (htenant : tenant.toNat < 2 ^ 16) :
    tenantOf (tenantKey tenant hashId) = tenant := by
  obtain ⟨hlo, hhi⟩ := h.fits htenant
  have hlt : (hashId + tenant.toNat * tenantSalt).toNat < 2 ^ 64 := by omega
  have hdiv : (hashId + tenant.toNat * tenantSalt).toNat / 2 ^ 48 = tenant.toNat := by
    obtain ⟨hlo, hhi⟩ := h
    rw [tenantSalt]
    omega
  rw [tenantOf, tenantKey, keyOf, UInt64.toNat_ofNat_of_lt' hlt, hdiv, UInt32.ofNat_toNat]

theorem tenantKey_inj (h : Small hashId) (h' : Small hashId') (htenant : tenant.toNat < 2 ^ 16)
    (heq : tenantKey tenant hashId = tenantKey tenant hashId') : hashId = hashId' := by
  have hsame := keyOf_injOn (h.fits htenant) (h'.fits htenant) heq
  omega

theorem tenantKeys_eq {hashIds : List Int} (h : ∀ hashId ∈ hashIds, Small hashId)
    (htenant : tenant.toNat < 2 ^ 16) :
    tenantKeys tenant hashIds = .ok (hashIds.map (tenantKey tenant)) := by
  have hfits : ∀ id ∈ hashIds.map (· + tenant.toNat * tenantSalt), 0 ≤ id ∧ id < 2 ^ 64 :=
    List.forall_mem_map.mpr fun hashId hhash => (h hashId hhash).fits htenant
  have hkeys := mapM_newBlockKey hfits
  rw [List.mapM_map, List.map_map] at hkeys
  exact hkeys

end

/-! ## The log -/

/-- The ids leave the bits of the tenant alone, and a tenant has one trace. -/
structure Streams.Salted (streams : Streams) : Prop where
  small : ∀ stream ∈ streams, ∀ hashId ∈ traceIds stream.2, Small hashId
  tenant : ∀ stream ∈ streams, stream.1.toNat < 2 ^ 16
  nodup : (streams.map Prod.fst).Nodup

/-- The keys of a tenant with some ids. -/
def keysOfTenant (tenant : UInt32) (hashIds : List Int) : List (UInt32 × BlockKey) :=
  hashIds.map fun hashId => (tenant, tenantKey tenant hashId)

/-- The keys that the tenants access in a turn. -/
def turnKeys (i : Nat) (streams : Streams) : List (UInt32 × BlockKey) :=
  streams.flatMap fun stream => keysOfTenant stream.1 (traceIds stream.2[i]?.toList)

/-- The keys of a log, with the tenants that accessed them. -/
def keysOf (log : TenantLog) : List (UInt32 × BlockKey) := log.map fun e => (e.1, e.2.hashId)

section

variable {D : Type} [DoubleArith D] {I : List (AccessEvent BlockKey) → PyTieredStore D → Prop}
  {ids : List BlockKey} {past : List (AccessEvent BlockKey)} {store : PyTieredStore D}
  {streams : Streams}

theorem keysOf_append (log log' : TenantLog) : keysOf (log ++ log') = keysOf log ++ keysOf log' :=
  List.map_append

theorem keysOf_map (tenant : UInt32) (events : List (AccessEvent BlockKey)) :
    keysOf (events.map (tenant, ·)) = (idsOf events).map (tenant, ·) := by
  rw [keysOf, idsOf, List.map_map, List.map_map]
  rfl

theorem turnKeys_cons (i : Nat) (tenant : UInt32) (records : List (TraceRecord Int))
    (streams : Streams) : turnKeys i ((tenant, records) :: streams) =
      keysOfTenant tenant (traceIds records[i]?.toList) ++ turnKeys i streams := rfl

theorem mem_traceIds {records : List (TraceRecord Int)} {i : Nat} {record : TraceRecord Int}
    (h : records[i]? = some record) {hashId : Int} (hhash : hashId ∈ record.hashIds) :
    hashId ∈ traceIds records :=
  List.mem_flatMap.mpr ⟨record, List.mem_of_getElem? h, hhash⟩

theorem Replayable.replayTurn (h : Replayable I tenantOf ids) (i : Nat)
    (hsmall : ∀ stream ∈ streams, ∀ hashId ∈ traceIds stream.2, Small hashId)
    (htenants : ∀ stream ∈ streams, stream.1.toNat < 2 ^ 16)
    (hids : ∀ stream ∈ streams, ∀ hashId ∈ traceIds stream.2, tenantKey stream.1 hashId ∈ ids)
    (hstore : I past store) : Returns (Bench.replayTurn i streams store) fun r =>
      I (past ++ r.1.map (·.2)) r.2 ∧ keysOf r.1 = turnKeys i streams := by
  induction streams generalizing past store with
  | nil =>
    refine returns_ok ⟨?_, rfl⟩
    rwa [List.map_nil, List.append_nil]
  | cons stream streams ih =>
    obtain ⟨tenant, records⟩ := stream
    obtain ⟨hsmall, hsmalls⟩ := List.forall_mem_cons.mp hsmall
    obtain ⟨htenant, htenants⟩ := List.forall_mem_cons.mp htenants
    obtain ⟨hid, hids⟩ := List.forall_mem_cons.mp hids
    rw [Bench.replayTurn]
    cases hrecord : records[i]? with
    | none =>
      refine (ih hsmalls htenants hids hstore).mono fun r hr => ⟨hr.1, ?_⟩
      rw [hr.2, turnKeys_cons, hrecord]
      rfl
    | some record =>
      have hkeys : ∀ key ∈ record.hashIds.map (tenantKey tenant),
          key ∈ ids ∧ tenantOf key = tenant :=
        List.forall_mem_map.mpr fun hashId hhash =>
          have hmem := mem_traceIds hrecord hhash
          ⟨hid hashId hmem, tenantOf_tenantKey (hsmall hashId hmem) htenant⟩
      have hsalted := tenantKeys_eq (fun hashId hhash => hsmall hashId (mem_traceIds hrecord hhash))
        htenant
      show Returns (tenantKeys tenant record.hashIds >>= _) _
      rw [hsalted]
      refine (h.replayKeys tenant hkeys hstore).bind fun r hr =>
        (ih hsmalls htenants hids hr.1).bind fun q hq => returns_ok ⟨?_, ?_⟩
      · rw [List.map_append, List.map_map, ← List.append_assoc]
        show I (past ++ r.1.map id ++ _) _
        rw [List.map_id]
        exact hq.1
      · rw [keysOf_append, keysOf_map, hr.2, hq.2, turnKeys_cons, hrecord, List.map_map]
        simp [keysOfTenant, traceIds]

theorem Replayable.replayTurns (h : Replayable I tenantOf ids) (indices : List Nat)
    (hsalted : streams.Salted)
    (hids : ∀ stream ∈ streams, ∀ hashId ∈ traceIds stream.2, tenantKey stream.1 hashId ∈ ids)
    (hstore : I past store) : Returns (Bench.replayTurns streams indices store) fun r =>
      I (past ++ r.1.map (·.2)) r.2 ∧ keysOf r.1 = indices.flatMap (turnKeys · streams) := by
  induction indices generalizing past store with
  | nil =>
    refine returns_ok ⟨?_, rfl⟩
    rwa [List.map_nil, List.append_nil]
  | cons i indices ih =>
    rw [Bench.replayTurns]
    refine (h.replayTurn i hsalted.small hsalted.tenant hids hstore).bind fun r hr =>
      (ih hr.1).bind fun q hq => returns_ok ⟨?_, ?_⟩
    · rw [List.map_append, ← List.append_assoc]
      exact hq.1
    · rw [keysOf_append, hr.2, hq.2, List.flatMap_cons]

end

/-! ## The accesses of a tenant -/

section

variable {streams : Streams} {tenant : UInt32} {records : List (TraceRecord Int)} {log : TenantLog}

theorem filter_keysOfTenant (tenant tenant' : UInt32) (hashIds : List Int) :
    (keysOfTenant tenant' hashIds).filter (·.1 = tenant) =
      if tenant' = tenant then keysOfTenant tenant hashIds else [] := by
  split
  next heq =>
    subst heq
    exact List.filter_eq_self.mpr (List.forall_mem_map.mpr fun _ _ => decide_eq_true rfl)
  next hne =>
    exact List.filter_eq_nil_iff.mpr (List.forall_mem_map.mpr fun _ _ => by simpa using hne)

theorem filter_turnKeys (i : Nat) (hnodup : (streams.map Prod.fst).Nodup)
    (h : (tenant, records) ∈ streams) : (turnKeys i streams).filter (·.1 = tenant) =
      keysOfTenant tenant (traceIds records[i]?.toList) := by
  have hnone : ∀ streams : Streams, tenant ∉ streams.map Prod.fst →
      (turnKeys i streams).filter (·.1 = tenant) = [] := by
    intro streams hnot
    refine List.filter_eq_nil_iff.mpr fun e he => ?_
    obtain ⟨stream, hstream, hkey⟩ := List.mem_flatMap.mp he
    obtain ⟨hashId, -, rfl⟩ := List.mem_map.mp hkey
    have hne : stream.1 ≠ tenant := fun heq => hnot (heq ▸ List.mem_map_of_mem hstream)
    simpa using hne
  induction streams with
  | nil => cases h
  | cons stream streams ih =>
    obtain ⟨tenant', records'⟩ := stream
    obtain ⟨hnot, hnodup⟩ := List.nodup_cons.mp hnodup
    rw [turnKeys_cons, List.filter_append, filter_keysOfTenant]
    rcases List.mem_cons.mp h with heq | hmem
    · cases heq
      rw [if_pos rfl, hnone streams hnot, List.append_nil]
    · have hne : tenant' ≠ tenant := by
        rintro rfl
        exact hnot (List.mem_map.mpr ⟨_, hmem, rfl⟩)
      rw [if_neg hne, List.nil_append, ih hnodup hmem]

theorem flatMap_getElem? {A B : Type} (f : A → List B) (l : List A) {n : Nat}
    (h : l.length ≤ n) :
    (List.range n).flatMap (fun i => l[i]?.toList.flatMap f) = l.flatMap f := by
  induction l generalizing n with
  | nil => simp
  | cons x l ih =>
    obtain ⟨m, rfl⟩ : ∃ m, n = m + 1 := ⟨n - 1, by rw [List.length_cons] at h; omega⟩
    rw [List.range_succ_eq_map, List.flatMap_cons, List.flatMap_map]
    simp only [List.getElem?_cons_zero, List.getElem?_cons_succ, List.flatMap_cons]
    rw [ih (Nat.le_of_succ_le_succ h)]
    simp

theorem length_le_maxLength (h : (tenant, records) ∈ streams) :
    records.length ≤ maxLength streams := by
  induction streams with
  | nil => cases h
  | cons stream streams ih =>
    rcases List.mem_cons.mp h with rfl | hmem
    · exact le_max_left _ _
    · exact (ih hmem).trans (le_max_right _ _)

/-- A tenant accesses the ids of its trace in order. -/
theorem idsOf_tenantEvents (hnodup : (streams.map Prod.fst).Nodup)
    (h : (tenant, records) ∈ streams)
    (hkeys : keysOf log = (List.range (maxLength streams)).flatMap (turnKeys · streams)) :
    idsOf (tenantEvents tenant log) = (traceIds records).map (tenantKey tenant) := by
  have hrecords : ∀ l : List (TraceRecord Int), keysOfTenant tenant (traceIds l) =
      l.flatMap fun record => keysOfTenant tenant record.hashIds := fun l => List.map_flatMap
  have hfilter : (keysOf log).filter (·.1 = tenant) = keysOfTenant tenant (traceIds records) := by
    rw [hkeys, List.filter_flatMap, hrecords, ← flatMap_getElem? _ _ (length_le_maxLength h)]
    congr 1
    funext i
    exact (filter_turnKeys i hnodup h).trans (hrecords _)
  have hids := congrArg (List.map (·.2)) hfilter
  rw [keysOf, List.filter_map, List.map_map, keysOfTenant, List.map_map] at hids
  rw [idsOf, tenantEvents, List.map_map]
  exact hids

/-- The accesses of the tenants whose keys these are. -/
theorem tenantEvents_eq (hlog : ∀ e ∈ log, tenantOf e.2.hashId = e.1) :
    tenantEvents tenant log =
      (log.map (·.2)).filter fun event => tenantOf event.hashId = tenant := by
  rw [tenantEvents, List.filter_map]
  congr 1
  refine List.filter_congr fun e he => ?_
  rw [Function.comp_apply, hlog e he]

end

/-! ## Isolation -/

section

variable {streams : Streams} {tenant : UInt32} {records : List (TraceRecord Int)} {log : TenantLog}
  {fastBlocks slowFactor : Nat}

theorem Warm.filter {events : List (AccessEvent BlockKey)} (h : Warm events)
    (p : BlockKey → Bool) : Warm (events.filter fun event => p event.hashId) := by
  refine AtEvery.filter h fun before event hp hwarm hhit => ?_
  obtain ⟨event', hevent', hid⟩ := List.mem_map.mp (hwarm hhit)
  exact List.mem_map.mpr ⟨event', List.mem_filter.mpr ⟨hevent', by rw [hid]; exact hp⟩, hid⟩

theorem hitsSeen_filter {events : List (AccessEvent BlockKey)}
    (h : HitsWhere (fun before key => key ∈ before) events) (p : BlockKey → Bool) :
    HitsWhere (fun before key => key ∈ before) (events.filter fun event => p event.hashId) := by
  refine AtEvery.filter h fun before event hp hseen => hseen.trans ⟨fun hmem => ?_, fun hmem => ?_⟩
  · obtain ⟨event', hevent', hid⟩ := List.mem_map.mp hmem
    exact List.mem_map.mpr ⟨event', List.mem_filter.mpr ⟨hevent', by rw [hid]; exact hp⟩, hid⟩
  · obtain ⟨event', hevent', hid⟩ := List.mem_map.mp hmem
    exact List.mem_map.mpr ⟨event', (List.mem_filter.mp hevent').1, hid⟩

/-- The accesses of a tenant: it hits only where it has accessed the id itself. -/
structure OwnHits (records : List (TraceRecord Int)) (events : List (AccessEvent BlockKey)) :
    Prop where
  accesses : events.length = (traceIds records).length
  warm : Warm events
  hits_le : hitsOf events + (traceIds records).toFinset.card ≤ events.length

/-- What a replay of several tenants leaves. -/
structure Isolated {D : Type} (streams : Streams) (log : TenantLog) (store : PyTieredStore D) :
    Prop where
  tenants : ∀ tenant records, (tenant, records) ∈ streams →
    OwnHits records (tenantEvents tenant log)
  charged : ∀ key block tenant, contents store.manager key = some (block, tenant) →
    ∃ e ∈ log, e.1 = tenant ∧ e.2.hashId = key

theorem Streams.Salted.card_keys (hsalted : streams.Salted) (h : (tenant, records) ∈ streams) :
    ((traceIds records).map (tenantKey tenant)).toFinset.card =
      (traceIds records).toFinset.card := by
  have himage : ((traceIds records).map (tenantKey tenant)).toFinset =
      (traceIds records).toFinset.image (tenantKey tenant) := by
    ext key
    simp
  rw [himage]
  refine Finset.card_image_of_injOn fun hashId hhash hashId' hhash' heq => ?_
  exact tenantKey_inj (hsalted.small _ h hashId (List.mem_toFinset.mp hhash))
    (hsalted.small _ h hashId' (List.mem_toFinset.mp hhash')) (hsalted.tenant _ h) heq

/-- Every key of the log belongs to the tenant that accessed it. -/
theorem Streams.Salted.tenantOf_log (hsalted : streams.Salted) {indices : List Nat}
    (hkeys : keysOf log = indices.flatMap (turnKeys · streams)) :
    ∀ e ∈ log, tenantOf e.2.hashId = e.1 := by
  intro e he
  have hmem : (e.1, e.2.hashId) ∈ keysOf log := List.mem_map_of_mem he
  rw [hkeys] at hmem
  obtain ⟨i, -, hturn⟩ := List.mem_flatMap.mp hmem
  obtain ⟨⟨tenant, records⟩, hstream, hkey⟩ := List.mem_flatMap.mp hturn
  obtain ⟨hashId, hhash, heq⟩ := List.mem_map.mp hkey
  obtain ⟨record, hrecord, hid⟩ := List.mem_flatMap.mp hhash
  have hid' := mem_traceIds (Option.mem_toList.mp hrecord) hid
  rw [← (Prod.mk.inj heq).1, ← (Prod.mk.inj heq).2]
  exact tenantOf_tenantKey (hsalted.small _ hstream hashId hid') (hsalted.tenant _ hstream)

theorem isolated_of_stocked {D : Type} [DoubleArith D] {tiers : TierConfig D}
    {store : PyTieredStore D} (hsalted : streams.Salted)
    (h : Stocked tiers tenantOf (log.map (·.2)) store)
    (hkeys : keysOf log = (List.range (maxLength streams)).flatMap (turnKeys · streams)) :
    Isolated streams log store := by
  have hlog := hsalted.tenantOf_log hkeys
  constructor
  · intro tenant records hstream
    have hids := idsOf_tenantEvents hsalted.nodup hstream hkeys
    have hlength := congrArg List.length hids
    rw [idsOf, List.length_map, List.length_map] at hlength
    have hwarm : Warm (tenantEvents tenant log) := by
      rw [tenantEvents_eq hlog]
      exact h.warm.filter fun key => tenantOf key = tenant
    have hle := hwarm.hits_add_distinct_le
    rw [distinctIds, hids, hsalted.card_keys hstream] at hle
    exact ⟨hlength, hwarm, hle⟩
  · intro key block tenant hstored
    obtain ⟨hseen, hvalue⟩ := h.blank key _ hstored
    obtain ⟨event, hevent, rfl⟩ := List.mem_map.mp hseen
    obtain ⟨e, he, rfl⟩ := List.mem_map.mp hevent
    exact ⟨e, he, (hlog e he).symm.trans (Prod.mk.inj hvalue).2.symm, rfl⟩

/-- The keys of all tenants. -/
def Streams.keys (streams : Streams) : List BlockKey :=
  streams.flatMap fun stream => (traceIds stream.2).map (tenantKey stream.1)

theorem Streams.mem_keys : ∀ stream ∈ streams, ∀ hashId ∈ traceIds stream.2,
    tenantKey stream.1 hashId ∈ streams.keys := fun stream hstream _ hhash =>
  List.mem_flatMap.mpr ⟨stream, hstream, List.mem_map_of_mem hhash⟩

/-- The keys of all tenants are no more than the ids of each. -/
theorem Streams.card_keys_le (streams : Streams) : streams.keys.toFinset.card ≤
    (streams.map fun stream => (traceIds stream.2).toFinset.card).sum := by
  induction streams with
  | nil => exact Nat.le_refl _
  | cons stream streams ih =>
    have hfirst : ((traceIds stream.2).map (tenantKey stream.1)).toFinset.card ≤
        (traceIds stream.2).toFinset.card := by
      refine le_trans (Finset.card_le_card fun key hkey => ?_)
        (Finset.card_image_le (f := tenantKey stream.1))
      rw [List.mem_toFinset] at hkey
      obtain ⟨hashId, hhash, rfl⟩ := List.mem_map.mp hkey
      exact Finset.mem_image_of_mem _ (List.mem_toFinset.mpr hhash)
    rw [Streams.keys, List.flatMap_cons, List.toFinset_append, List.map_cons, List.sum_cons]
    exact (Finset.card_union_le _ _).trans (Nat.add_le_add hfirst ih)

/-- **Isolation of tenants.** With any weights, a replay of any number of tenants runs to its end. A
tenant hits only ids that it has accessed itself, whatever ids the others use, and every block is
charged to a tenant that has accessed it. Where the storage has room for the ids of all tenants, a
tenant misses only the first access to each of its own. -/
theorem replayStreams_isolated (streams : Streams) (fastBlocks slowFactor : Nat)
    (weights : AList fun _ : UInt32 => Double) (hsalted : streams.Salted) (hfast : 1 ≤ fastBlocks)
    (hexact : Exact fastBlocks slowFactor) :
    Returns (replayStreams streams (replayStore fastBlocks slowFactor weights)) fun r =>
      Isolated streams r.1 r.2 ∧
        (1 ≤ slowFactor → (streams.map fun stream => (traceIds stream.2).toFinset.card).sum ≤
            fastBlocks * (1 + slowFactor) →
          ∀ tenant records, (tenant, records) ∈ streams →
            hitsOf (tenantEvents tenant r.1) + (traceIds records).toFinset.card =
              (traceIds records).length) := by
  have hstart := stocked_replayStore fastBlocks slowFactor weights tenantOf
  have hstocked := stocked_replayable tenantOf rfl (hexact.fits hfast weights) streams.keys
  obtain ⟨r, hr, hfinal, hkeys⟩ := hstocked.replayTurns (List.range (maxLength streams)) hsalted
    Streams.mem_keys hstart
  refine ⟨r, hr, isolated_of_stocked hsalted hfinal hkeys, ?_⟩
  intro hslow hroom tenant records hstream
  have hids : streams.keys.toFinset.card ≤
      roomFor (replayStore fastBlocks slowFactor weights).tiers blockBytes := by
    rw [hexact.roomFor]
    exact streams.card_keys_le.trans hroom
  have hcomplete := complete_replayable tenantOf rfl (hexact.fitsAll hfast hslow) hids
  have hall := ((hcomplete.replayTurns (List.range (maxLength streams)) hsalted Streams.mem_keys
    ⟨hstart, nofun, List.nil_subset _, atEvery_nil _⟩).of_eq hr).1.hits
  have hhits : HitsWhere (fun before key => key ∈ before) (tenantEvents tenant r.1) := by
    rw [tenantEvents_eq (hsalted.tenantOf_log hkeys)]
    exact hitsSeen_filter hall fun key => tenantOf key = tenant
  have htotal := hhits.hits_add_distinct
  have htenant := idsOf_tenantEvents hsalted.nodup hstream hkeys
  have hlength := congrArg List.length htenant
  rw [idsOf, List.length_map, List.length_map] at hlength
  rwa [distinctIds, htenant, hsalted.card_keys hstream, hlength] at htotal

end

/-! ## A flood -/

section

theorem traceIds_floodFrom (blocksPerRequest i nextId count : Nat) :
    traceIds (floodFrom blocksPerRequest i nextId count) =
      (List.range' nextId (blocksPerRequest * count)).map Int.ofNat := by
  induction count generalizing i nextId with
  | zero => rfl
  | succ count ih =>
    have hrest := ih (i + 1) (nextId + blocksPerRequest)
    rw [traceIds] at hrest
    rw [floodFrom, traceIds, List.flatMap_cons, hrest, ← List.map_append, List.range'_append_1,
      Nat.mul_succ, Nat.add_comm]

theorem traceIds_floodRecords (count : Nat) :
    traceIds (floodRecords count) = (List.range' 1 (32 * count)).map Int.ofNat :=
  traceIds_floodFrom 32 0 1 count

theorem nodup_floodRecords (count : Nat) : (traceIds (floodRecords count)).Nodup := by
  rw [traceIds_floodRecords]
  exact List.Nodup.map (fun _ _ heq => Int.ofNat.inj heq) List.nodup_range'

theorem salted_flood {recordsA : List (TraceRecord Int)}
    (hsmall : ∀ hashId ∈ traceIds recordsA, Small hashId) (hcount : 32 * recordsA.length < 2 ^ 48) :
    Streams.Salted [(1, recordsA), (2, floodRecords recordsA.length)] where
  small := by
    refine List.forall_mem_cons.mpr ⟨hsmall, List.forall_mem_singleton.mpr fun hashId hhash => ?_⟩
    rw [traceIds_floodRecords] at hhash
    obtain ⟨n, hn, rfl⟩ := List.mem_map.mp hhash
    obtain ⟨-, hlt⟩ := List.mem_range'_1.mp hn
    exact ⟨Int.natCast_nonneg n, by show (n : Int) < 2 ^ 48; omega⟩
  tenant := List.forall_mem_cons.mpr ⟨show (1 : UInt32).toNat < 2 ^ 16 by decide,
    List.forall_mem_singleton.mpr (show (2 : UInt32).toNat < 2 ^ 16 by decide)⟩
  nodup := show ([1, 2] : List UInt32).Nodup by decide

theorem zero_div_double (x : Double) : (DoubleArith.ofSize 0 : Double) / x = 0 := by
  show Double.mk (roundDouble (roundDouble (0 : Nat) / x.value)) = ⟨0⟩
  rw [roundDouble_natCast (by decide), Nat.cast_zero, zero_div, roundDouble, if_pos rfl]

/-- **A flood.** With any weights, the tenant of the flood has no hits, and the rate of the other one
is that of its accesses, which hit only repeated ids of its own. -/
theorem replayPair_flood (recordsA : List (TraceRecord Int)) (fastBlocks slowFactor : Nat)
    (weights : AList fun _ : UInt32 => Double)
    (hsmall : ∀ hashId ∈ traceIds recordsA, Small hashId)
    (hcount : 32 * recordsA.length < 2 ^ 48) (hfast : 1 ≤ fastBlocks)
    (hexact : Exact fastBlocks slowFactor) :
    Returns (replayPair recordsA .flood fastBlocks slowFactor weights) fun rates =>
      Returns (replayStreams [(1, recordsA), (2, floodRecords recordsA.length)]
        (replayStore fastBlocks slowFactor weights)) fun r =>
          OwnHits recordsA (tenantEvents 1 r.1) ∧ hitsOf (tenantEvents 2 r.1) = 0 ∧
            rates = [(1, if (traceIds recordsA).length = 0 then 0
                else DoubleArith.ofSize (hitsOf (tenantEvents 1 r.1)) /
                  DoubleArith.ofSize (traceIds recordsA).length),
              (2, 0)] := by
  have hsalted := salted_flood hsmall hcount
  have hreplay := stocked_replayable tenantOf rfl (hexact.fits hfast weights)
    (Streams.keys [(1, recordsA), (2, floodRecords recordsA.length)])
  obtain ⟨r, hrun, hstocked, hkeys⟩ := hreplay.replayTurns _ hsalted Streams.mem_keys
    (stocked_replayStore fastBlocks slowFactor weights _)
  refine Returns.bind (P := (· = r)) ⟨r, hrun, rfl⟩ fun _ heq => heq ▸ returns_ok ?_
  have hisolated := (isolated_of_stocked hsalted hstocked hkeys).tenants
  have hown := hisolated 1 recordsA (by simp)
  obtain ⟨haccesses', -, hle'⟩ := hisolated 2 (floodRecords recordsA.length) (by simp)
  -- the ids of the flood are all different
  have hnone : hitsOf (tenantEvents 2 r.1) = 0 := by
    rw [List.toFinset_card_of_nodup (nodup_floodRecords _), haccesses'] at hle'
    omega
  refine ⟨r, hrun, hown, hnone, ?_⟩
  show [((1 : UInt32), if (tenantEvents 1 r.1).length = 0 then 0
    else DoubleArith.ofSize (hitsOf (tenantEvents 1 r.1)) / DoubleArith.ofSize _),
    (2, if (tenantEvents 2 r.1).length = 0 then 0
      else DoubleArith.ofSize (hitsOf (tenantEvents 2 r.1)) / DoubleArith.ofSize _)] = _
  rw [hown.accesses, hnone, zero_div_double, ite_self]

end

/-- A trace of two requests that share a block. -/
def sharedBlock : List (TraceRecord Int) := [⟨0, 1024, 8, [1, 2]⟩, ⟨5, 1024, 8, [2, 3]⟩]

theorem replayStreams_isolated_sharedBlock :
    Returns (replayStreams [(1, sharedBlock), (2, sharedBlock)] (replayStore (D := Double) 2 2 ∅))
      fun r =>
      hitsOf (tenantEvents 1 r.1) + 3 = 4 ∧ hitsOf (tenantEvents 2 r.1) + 3 = 4 :=
  (replayStreams_isolated [(1, sharedBlock), (2, sharedBlock)] 2 2 ∅
    ⟨by decide, by decide, by decide⟩ (by decide) ⟨by decide, by decide⟩).mono fun r h =>
      have hall := h.2 (by decide) (by decide)
      ⟨hall 1 sharedBlock (by simp), hall 2 sharedBlock (by simp)⟩

theorem replayPair_flood_sharedBlock :
    Returns (replayPair sharedBlock .flood 1 1 ∅) fun rates =>
      ∃ hits, hits + 3 ≤ 4 ∧
        rates = [(1, (DoubleArith.ofSize hits / DoubleArith.ofSize 4 : Double)), (2, 0)] :=
  (replayPair_flood sharedBlock 1 1 ∅ (by decide) (by decide) (by decide)
    ⟨by decide, by decide⟩).mono fun _ ⟨r, _, hown, _, hrates⟩ =>
      ⟨hitsOf (tenantEvents 1 r.1), hown.hits_le.trans hown.accesses.le, hrates⟩

end TieredKVCache.Bench
