import TieredKVCache.Bench.AccessLog
import TieredKVCache.Core.WholeDouble
import TieredKVCache.VllmAdapter.StoreCalls

/-!
# The replay of a trace on the storage

`replay_cpp.py` replays a trace on the bindings of the tiered storage: it prefetches the chains that
the blocks of a request predict, reads the blocks that the storage has, and puts the others. The
replay of `replay_multitenant.py` shares the loop over the blocks.
-/

namespace TieredKVCache.Bench

open Lib Storage VllmAdapter

/-! ## The loop over the blocks of a request -/

/-- What ends a replay: a fault of the storage, a `TypeError` of the bindings, or what a binding
raises. -/
inductive ReplayFailure where
  | fault (fault : Fault)
  | typeError
  | raised (error : PyError)

/-- A call of a binding, of which no exception is caught. -/
def uncaught {A S : Type} : Except Fault (Except PyError A × S) → Except ReplayFailure (A × S)
  | .error fault => .error (.fault fault)
  | .ok (.error error, _) => .error (.raised error)
  | .ok (.ok a, store) => .ok (a, store)

/-- `mk.BlockKey(hash_id)`: the id has to fit 64 bits. -/
def newBlockKey (hashId : Int) : Except ReplayFailure BlockKey :=
  if 0 ≤ hashId ∧ hashId < 2 ^ 64 then
    .ok { hashId := UInt64.ofNat hashId.toNat, layer := 0, version := 1 }
  else .error .typeError

/-- `_BLOCK_BYTES`. -/
def blockBytes : Nat := 256

/-- `_PAYLOAD`. -/
def blankPayload : List UInt8 := List.replicate blockBytes 0

section

variable {D : Type} [DoubleArith D]

/-- `exists` of the bindings. -/
def holds (key : BlockKey) (store : PyTieredStore D) : Bool := (locate key store.manager).hit

/-- The body of the loop over the keys: whether the block was there. -/
def accessKey (tenantId : UInt32) (key : BlockKey) (store : PyTieredStore D) :
    Except ReplayFailure (Bool × PyTieredStore D) := do
  if holds key store then
    let (_, store) ← (store.get key).mapError .fault
    return (true, store)
  else
    let (_, store) ← uncaught (store.put key blankPayload tenantId)
    return (false, store)

def accessKeys (tenantId : UInt32) : List BlockKey → PyTieredStore D →
    Except ReplayFailure (List (AccessEvent BlockKey) × PyTieredStore D)
  | [], store => .ok ([], store)
  | key :: keys, store => do
    let (hit, store) ← accessKey tenantId key store
    let (events, store) ← accessKeys tenantId keys store
    return (⟨key, hit⟩ :: events, store)

/-- The body of the loop over the records, with the keys of the record. -/
def replayKeys (tenantId : UInt32) (keys : List BlockKey) (store : PyTieredStore D) :
    Except ReplayFailure (List (AccessEvent BlockKey) × PyTieredStore D) := do
  let (_, store) ← uncaught (store.prefetchChainMulti keys ProjectKVConnector.chainBudget)
  let (events, store) ← accessKeys tenantId keys store
  return (events, store.recordSequence keys)

/-- The storage that a replay starts with. -/
def replayStore (fastBlocks slowFactor : Nat) (tenantWeights : AList fun _ : UInt32 => D) :
    PyTieredStore D where
  tiers := {
    hbmCapacityBytes := some (fastBlocks * blockBytes)
    dramCapacityBytes := some (fastBlocks * slowFactor * blockBytes)
    nvmeCapacityBytes := none
    highWaterRatio := DoubleArith.ofSize 1
    tenantWeights }

end

/-! ## What a replay preserves -/

section

variable {D : Type} [DoubleArith D] {I : List (AccessEvent BlockKey) → PyTieredStore D → Prop}
  {tenantOf : BlockKey → UInt32} {ids keys : List BlockKey} {past : List (AccessEvent BlockKey)}
  {store : PyTieredStore D} {tiers : TierConfig D} {fast : Tier}

/-- The steps of a replay raise nothing and keep what they are given, with the log before them. -/
structure Replayable (I : List (AccessEvent BlockKey) → PyTieredStore D → Prop)
    (tenantOf : BlockKey → UInt32) (ids : List BlockKey) : Prop where
  prefetch : ∀ {past store} (keys : List BlockKey), I past store →
    Returns (uncaught (store.prefetchChainMulti keys ProjectKVConnector.chainBudget)) fun r =>
      I past r.2
  access : ∀ {past store}, ∀ key ∈ ids, I past store →
    Returns (accessKey (tenantOf key) key store) fun r => I (past ++ [⟨key, r.1⟩]) r.2
  record : ∀ {past store} (keys : List BlockKey), I past store → I past (store.recordSequence keys)

theorem Replayable.accessKeys (h : Replayable I tenantOf ids) (tenantId : UInt32)
    (hkeys : ∀ key ∈ keys, key ∈ ids ∧ tenantOf key = tenantId) (hstore : I past store) :
    Returns (Bench.accessKeys tenantId keys store) fun r =>
      I (past ++ r.1) r.2 ∧ idsOf r.1 = keys := by
  induction keys generalizing past store with
  | nil =>
    refine returns_ok ⟨?_, rfl⟩
    rwa [List.append_nil]
  | cons key keys ih =>
    obtain ⟨⟨hkey, htenant⟩, hrest⟩ := List.forall_mem_cons.mp hkeys
    have haccess := h.access key hkey hstore
    rw [htenant] at haccess
    rw [Bench.accessKeys]
    refine haccess.bind fun ⟨hit, store'⟩ hnext => (ih hrest hnext).bind fun r hr => ?_
    refine returns_ok ⟨?_, congrArg (key :: ·) hr.2⟩
    rw [List.append_assoc] at hr
    exact hr.1

theorem Replayable.replayKeys (h : Replayable I tenantOf ids) (tenantId : UInt32)
    (hkeys : ∀ key ∈ keys, key ∈ ids ∧ tenantOf key = tenantId) (hstore : I past store) :
    Returns (Bench.replayKeys tenantId keys store) fun r =>
      I (past ++ r.1) r.2 ∧ idsOf r.1 = keys := by
  rw [Bench.replayKeys]
  refine (h.prefetch keys hstore).bind fun r hr => ?_
  refine (h.accessKeys tenantId hkeys hr).bind fun q hq => ?_
  exact returns_ok ⟨h.record keys hq.1, hq.2⟩

/-! ## What is stored -/

/-- The storage holds blank payloads of ids that have been accessed, under the tenants of these. -/
structure Stocked (tiers : TierConfig D) (tenantOf : BlockKey → UInt32)
    (past : List (AccessEvent BlockKey)) (store : PyTieredStore D) : Prop where
  tiers : store.tiers = tiers
  sound : store.Sound
  blank : ∀ k v, contents store.manager k = some v →
    k ∈ idsOf past ∧ v = (blockFromPayload k blankPayload, tenantOf k)
  warm : Warm past

omit [DoubleArith D] in
theorem holds_iff {key : BlockKey} : holds key store = true ↔ key ∈ residents store.manager := by
  rw [holds, locate_hit, mem_residents, Option.isSome_iff_exists]

theorem Stocked.keeps {store' : PyTieredStore D} (h : Stocked tiers tenantOf past store)
    (hkeeps : store.Keeps store') : Stocked tiers tenantOf past store' where
  tiers := hkeeps.tiers.trans h.tiers
  sound := hkeeps.sound
  blank k v hk := h.blank k v (hkeeps.contents_sub hk)
  warm := h.warm

theorem Stocked.seen (h : Stocked tiers tenantOf past store) {key : BlockKey}
    (hkey : key ∈ residents store.manager) : key ∈ idsOf past := by
  obtain ⟨it, hit⟩ := mem_residents.mp hkey
  refine (h.blank key (it.block, it.entry.tenantId) ?_).1
  rw [contents, hit, Option.map_some]

theorem Stocked.uniform (h : Stocked tiers tenantOf past store) :
    Uniform blockBytes store.manager := by
  intro k it hk
  have hblank := (h.blank k (it.block, it.entry.tenantId) (by rw [contents, hk, Option.map_some])).2
  rw [(Prod.mk.inj hblank).1, blockSizeBytes_blockFromPayload, blankPayload, List.length_replicate]

theorem Stocked.snoc (h : Stocked tiers tenantOf past store) {event : AccessEvent BlockKey}
    (hwarm : event.hit = true → event.hashId ∈ idsOf past) :
    Stocked tiers tenantOf (past ++ [event]) store where
  tiers := h.tiers
  sound := h.sound
  blank k v hk := by
    obtain ⟨hseen, hv⟩ := h.blank k v hk
    rw [idsOf_append]
    exact ⟨List.mem_append_left _ hseen, hv⟩
  warm := h.warm.snoc hwarm

/-- An access hits if and only if the block is there, and leaves it there. -/
theorem Stocked.access (h : Stocked tiers tenantOf past store)
    (hfast : tiers.fastestTierCache = some fast)
    (hfits : blockBytes ≤ tiers.evictionThresholdOf fast) (key : BlockKey) :
    Returns (accessKey (tenantOf key) key store) fun r =>
      (r.1 = true ↔ key ∈ residents store.manager) ∧
        Stocked tiers tenantOf (past ++ [⟨key, r.1⟩]) r.2 ∧
          (r.1 = true ∧ store.Keeps r.2 ∨
            r.1 = false ∧ store.Puts key blankPayload (tenantOf key) r.2) := by
  rw [accessKey]
  cases hhit : holds key store with
  | true =>
    have hkey := holds_iff.mp hhit
    rw [if_pos rfl]
    obtain ⟨⟨payload, store'⟩, hget, -, hkeeps⟩ := PyTieredStore.get_keeps h.sound key
    rw [hget]
    exact returns_ok ⟨iff_of_true rfl hkey, (h.snoc fun _ => h.seen hkey).keeps hkeeps,
      .inl ⟨rfl, hkeeps⟩⟩
  | false =>
    have hkey : key ∉ residents store.manager := fun hmem =>
      Bool.false_ne_true (hhit.symm.trans (holds_iff.mpr hmem))
    rw [if_neg Bool.false_ne_true]
    have hfast' : store.tiers.fastestTierCache = some fast := h.tiers ▸ hfast
    obtain ⟨⟨raised, store'⟩, hput, hcase⟩ :=
      PyTieredStore.put_puts h.sound hfast' key blankPayload (tenantOf key)
    rcases hcase with ⟨-, rfl, hputs⟩ | ⟨hlarge, -⟩
    · rw [hput]
      refine returns_ok ⟨iff_of_false Bool.false_ne_true hkey, ⟨hputs.tiers.trans h.tiers,
        hputs.sound, fun k v hk => ?_, h.warm.snoc nofun⟩, .inr ⟨rfl, hputs⟩⟩
      have hupdated := hputs.contents_sub hk
      rw [idsOf_append]
      by_cases heq : k = key
      · subst heq
        rw [Function.update_self] at hupdated
        exact ⟨List.mem_append_right _ List.mem_cons_self, (Option.some.inj hupdated).symm⟩
      · rw [Function.update_of_ne heq] at hupdated
        exact ⟨List.mem_append_left _ (h.blank k v hupdated).1, (h.blank k v hupdated).2⟩
    · rw [h.tiers, blankPayload, List.length_replicate] at hlarge
      exact absurd hfits (Nat.not_le_of_lt hlarge)

theorem stocked_replayable (tenantOf : BlockKey → UInt32)
    (hfast : tiers.fastestTierCache = some fast)
    (hfits : blockBytes ≤ tiers.evictionThresholdOf fast) (ids : List BlockKey) :
    Replayable (Stocked tiers tenantOf) tenantOf ids where
  prefetch keys h := by
    obtain ⟨⟨raised, store'⟩, hprefetch, ⟨count, rfl⟩, hkeeps⟩ :=
      PyTieredStore.prefetchChainMulti_keeps h.sound (h.tiers ▸ hfast) keys _
    rw [hprefetch]
    exact returns_ok (h.keeps hkeeps)
  access key _ h := (h.access hfast hfits key).mono fun r hr => hr.2.1
  record keys h := ⟨h.tiers, h.sound, h.blank, h.warm⟩

/-! ## Room for every id -/

/-- The storage holds every id that has been accessed. -/
structure Complete (tiers : TierConfig D) (tenantOf : BlockKey → UInt32) (ids : List BlockKey)
    (past : List (AccessEvent BlockKey)) (store : PyTieredStore D) : Prop where
  stocked : Stocked tiers tenantOf past store
  all : ∀ key ∈ idsOf past, key ∈ residents store.manager
  within : idsOf past ⊆ ids
  hits : HitsWhere (fun before key => key ∈ before) past

theorem complete_replayable (tenantOf : BlockKey → UInt32)
    (hfast : tiers.fastestTierCache = some fast)
    (hfits : FitsAll tiers blockBytes) (hroom : ids.toFinset.card ≤ roomFor tiers blockBytes) :
    Replayable (Complete tiers tenantOf ids) tenantOf ids where
  prefetch keys h := by
    obtain ⟨⟨raised, store'⟩, hprefetch, ⟨count, rfl⟩, hkeeps⟩ :=
      PyTieredStore.prefetchChainMulti_keeps h.stocked.sound (h.stocked.tiers ▸ hfast) keys _
    rw [hprefetch]
    refine returns_ok ⟨h.stocked.keeps hkeeps, fun key hkey => ?_, h.within, h.hits⟩
    rw [hkeeps.residents blockBytes (h.stocked.tiers ▸ hfits) h.stocked.uniform]
    exact h.all key hkey
  record keys h := ⟨⟨h.stocked.tiers, h.stocked.sound, h.stocked.blank, h.stocked.warm⟩, h.all,
    h.within, h.hits⟩
  access {past store} key hkey h := by
    have hfit := (hfits fast (TierConfig.fastestTierCache_configured hfast)).1
    apply (h.stocked.access hfast hfit key).mono
    rintro ⟨hit, store'⟩ ⟨hhit, hstocked, hcase⟩
    have hfits' : FitsAll store.tiers blockBytes := h.stocked.tiers ▸ hfits
    -- the key joins the keys that are there
    have hresidents : residents store'.manager = insert key (residents store.manager) := by
      rcases hcase with ⟨hfound, hkeeps⟩ | ⟨-, hputs⟩
      · rw [hkeeps.residents blockBytes hfits' h.stocked.uniform,
          Finset.insert_eq_of_mem (hhit.mp hfound)]
      · refine hputs.residents blockBytes hfits' h.stocked.uniform (by decide)
          List.length_replicate ?_
        rw [h.stocked.tiers]
        refine le_trans (Finset.card_le_card fun x hx => ?_) hroom
        rw [List.mem_toFinset]
        rcases Finset.mem_insert.mp hx with rfl | hx
        · exact hkey
        · exact h.within (h.stocked.seen hx)
    refine ⟨hstocked, fun x hx => ?_, ?_, h.hits.snoc ?_⟩
    · rw [hresidents, Finset.mem_insert]
      rw [idsOf_append, List.mem_append, idsOf_cons, idsOf_nil, List.mem_singleton] at hx
      exact hx.symm.imp_right (h.all x)
    · rw [idsOf_append]
      exact List.append_subset.mpr ⟨h.within, List.cons_subset.mpr ⟨hkey, List.nil_subset _⟩⟩
    · exact hhit.trans ⟨h.stocked.seen, h.all key⟩

end

/-! ## The keys of ids -/

/-- The key of an id that fits 64 bits. -/
def keyOf (hashId : Int) : BlockKey :=
  { hashId := UInt64.ofNat hashId.toNat, layer := 0, version := 1 }

theorem keyOf_injOn {h h' : Int} (hh : 0 ≤ h ∧ h < 2 ^ 64) (hh' : 0 ≤ h' ∧ h' < 2 ^ 64)
    (heq : keyOf h = keyOf h') : h = h' := by
  have hids : UInt64.ofNat h.toNat = UInt64.ofNat h'.toNat := congrArg BlockKey.hashId heq
  have hlt : h.toNat < 2 ^ 64 := by omega
  have hlt' : h'.toNat < 2 ^ 64 := by omega
  have hnat := congrArg UInt64.toNat hids
  rw [UInt64.toNat_ofNat_of_lt' hlt, UInt64.toNat_ofNat_of_lt' hlt'] at hnat
  omega

theorem mapM_newBlockKey {hashIds : List Int}
    (h : ∀ hashId ∈ hashIds, 0 ≤ hashId ∧ hashId < 2 ^ 64) :
    hashIds.mapM newBlockKey = .ok (hashIds.map keyOf) := by
  induction hashIds with
  | nil => rfl
  | cons hashId hashIds ih =>
    obtain ⟨hid, hrest⟩ := List.forall_mem_cons.mp h
    rw [List.mapM_cons, newBlockKey, if_pos hid, ih hrest]
    rfl

theorem mapM_newBlockKey_typeError {hashIds : List Int}
    (h : ¬ ∀ hashId ∈ hashIds, 0 ≤ hashId ∧ hashId < 2 ^ 64) :
    hashIds.mapM newBlockKey = .error .typeError := by
  induction hashIds with
  | nil => exact absurd (fun _ hmem => absurd hmem List.not_mem_nil) h
  | cons hashId hashIds ih =>
    rw [List.mapM_cons, newBlockKey]
    by_cases hid : 0 ≤ hashId ∧ hashId < 2 ^ 64
    · rw [if_pos hid, ih fun hrest => h (List.forall_mem_cons.mpr ⟨hid, hrest⟩)]
      rfl
    · rw [if_neg hid]
      rfl

/-! ## The storage of a replay -/

section

variable {fastBlocks slowFactor : Nat} {weights : AList fun _ : UInt32 => Double}

/-- With the high-water mark at the capacity, a tier is filled up. -/
theorem evictionThresholdOf_double {tiers : TierConfig Double}
    (hratio : tiers.highWaterRatio = DoubleArith.ofSize 1) {t : Tier}
    (h : tiers.capacityOf t < 2 ^ 53) : tiers.evictionThresholdOf t = tiers.capacityOf t := by
  have hsame : (DoubleArith.ofSize (tiers.capacityOf t) : Double) * tiers.highWaterRatio =
      DoubleArith.ofSize (tiers.capacityOf t) := by
    rw [hratio]
    show Double.mk (roundDouble (roundDouble (tiers.capacityOf t) * roundDouble (1 : Nat))) =
      Double.mk (roundDouble (tiers.capacityOf t))
    rw [roundDouble_natCast h, roundDouble_natCast (by decide), Nat.cast_one, mul_one,
      roundDouble_natCast h]
  unfold TierConfig.evictionThresholdOf
  simp only [hsame, ite_self]
  show ⌊roundDouble (tiers.capacityOf t)⌋.toNat = _
  rw [roundDouble_natCast h, Int.floor_natCast, Int.toNat_natCast]

/-- The sizes of the tiers are ones that `double` holds. -/
structure Exact (fastBlocks slowFactor : Nat) : Prop where
  fast : fastBlocks * blockBytes < 2 ^ 53
  slow : fastBlocks * slowFactor * blockBytes < 2 ^ 53

theorem Exact.threshold (h : Exact fastBlocks slowFactor) (t : Tier) :
    (replayStore fastBlocks slowFactor weights).tiers.evictionThresholdOf t =
      (replayStore fastBlocks slowFactor weights).tiers.capacityOf t := by
  refine evictionThresholdOf_double rfl ?_
  cases t with
  | hbm => exact h.fast
  | dram => exact h.slow
  | nvme => exact Nat.two_pow_pos 53

theorem Exact.fits (h : Exact fastBlocks slowFactor) (hfast : 1 ≤ fastBlocks)
    (weights : AList fun _ : UInt32 => Double) :
    blockBytes ≤ (replayStore fastBlocks slowFactor weights).tiers.evictionThresholdOf .hbm := by
  rw [h.threshold]
  exact Nat.le_mul_of_pos_left blockBytes hfast

theorem Exact.fitsAll (h : Exact fastBlocks slowFactor) (hfast : 1 ≤ fastBlocks)
    (hslow : 1 ≤ slowFactor) :
    FitsAll (replayStore fastBlocks slowFactor weights).tiers blockBytes := by
  intro t ht
  rw [h.threshold]
  refine and_self_iff.mpr ?_
  cases t with
  | hbm => exact Nat.le_mul_of_pos_left blockBytes hfast
  | dram => exact Nat.le_mul_of_pos_left blockBytes (Nat.mul_pos hfast hslow)
  | nvme => cases ht

theorem Exact.roomFor (h : Exact fastBlocks slowFactor) :
    Storage.roomFor (replayStore fastBlocks slowFactor weights).tiers blockBytes =
      fastBlocks * (1 + slowFactor) := by
  have hconf : ({t ∈ {Tier.hbm, .dram, .nvme} |
      (replayStore fastBlocks slowFactor weights).tiers.configured t = true} : Finset Tier) =
        {.hbm, .dram} := by
    ext t
    rw [Finset.mem_filter]
    cases t <;> simp [TierConfig.configured, TierConfig.capacityField, replayStore]
  rw [Storage.roomFor, hconf, Finset.sum_pair (by decide), h.threshold, h.threshold]
  show fastBlocks * blockBytes / blockBytes + fastBlocks * slowFactor * blockBytes / blockBytes = _
  rw [Nat.mul_div_cancel _ (by decide), Nat.mul_div_cancel _ (by decide), Nat.mul_add, Nat.mul_one]

theorem stocked_replayStore {D : Type} [DoubleArith D] (fastBlocks slowFactor : Nat)
    (weights : AList fun _ : UInt32 => D) (tenantOf : BlockKey → UInt32) :
    Stocked (replayStore fastBlocks slowFactor weights).tiers tenantOf []
      (replayStore fastBlocks slowFactor weights) where
  tiers := rfl
  sound := good_fresh _
  blank k v hk := by cases hk
  warm := atEvery_nil _

end

end TieredKVCache.Bench
