import TieredKVCache.Scheduler.Route
import TieredKVCache.Storage.PrefixPrefetcher
import TieredKVCache.Storage.Retention

/-!
# The KV connector

`ProjectKVConnector` of `vllm_adapter/connector.py` on the bindings of `bindings.cpp`: one node with
its tiered storage, and the cross-node index of the scheduler. `store_kv` registers every block that
it puts, and no call unregisters one. So the index and the storage agree on the blocks of the node
as long as every block that capacity enforcement drops is put again in the same call, and no longer
(`coherent_iff_restores`).
-/

namespace TieredKVCache.VllmAdapter

open Lib Storage Scheduler

/-- `ValueError`, and the `RuntimeError` that the bindings raise. -/
inductive PyError where
  | valueError (message : String)
  | runtimeError (message : String)
deriving DecidableEq, Repr

/-! ## The bindings -/

/-- `PyTieredStore`; `tiers` is the configuration of its manager. -/
structure PyTieredStore (D : Type) where
  tiers : TierConfig D
  manager : State := .fresh
  prefetcher : PrefixPrefetcher := .new

/-- `BlockFromPayload`. -/
def blockFromPayload (key : BlockKey) (payload : List UInt8) : KVCacheBlock :=
  let half := payload.length / 2
  { key, dtype := .float16, kPayload := payload.take half, vPayload := payload.drop half }

/-- `PayloadFromBlock`. -/
def payloadFromBlock (block : KVCacheBlock) : List UInt8 := block.kPayload ++ block.vPayload

/-- A status that is no success is raised. -/
def raiseStatus (status : Status) : Except PyError Unit :=
  if !status.isOk then .error (.runtimeError status.message) else .ok ()

namespace PyTieredStore

variable {D : Type} [DoubleArith D]

def put (key : BlockKey) (payload : List UInt8) (tenantId : UInt32) (store : PyTieredStore D) :
    Except Fault (Except PyError Unit × PyTieredStore D) := do
  let (status, manager) ←
    write .lazy store.tiers (blockFromPayload key payload) .hbm tenantId store.manager
  return (raiseStatus status, { store with manager })

def get (key : BlockKey) (store : PyTieredStore D) :
    Except Fault (Option (List UInt8) × PyTieredStore D) := do
  let (result, manager) ← read .lazy store.tiers key store.manager
  match result with
  | .error _ => return (none, { store with manager })
  | .ok block => return (some (payloadFromBlock block), { store with manager })

def prefetch (keys : List BlockKey) (store : PyTieredStore D) :
    Except Fault (Except PyError Unit × PyTieredStore D) := do
  let (status, manager) ← Storage.prefetch .lazy store.tiers keys store.manager
  return (raiseStatus status, { store with manager })

omit [DoubleArith D] in
def recordSequence (keys : List BlockKey) (store : PyTieredStore D) : PyTieredStore D :=
  { store with prefetcher := store.prefetcher.recordSequence keys }

/-- The number of predicted blocks. -/
def prefetchChainMulti (anchors : List BlockKey) (budget : Nat) (store : PyTieredStore D) :
    Except Fault (Except PyError Nat × PyTieredStore D) :=
  let chain := store.prefetcher.predictChainMulti anchors budget
  if chain.isEmpty then .ok (.ok chain.length, store)
  else do
    let (raised, store) ← store.prefetch chain
    return (raised.map fun _ => chain.length, store)

end PyTieredStore

/-! ## The connector -/

/-- The capabilities, which are only reported, are left out. -/
structure ConnectorConfig where
  prefixReuseEnabled : Bool := true

/-- Of the scheduler the calls reach the index alone. -/
structure ProjectKVConnector (D : Type) where
  config : ConnectorConfig
  index : CrossNodeIndex
  store : PyTieredStore D
  selfNode : NodeId

structure LoadResult where
  loaded : AList fun _ : BlockKey => List UInt8
  missing : List BlockKey

namespace ProjectKVConnector

variable {D : Type} [DoubleArith D]

/-- The loop of `store_kv`: a block is registered once it has been put. -/
def storeBlocks : List (BlockKey × List UInt8) → ProjectKVConnector D →
    Except Fault (Except PyError Unit × ProjectKVConnector D)
  | [], c => .ok (.ok (), c)
  | (key, payload) :: rest, c => do
    let (raised, store) ← c.store.put key payload 0
    match raised with
    | .error e => return (.error e, { c with store })
    | .ok () => storeBlocks rest { c with store, index := c.index.register key c.selfNode }

def storeKv (requestId : String) (blockKeys : List BlockKey) (tensors : List (List UInt8))
    (c : ProjectKVConnector D) : Except Fault (Except PyError Unit × ProjectKVConnector D) :=
  if blockKeys.length ≠ tensors.length then
    .ok (.error (.valueError ("块键与张量数量不一致：" ++ toString blockKeys.length ++ " != " ++
      toString tensors.length ++ "（request_id=" ++ requestId ++ "）")), c)
  else do
    let (raised, c) ← storeBlocks (blockKeys.zip tensors) c
    match raised with
    | .error e => return (.error e, c)
    | .ok () =>
      if c.config.prefixReuseEnabled then
        return (.ok (), { c with store := c.store.recordSequence blockKeys })
      else return (.ok (), c)

/-- The default of `prefetch_chain_multi`. -/
def chainBudget : Nat := 8

/-- What `load_kv` prefetches before it loads. -/
def prefetchBlocks (blockKeys : List BlockKey) (store : PyTieredStore D) :
    Except Fault (Except PyError Unit × PyTieredStore D) := do
  let (raised, store) ← store.prefetch blockKeys
  match raised with
  | .error e => return (.error e, store)
  | .ok () =>
    if blockKeys.isEmpty then return (.ok (), store)
    else
      let (raised, store) ← store.prefetchChainMulti blockKeys chainBudget
      return (raised.map fun _ => (), store)

/-- The loop of `load_kv`. -/
def loadBlocks : List BlockKey → LoadResult → PyTieredStore D →
    Except Fault (LoadResult × PyTieredStore D)
  | [], result, store => .ok (result, store)
  | key :: keys, result, store => do
    let (payload, store) ← store.get key
    match payload with
    | none => loadBlocks keys { result with missing := result.missing ++ [key] } store
    | some payload =>
      loadBlocks keys { result with loaded := result.loaded.insert key payload } store

/-- The request id is not read. -/
def loadKv (_requestId : String) (blockKeys : List BlockKey) (c : ProjectKVConnector D) :
    Except Fault (Except PyError LoadResult × ProjectKVConnector D) := do
  let (raised, store) ←
    if c.config.prefixReuseEnabled then prefetchBlocks blockKeys c.store
    else .ok (.ok (), c.store)
  match raised with
  | .error e => return (.error e, { c with store })
  | .ok () =>
    let (result, store) ← loadBlocks blockKeys ⟨∅, []⟩ store
    return (.ok result, { c with store })

/-! ## Runs -/

inductive Call where
  | storeKv (requestId : String) (blockKeys : List BlockKey) (tensors : List (List UInt8))
  | loadKv (requestId : String) (blockKeys : List BlockKey)

inductive Outcome where
  | stored (result : Except PyError Unit)
  | loaded (result : Except PyError LoadResult)

def runCall : Call → ProjectKVConnector D → Except Fault (Outcome × ProjectKVConnector D)
  | .storeKv requestId blockKeys tensors, c => do
    let (result, c) ← c.storeKv requestId blockKeys tensors
    return (.stored result, c)
  | .loadKv requestId blockKeys, c => do
    let (result, c) ← c.loadKv requestId blockKeys
    return (.loaded result, c)

def runCalls : List Call → ProjectKVConnector D →
    Except Fault (List Outcome × ProjectKVConnector D)
  | [], c => .ok ([], c)
  | call :: calls, c => do
    let (outcome, c) ← runCall call c
    let (outcomes, c) ← runCalls calls c
    return (outcome :: outcomes, c)

/-! ## The calls of the manager -/

/-- The puts of a call up to the first one that raises. -/
def putOps (tiers : TierConfig D) (blocks : List (BlockKey × List UInt8)) : List Op :=
  (blocks.map fun (key, payload) => Op.write (blockFromPayload key payload) .hbm 0).takeWhile
    fun op => decide (writtenKeys tiers op ≠ ∅)

/-- The prefetches of `load_kv`; without a tier the first one raises. -/
def prefetchOps (blockKeys : List BlockKey) (prefetcher : PrefixPrefetcher) : List Op :=
  let chain := prefetcher.predictChainMulti blockKeys chainBudget
  if chain.isEmpty then [.prefetch blockKeys] else [.prefetch blockKeys, .prefetch chain]

/-- The calls of the manager that a call of the connector makes and that do not raise. -/
def managerOps (c : ProjectKVConnector D) : Call → List Op
  | .storeKv _ blockKeys tensors =>
    if blockKeys.length ≠ tensors.length then [] else putOps c.store.tiers (blockKeys.zip tensors)
  | .loadKv _ blockKeys =>
    let reads := blockKeys.map Op.read
    if !c.config.prefixReuseEnabled then reads
    else if c.store.tiers.fastestTierCache = none then []
    else prefetchOps blockKeys c.store.prefetcher ++ reads

end ProjectKVConnector

namespace PyTieredStore

variable {D : Type} [DoubleArith D] {store store' store'' : PyTieredStore D} {ops ops' : List Op}
  {key : BlockKey}

/-- The store makes these calls of its manager. -/
structure Performs (ops : List Op) (store store' : PyTieredStore D) : Prop where
  tiers : store'.tiers = store.tiers
  ran : Ran store.tiers ops store.manager store'.manager

theorem Performs.refl (store : PyTieredStore D) : Performs [] store store := ⟨rfl, .nil _⟩

theorem Performs.append (h : Performs ops store store') (h' : Performs ops' store' store'') :
    Performs (ops ++ ops') store store'' :=
  ⟨h'.tiers.trans h.tiers, h.ran.append (h.tiers ▸ h'.ran)⟩

def Sound (store : PyTieredStore D) : Prop := Good store.tiers store.manager

theorem Performs.sound (h : Performs ops store store') (hsound : store.Sound) : store'.Sound :=
  show Good store'.tiers store'.manager from h.tiers ▸ h.ran.good hsound

/-- A put that does not raise writes its key, and one that raises changes nothing. -/
theorem put_returns (hsound : store.Sound) (key : BlockKey) (payload : List UInt8) :
    Returns (store.put key payload 0) fun r =>
      let op := Op.write (blockFromPayload key payload) .hbm 0
      (r.1 = .ok () ∧ writtenKeys store.tiers op = {key} ∧ Performs [op] store r.2) ∨
        ((∃ e, r.1 = .error e) ∧ writtenKeys store.tiers op = ∅ ∧ r.2 = store) := by
  obtain ⟨⟨status, manager⟩, hwrite, hmoved, -⟩ :=
    write_returns .lazy hsound (blockFromPayload key payload) .hbm 0
  have hput : store.put key payload 0 = .ok (raiseStatus status, { store with manager }) := by
    rw [put, hwrite]
    rfl
  have hop : runOp .lazy store.tiers (.write (blockFromPayload key payload) .hbm 0) store.manager =
      .ok (.status status, manager) := by
    rw [runOp, hwrite]
    rfl
  refine ⟨_, hput, ?_⟩
  cases hmoved with
  | @write _ _ _ t _ ht hplaced =>
    cases hplaced with
    | refused hsize =>
      refine .inr ⟨⟨_, rfl⟩, ?_, rfl⟩
      rw [writtenKeys, ht]
      exact if_neg (Nat.not_le_of_lt hsize)
    | placed hsize hsteps hgood =>
      refine .inl ⟨rfl, ?_, rfl, .single hop⟩
      rw [writtenKeys, ht]
      exact if_pos hsize
  | unconfigured hnone hop =>
    refine .inr ⟨⟨_, rfl⟩, ?_, rfl⟩
    rw [writtenKeys, show store.tiers.resolveConfiguredTier .hbm = none from hnone]

theorem get_returns (hsound : store.Sound) (key : BlockKey) :
    Returns (store.get key) fun r => Performs [.read key] store r.2 := by
  obtain ⟨⟨result, manager⟩, hread, -⟩ := read_returns .lazy hsound key
  have hop : runOp .lazy store.tiers (.read key) store.manager = .ok (.block result, manager) := by
    rw [runOp, hread]
    rfl
  have hperforms : Performs [.read key] store { store with manager } := ⟨rfl, .single hop⟩
  unfold get
  rw [hread]
  cases result with
  | error status => exact returns_ok hperforms
  | ok block => exact returns_ok hperforms

/-- A prefetch raises where there is no tier, and changes nothing then. -/
theorem prefetch_returns (hsound : store.Sound) (keys : List BlockKey) :
    Returns (store.prefetch keys) fun r =>
      (store.tiers.fastestTierCache ≠ none ∧ r.1 = .ok () ∧ Performs [.prefetch keys] store r.2 ∧
          r.2.prefetcher = store.prefetcher) ∨
        (store.tiers.fastestTierCache = none ∧ (∃ e, r.1 = .error e) ∧ r.2 = store) := by
  obtain ⟨⟨status, manager⟩, hprefetch, hmoved, -⟩ :=
    Storage.prefetch_returns .lazy hsound keys
  have hcall : store.prefetch keys = .ok (raiseStatus status, { store with manager }) := by
    rw [prefetch, hprefetch]
    rfl
  refine ⟨_, hcall, ?_⟩
  cases hmoved with
  | prefetch hfast hkeys =>
    have hop : runOp .lazy store.tiers (.prefetch keys) store.manager =
        .ok (.status .success, manager) := by
      rw [runOp, hprefetch]
      rfl
    exact .inl ⟨by simp [hfast], rfl, ⟨rfl, .single hop⟩, rfl⟩
  | unconfigured hnone hop => exact .inr ⟨hnone, ⟨_, rfl⟩, rfl⟩

end PyTieredStore

namespace ProjectKVConnector

variable {D : Type} [DoubleArith D] {c c' c'' : ProjectKVConnector D} {ops ops' : List Op}

/-- The connector makes these calls of its manager and registers the blocks that they write. -/
structure Performs (ops : List Op) (c c' : ProjectKVConnector D) : Prop where
  selfNode : c'.selfNode = c.selfNode
  store : c.store.Performs ops c'.store
  registers : ∀ key, c'.selfNode ∈ c'.index.lookup key ↔
    c.selfNode ∈ c.index.lookup key ∨ Written c.store.tiers key ops

theorem Performs.refl (c : ProjectKVConnector D) : Performs [] c c where
  selfNode := rfl
  store := .refl c.store
  registers key := by simp

theorem Performs.append (h : Performs ops c c') (h' : Performs ops' c' c'') :
    Performs (ops ++ ops') c c'' where
  selfNode := h'.selfNode.trans h.selfNode
  store := h.store.append h'.store
  registers key := by
    rw [h'.registers, h.registers, h.store.tiers, or_assoc, written_append]

/-- Calls that write nothing. -/
theorem Performs.of_store {store : PyTieredStore D} (h : c.store.Performs ops store)
    (hops : ∀ op ∈ ops, writtenKeys c.store.tiers op = ∅) : Performs ops c { c with store } where
  selfNode := rfl
  store := h
  registers key := by
    have hnone : ¬ Written c.store.tiers key ops := by
      rintro ⟨op, hop, hkey⟩
      rw [hops op hop] at hkey
      exact Finset.notMem_empty _ hkey
    simp [hnone]

theorem storeBlocks_returns (blocks : List (BlockKey × List UInt8)) (hsound : c.store.Sound) :
    Returns (storeBlocks blocks c) fun r => Performs (putOps c.store.tiers blocks) c r.2 := by
  induction blocks generalizing c with
  | nil => exact returns_ok (.refl c)
  | cons block blocks ih =>
    obtain ⟨key, payload⟩ := block
    obtain ⟨⟨raised, store⟩, hput, hcase⟩ := PyTieredStore.put_returns hsound key payload
    rw [storeBlocks, hput, putOps, List.map_cons, List.takeWhile_cons]
    rcases hcase with ⟨rfl, hkeys, hperforms⟩ | ⟨⟨e, rfl⟩, hkeys, rfl⟩
    · have hfirst : Performs [.write (blockFromPayload key payload) .hbm 0] c
          { c with store, index := c.index.register key c.selfNode } := by
        refine ⟨rfl, hperforms, fun key' => ?_⟩
        have hwritten : Written c.store.tiers key' [.write (blockFromPayload key payload) .hbm 0] ↔
            key' = key := by
          simp [Written, hkeys]
        rw [hwritten]
        show c.selfNode ∈ (c.index.register key c.selfNode).lookup key' ↔ _
        rw [CrossNodeIndex.mem_lookup_register]
        split
        next heq => simp [heq]
        next hne => simp [hne]
      rw [if_pos (by simp [hkeys])]
      have hrest := ih (c := { c with store, index := c.index.register key c.selfNode })
        (hperforms.sound hsound)
      refine hrest.mono fun r hr => ?_
      rw [show store.tiers = c.store.tiers from hperforms.tiers] at hr
      exact hfirst.append hr
    · rw [if_neg (by simp [hkeys])]
      exact returns_ok (.refl c)

theorem storeKv_returns (requestId : String) (blockKeys : List BlockKey)
    (tensors : List (List UInt8)) (hsound : c.store.Sound) :
    Returns (c.storeKv requestId blockKeys tensors) fun r =>
      Performs (c.managerOps (.storeKv requestId blockKeys tensors)) c r.2 := by
  rw [storeKv, managerOps]
  split
  · exact returns_ok (.refl c)
  · apply (storeBlocks_returns (blockKeys.zip tensors) hsound).bind
    intro ⟨raised, c'⟩ hperforms
    cases raised with
    | error e => exact returns_ok hperforms
    | ok =>
      dsimp only
      split
      · exact returns_ok ⟨hperforms.selfNode, ⟨hperforms.store.tiers, hperforms.store.ran⟩,
          hperforms.registers⟩
      · exact returns_ok hperforms

end ProjectKVConnector

namespace PyTieredStore

variable {D : Type} [DoubleArith D] {store : PyTieredStore D}

theorem prefetchChainMulti_returns (hfast : store.tiers.fastestTierCache ≠ none)
    (anchors : List BlockKey) (budget : Nat) (hsound : store.Sound) :
    Returns (store.prefetchChainMulti anchors budget) fun r =>
      let chain := store.prefetcher.predictChainMulti anchors budget
      (∃ count, r.1 = .ok count) ∧
        Performs (if chain.isEmpty then [] else [.prefetch chain]) store r.2 := by
  rw [prefetchChainMulti]
  dsimp only
  split
  · exact returns_ok ⟨⟨_, rfl⟩, .refl store⟩
  · apply (prefetch_returns hsound _).bind
    rintro ⟨raised, store'⟩ (⟨-, rfl, hperforms, -⟩ | ⟨hnone, -⟩)
    · exact returns_ok ⟨⟨_, rfl⟩, hperforms⟩
    · exact absurd hnone hfast

end PyTieredStore

namespace ProjectKVConnector

variable {D : Type} [DoubleArith D] {c c' : ProjectKVConnector D} {store : PyTieredStore D}

theorem prefetchBlocks_returns (blockKeys : List BlockKey) (hsound : store.Sound) :
    Returns (prefetchBlocks blockKeys store) fun r =>
      (store.tiers.fastestTierCache ≠ none ∧ r.1 = .ok () ∧
          store.Performs (prefetchOps blockKeys store.prefetcher) r.2) ∨
        (store.tiers.fastestTierCache = none ∧ (∃ e, r.1 = .error e) ∧ r.2 = store) := by
  rw [prefetchBlocks]
  obtain ⟨⟨raised, store'⟩, hprefetch, hcase⟩ := PyTieredStore.prefetch_returns hsound blockKeys
  rw [hprefetch]
  rcases hcase with ⟨hfast, rfl, hperforms, hsame⟩ | ⟨hnone, ⟨e, rfl⟩, rfl⟩
  · cases blockKeys with
    | nil => exact returns_ok (.inl ⟨hfast, rfl, hperforms⟩)
    | cons key keys =>
      have hfast' : store'.tiers.fastestTierCache ≠ none := hperforms.tiers ▸ hfast
      apply (PyTieredStore.prefetchChainMulti_returns hfast' (key :: keys) chainBudget
        (hperforms.sound hsound)).bind
      rintro ⟨raised, store''⟩ ⟨⟨count, rfl⟩, hchain⟩
      refine returns_ok (.inl ⟨hfast, rfl, ?_⟩)
      rw [hsame] at hchain
      have hboth := hperforms.append hchain
      rw [prefetchOps]
      dsimp only
      split
      next hempty => simpa [hempty] using hboth
      next hchained => simpa [hchained] using hboth
  · exact returns_ok (.inr ⟨hnone, ⟨e, rfl⟩, rfl⟩)

theorem loadBlocks_returns (keys : List BlockKey) (result : LoadResult) (hsound : store.Sound) :
    Returns (loadBlocks keys result store) fun r => store.Performs (keys.map .read) r.2 := by
  induction keys generalizing result store with
  | nil => exact returns_ok (.refl store)
  | cons key keys ih =>
    rw [loadBlocks]
    apply (PyTieredStore.get_returns hsound key).bind
    intro ⟨payload, store'⟩ hfirst
    have hrest (result : LoadResult) : Returns (loadBlocks keys result store') fun r =>
        store.Performs ((key :: keys).map .read) r.2 :=
      (ih result (hfirst.sound hsound)).mono fun r hr => hfirst.append hr
    cases payload with
    | none => exact hrest _
    | some payload => exact hrest _

/-- Loading writes nothing. -/
theorem writtenKeys_loadKv {requestId : String} {blockKeys : List BlockKey} {op : Op}
    (hop : op ∈ c.managerOps (.loadKv requestId blockKeys)) : writtenKeys c.store.tiers op = ∅ := by
  have hreads : ∀ op ∈ blockKeys.map Op.read, writtenKeys c.store.tiers op = ∅ :=
    List.forall_mem_map.mpr fun _ _ => rfl
  rw [managerOps] at hop
  split at hop
  · exact hreads op hop
  split at hop
  · cases hop
  rcases List.mem_append.mp hop with hop | hop
  · rw [prefetchOps] at hop
    split at hop
    · cases List.mem_singleton.mp hop
      rfl
    · rcases List.mem_pair.mp hop with rfl | rfl <;> rfl
  · exact hreads op hop

theorem loadKv_returns (requestId : String) (blockKeys : List BlockKey) (hsound : c.store.Sound) :
    Returns (c.loadKv requestId blockKeys) fun r =>
      Performs (c.managerOps (.loadKv requestId blockKeys)) c r.2 := by
  have hload {store : PyTieredStore D}
      (h : c.store.Performs (c.managerOps (.loadKv requestId blockKeys)) store) :
      Performs (c.managerOps (.loadKv requestId blockKeys)) c { c with store } :=
    .of_store h fun _ => writtenKeys_loadKv
  by_cases hreuse : c.config.prefixReuseEnabled = true
  · obtain ⟨⟨raised, store⟩, hprefetch, hcase⟩ := prefetchBlocks_returns blockKeys hsound
    rw [loadKv, if_pos hreuse, hprefetch]
    rcases hcase with ⟨hfast, rfl, hperforms⟩ | ⟨hnone, ⟨e, rfl⟩, rfl⟩
    · apply (loadBlocks_returns blockKeys ⟨∅, []⟩ (hperforms.sound hsound)).bind
      intro ⟨result, store'⟩ hloads
      refine returns_ok (hload ?_)
      simpa [managerOps, hreuse, hfast] using hperforms.append hloads
    · refine returns_ok (hload ?_)
      simpa [managerOps, hreuse, hnone] using PyTieredStore.Performs.refl c.store
  · rw [loadKv, if_neg hreuse]
    apply (loadBlocks_returns blockKeys ⟨∅, []⟩ hsound).bind
    intro ⟨result, store'⟩ hloads
    refine returns_ok (hload ?_)
    simpa [managerOps, hreuse] using hloads

/-- What a call does to the manager and to the index. -/
theorem runCall_returns (call : Call) (hsound : c.store.Sound) :
    Returns (runCall call c) fun r => Performs (c.managerOps call) c r.2 := by
  cases call with
  | storeKv requestId blockKeys tensors =>
    exact (storeKv_returns requestId blockKeys tensors hsound).bind fun r h => returns_ok h
  | loadKv requestId blockKeys =>
    exact (loadKv_returns requestId blockKeys hsound).bind fun r h => returns_ok h

/-! ## What a run restores -/

/-- A connector on an empty store and an empty index. -/
def connect (config : ConnectorConfig) (tiers : TierConfig D) (hash : BlockKey → UInt64)
    (selfNode : NodeId) : ProjectKVConnector D :=
  { config, index := .new hash, store := { tiers }, selfNode }

/-- Every call of the run restores what it drops. -/
def CallsRestore (c : ProjectKVConnector D) (calls : List Call) : Prop :=
  ∀ before call, before ++ [call] <+: calls → Returns (runCalls before c) fun r =>
    Restores r.2.store.tiers (r.2.managerOps call) r.2.store.manager

theorem runCalls_cons {call : Call} {outcome : Outcome}
    (hcall : runCall call c = .ok (outcome, c')) (calls : List Call)
    (Q : ProjectKVConnector D → Prop) :
    (Returns (runCalls (call :: calls) c) fun r => Q r.2) ↔
      Returns (runCalls calls c') fun r => Q r.2 := by
  have hrun : runCalls (call :: calls) c =
      (runCalls calls c').map fun r => (outcome :: r.1, r.2) := by
    rw [runCalls, hcall]
    cases hcalls : runCalls calls c' with
    | error e => simp [hcalls, Bind.bind, Except.bind, Except.map]
    | ok r => simp [hcalls, Bind.bind, Except.bind, Except.map, Pure.pure, Except.pure]
  rw [hrun]
  constructor
  · rintro ⟨r, hr, hQ⟩
    cases hcalls : runCalls calls c' with
    | error e => rw [hcalls] at hr; cases hr
    | ok q =>
      rw [hcalls] at hr
      cases hr
      exact returns_ok hQ
  · exact fun h => h.map fun _ hQ => hQ

theorem callsRestore_cons {call : Call} {calls : List Call} {outcome : Outcome}
    (hcall : runCall call c = .ok (outcome, c')) :
    c.CallsRestore (call :: calls) ↔
      Restores c.store.tiers (c.managerOps call) c.store.manager ∧ c'.CallsRestore calls := by
  have hcons (before : List Call) (call' : Call) :=
    runCalls_cons hcall before fun c =>
      Restores c.store.tiers (c.managerOps call') c.store.manager
  constructor
  · intro h
    refine ⟨?_, fun before call' hprefix => ?_⟩
    · exact (h [] call (by simp)).of_eq rfl
    · exact (hcons before call').mp (h (call :: before) call' (by simpa using hprefix))
  · rintro ⟨hfirst, hrest⟩ before call' hprefix
    cases before with
    | nil =>
      cases List.singleton_prefix_cons_iff.mp hprefix
      exact returns_ok hfirst
    | cons call'' before =>
      obtain ⟨rfl, htail⟩ := List.cons_prefix_cons.mp hprefix
      exact (hcons before call').mpr (hrest before call' htail)

/-! ## Coherence -/

section

variable [BEq D]

/-- The index lists the node for the blocks that its storage holds, so that a route which reuses the
node finds a block there. -/
structure Coherent (c : ProjectKVConnector D) : Prop where
  listed_iff : ∀ key, c.selfNode ∈ c.index.lookup key ↔ (locate key c.store.manager).hit = true
  routed : ∀ (scheduler : SchedulerConfig) (snapshot : ClusterState D) (req : Request),
    (route scheduler c.index snapshot req).reusePrefix = true →
      (route scheduler c.index snapshot req).node = c.selfNode →
        ∃ key ∈ req.prefixKeys, (locate key c.store.manager).hit = true

theorem coherent_iff :
    c.Coherent ↔ ∀ key, c.selfNode ∈ c.index.lookup key ↔ key ∈ residents c.store.manager := by
  have hhit : ∀ key, (locate key c.store.manager).hit = true ↔ key ∈ residents c.store.manager := by
    intro key
    rw [locate_hit, mem_residents, Option.isSome_iff_exists]
  constructor
  · exact fun h key => (h.listed_iff key).trans (hhit key)
  · intro h
    refine ⟨fun key => (h key).trans (hhit key).symm, fun scheduler snapshot req hreuse hnode => ?_⟩
    rcases (route_spec scheduler c.index snapshot req).2 with
      ⟨-, -, -, key, hkey, hlisted⟩ | ⟨hnot, -⟩
    · rw [hnode] at hlisted
      exact ⟨key, hkey, (hhit key).mpr ((h key).mp hlisted)⟩
    · exact absurd (hnot.symm.trans hreuse) Bool.false_ne_true

/-- From a coherent state, a call leads to a coherent one if and only if it restores what it
drops. -/
theorem Coherent.call (h : c.Coherent) (hsound : c.store.Sound) {call : Call}
    (hperforms : Performs (c.managerOps call) c c') :
    c'.Coherent ↔ Restores c.store.tiers (c.managerOps call) c.store.manager := by
  obtain ⟨replies, hrun⟩ := hperforms.store.ran
  obtain ⟨hsub, hkeeps⟩ := (runOps_restores (c.managerOps call) hsound).of_eq hrun
  rw [coherent_iff] at h
  rw [← hkeeps, coherent_iff]
  refine forall_congr' fun key => ?_
  rw [hperforms.registers, h]
  exact iff_comm

theorem runCalls_coherent_iff (calls : List Call) (hsound : c.store.Sound) (h : c.Coherent) :
    (∀ before, before <+: calls → Returns (runCalls before c) fun r => r.2.Coherent) ↔
      c.CallsRestore calls := by
  induction calls generalizing c with
  | nil =>
    refine iff_of_true (fun before hbefore => ?_) fun before call hprefix => ?_
    · cases List.prefix_nil.mp hbefore
      exact returns_ok h
    · simp at hprefix
  | cons call calls ih =>
    obtain ⟨⟨outcome, c'⟩, hcall, hperforms⟩ := runCall_returns call hsound
    have hstep := h.call hsound hperforms
    have hsound' := hperforms.store.sound hsound
    have hprefixes : (∀ before, before <+: call :: calls →
        Returns (runCalls before c) fun r => r.2.Coherent) ↔
          ∀ before, before <+: calls → Returns (runCalls before c') fun r => r.2.Coherent := by
      constructor
      · exact fun hall before hbefore => (runCalls_cons hcall before Coherent).mp
          (hall (call :: before) (List.cons_prefix_cons.mpr ⟨rfl, hbefore⟩))
      · intro hall before hbefore
        rcases List.prefix_cons_iff.mp hbefore with rfl | ⟨before, rfl, htail⟩
        · exact returns_ok h
        · exact (runCalls_cons hcall before Coherent).mpr (hall before htail)
    rw [hprefixes, callsRestore_cons hcall, ← hstep]
    constructor
    · intro hall
      have hcoherent : c'.Coherent := (hall [] List.nil_prefix).of_eq rfl
      exact ⟨hcoherent, (ih hsound' hcoherent).mp hall⟩
    · exact fun ⟨hcoherent, hrest⟩ => (ih hsound' hcoherent).mpr hrest

theorem coherent_connect (config : ConnectorConfig) (tiers : TierConfig D)
    (hash : BlockKey → UInt64) (selfNode : NodeId) :
    (connect config tiers hash selfNode).Coherent := by
  rw [coherent_iff]
  intro key
  refine iff_of_false CrossNodeIndex.notMem_lookup_new fun hkey => ?_
  obtain ⟨it, hit⟩ := mem_residents.mp hkey
  cases hit

/-- **Coherence of the index.** In a run of the connector on a fresh store and index, the index
lists the node for exactly the blocks that its storage holds, before and after every call, if and
only if every block that a call drops is put again later in the same call. -/
theorem coherent_iff_restores (config : ConnectorConfig) (tiers : TierConfig D)
    (hash : BlockKey → UInt64) (selfNode : NodeId) (calls : List Call) :
    (∀ before, before <+: calls →
        Returns (runCalls before (connect config tiers hash selfNode)) fun r => r.2.Coherent) ↔
      (connect config tiers hash selfNode).CallsRestore calls :=
  runCalls_coherent_iff calls (good_fresh tiers) (coherent_connect config tiers hash selfNode)

end

/-- Two requests of which one tier holds one block. -/
def crowdedCalls : List Call :=
  [.storeKv "a" [plainKey 1] [List.replicate 6 0], .storeKv "b" [plainKey 2] [List.replicate 6 0]]

/-- The second block drops the first one, for which the index still lists the node. -/
theorem droppedBlock_listed :
    ¬ ∀ (config : ConnectorConfig) (tiers : TierConfig ℚ) (hash : BlockKey → UInt64)
      (selfNode : NodeId) (calls : List Call),
      Returns (runCalls calls (connect config tiers hash selfNode)) fun r => r.2.Coherent := by
  intro hall
  have hrun : Returns (runCalls crowdedCalls (connect {} oneTier (fun _ => 0) ⟨"node-a"⟩)) fun r =>
      r.2.selfNode ∈ r.2.index.lookup (plainKey 1) ∧
        (locate (plainKey 1) r.2.store.manager).hit = false := by
    refine returns_of_toOption (b := (true, false))
      (f := fun r => some (decide (r.2.selfNode ∈ r.2.index.lookup (plainKey 1)),
        (locate (plainKey 1) r.2.store.manager).hit)) (by decide +kernel) ?_
    intro r hr
    simpa using hr
  obtain ⟨r, hcalls, hlisted, hgone⟩ := hrun
  have hcoherent := (hall {} oneTier (fun _ => 0) ⟨"node-a"⟩ crowdedCalls).of_eq hcalls
  exact Bool.false_ne_true (hgone.symm.trans ((hcoherent.listed_iff (plainKey 1)).mp hlisted))

end ProjectKVConnector

end TieredKVCache.VllmAdapter
