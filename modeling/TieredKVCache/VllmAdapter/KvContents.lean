import TieredKVCache.Lib.Calls
import TieredKVCache.VllmAdapter.StoreCalls

/-!
# What the connector loads

Seen from vLLM, the connector is a lossy map from keys to payloads. Every call of a run answers as
this map does: a payload that is loaded is the one that the last put of its key has stored
(`runCalls_answer`). With payloads of one size and room for all keys the map loses nothing, and the
index lists the node for exactly the keys that it holds (`runCalls_lossless`).
-/

namespace TieredKVCache.VllmAdapter

open Lib Storage Scheduler

namespace ProjectKVConnector

variable {D : Type} [DoubleArith D]

/-! ## Puts -/

/-- The payloads after some puts. -/
def lastPut (puts : List (BlockKey × List UInt8)) : BlockKey → Option (List UInt8) :=
  puts.foldl (fun last put => Function.update last put.1 (some put.2)) fun _ => none

/-- The fastest tier takes a payload. -/
def fits (tiers : TierConfig D) (payload : List UInt8) : Bool :=
  match tiers.fastestTierCache with
  | none => false
  | some fast => payload.length ≤ tiers.evictionThresholdOf fast

/-- The puts of a call that are made: those before the first one that raises. -/
def putsOf (tiers : TierConfig D) : Call → List (BlockKey × List UInt8)
  | .storeKv _ blockKeys tensors =>
    if blockKeys.length ≠ tensors.length then []
    else (blockKeys.zip tensors).takeWhile fun put => fits tiers put.2
  | .loadKv _ _ => []

variable {config : ConnectorConfig} {tiers : TierConfig D} {puts : List (BlockKey × List UInt8)}
  {key : BlockKey} {payload : List UInt8} {c : ProjectKVConnector D}

theorem lastPut_append_singleton (puts : List (BlockKey × List UInt8)) (key : BlockKey)
    (payload : List UInt8) :
    lastPut (puts ++ [(key, payload)]) = Function.update (lastPut puts) key (some payload) := by
  rw [lastPut, List.foldl_append]
  rfl

/-! ## Answers -/

/-- The result of a load: each payload is the last one put, and each key is loaded or missing. -/
structure Loads (puts : List (BlockKey × List UInt8)) (blockKeys : List BlockKey)
    (result : LoadResult) : Prop where
  loaded : ∀ key payload, result.loaded.lookup key = some payload →
    key ∈ blockKeys ∧ lastPut puts key = some payload
  missing : ∀ key ∈ result.missing, key ∈ blockKeys
  answered : ∀ key ∈ blockKeys, result.loaded.lookup key ≠ none ∨ key ∈ result.missing

/-- What `store_kv` answers. -/
def StoreAnswers (tiers : TierConfig D) (requestId : String) (blockKeys : List BlockKey)
    (tensors : List (List UInt8)) (result : Except PyError Unit) : Prop :=
  if blockKeys.length ≠ tensors.length then
    result = .error (.valueError ("块键与张量数量不一致：" ++ toString blockKeys.length ++ " != " ++
      toString tensors.length ++ "（request_id=" ++ requestId ++ "）"))
  else if ∀ put ∈ blockKeys.zip tensors, fits tiers put.2 then result = .ok ()
  else ∃ message, result = .error (.runtimeError message)

/-- What `load_kv` answers after some puts. -/
def LoadAnswers (config : ConnectorConfig) (tiers : TierConfig D)
    (puts : List (BlockKey × List UInt8)) (blockKeys : List BlockKey)
    (result : Except PyError LoadResult) : Prop :=
  if config.prefixReuseEnabled ∧ tiers.fastestTierCache = none then
    ∃ message, result = .error (.runtimeError message)
  else ∃ r, result = .ok r ∧ Loads puts blockKeys r

def Answers (config : ConnectorConfig) (tiers : TierConfig D)
    (puts : List (BlockKey × List UInt8)) : Call → Outcome → Prop
  | .storeKv requestId blockKeys tensors, .stored result =>
    StoreAnswers tiers requestId blockKeys tensors result
  | .loadKv _ blockKeys, .loaded result => LoadAnswers config tiers puts blockKeys result
  | _, _ => False

/-- The connector after some puts. -/
structure Serves (config : ConnectorConfig) (tiers : TierConfig D)
    (puts : List (BlockKey × List UInt8)) (c : ProjectKVConnector D) : Prop where
  config : c.config = config
  tiers : c.store.tiers = tiers
  sound : c.store.Sound
  stored : ∀ key block tenantId, contents c.store.manager key = some (block, tenantId) →
    ∃ payload, lastPut puts key = some payload ∧ block = blockFromPayload key payload
  listed : ∀ key, c.selfNode ∈ c.index.lookup key ↔ lastPut puts key ≠ none

theorem Serves.keeps {store : PyTieredStore D} (h : Serves config tiers puts c)
    (hkeeps : c.store.Keeps store) : Serves config tiers puts { c with store } where
  config := h.config
  tiers := hkeeps.tiers.trans h.tiers
  sound := hkeeps.sound
  stored key block tenantId hk := h.stored key block tenantId (hkeeps.contents_sub hk)
  listed := h.listed

/-- Of the index only the registrations of the node itself matter. -/
theorem Serves.reindex (h : Serves config tiers puts c) {index : CrossNodeIndex}
    (hindex : ∀ key, c.selfNode ∈ index.lookup key ↔ c.selfNode ∈ c.index.lookup key) :
    Serves config tiers puts { c with index } :=
  ⟨h.config, h.tiers, h.sound, h.stored, fun key => (hindex key).trans (h.listed key)⟩

/-! ## Storing -/

/-- A put is made or raises, as its payload fits or not. -/
theorem put_made {store : PyTieredStore D} (hsound : store.Sound) (key : BlockKey)
    (payload : List UInt8) : Returns (store.put key payload 0) fun r =>
      (fits store.tiers payload = true ∧ r.1 = .ok () ∧ store.Puts key payload 0 r.2) ∨
        (fits store.tiers payload = false ∧ (∃ message, r.1 = .error (.runtimeError message)) ∧
          r.2 = store) := by
  cases hfast : store.tiers.fastestTierCache with
  | none =>
    obtain ⟨message, hput⟩ := PyTieredStore.put_unconfigured hfast key payload 0
    refine ⟨_, hput, .inr ⟨?_, ⟨message, rfl⟩, rfl⟩⟩
    rw [fits, hfast]
  | some fast =>
    apply (PyTieredStore.put_puts hsound hfast key payload 0).mono
    rintro r (⟨hle, hok, hputs⟩ | ⟨hlt, herror, hsame⟩)
    · refine .inl ⟨?_, hok, hputs⟩
      rw [fits, hfast]
      exact decide_eq_true hle
    · refine .inr ⟨?_, herror, hsame⟩
      rw [fits, hfast]
      exact decide_eq_false (Nat.not_le_of_lt hlt)

/-- A block that is put is registered. -/
theorem Serves.put {store : PyTieredStore D} (h : Serves config tiers puts c)
    (hputs : c.store.Puts key payload 0 store) : Serves config tiers (puts ++ [(key, payload)])
      { c with store, index := c.index.register key c.selfNode } where
  config := h.config
  tiers := hputs.tiers.trans h.tiers
  sound := hputs.sound
  stored key' block tenantId hk := by
    have hupdated := hputs.contents_sub hk
    rw [lastPut_append_singleton]
    by_cases heq : key' = key
    · subst heq
      rw [Function.update_self] at hupdated ⊢
      exact ⟨payload, rfl, (Prod.mk.inj (Option.some.inj hupdated)).1.symm⟩
    · rw [Function.update_of_ne heq] at hupdated ⊢
      exact h.stored key' block tenantId hupdated
  listed key' := by
    rw [lastPut_append_singleton]
    show c.selfNode ∈ (c.index.register key c.selfNode).lookup key' ↔ _
    rw [CrossNodeIndex.mem_lookup_register]
    by_cases heq : key' = key
    · subst heq
      simp
    · rw [Function.update_of_ne heq, if_neg heq]
      exact h.listed key'

/-- What the parts of a call keep, of which each put is one of `P`. -/
structure Preserved (config : ConnectorConfig) (tiers : TierConfig D)
    (P : BlockKey × List UInt8 → Prop)
    (I : List (BlockKey × List UInt8) → ProjectKVConnector D → Prop) : Prop where
  serves : ∀ {puts c}, I puts c → Serves config tiers puts c
  put : ∀ {puts c store key payload}, P (key, payload) → I puts c → fits tiers payload = true →
    c.store.Puts key payload 0 store →
      I (puts ++ [(key, payload)]) { c with store, index := c.index.register key c.selfNode }
  keeps : ∀ {puts c store}, I puts c → c.store.Keeps store → I puts { c with store }
  record : ∀ {puts c} (keys : List BlockKey), I puts c →
    I puts { c with store := c.store.recordSequence keys }

theorem serves_preserved (config : ConnectorConfig) (tiers : TierConfig D) :
    Preserved config tiers (fun _ => True) (Serves config tiers) where
  serves h := h
  put _ h _ hputs := h.put hputs
  keeps h hkeeps := h.keeps hkeeps
  record _ h := ⟨h.config, h.tiers, h.sound, h.stored, h.listed⟩

variable {P : BlockKey × List UInt8 → Prop}
  {I : List (BlockKey × List UInt8) → ProjectKVConnector D → Prop}

theorem Preserved.storeBlocks (hI : Preserved config tiers P I)
    (blocks : List (BlockKey × List UInt8)) (hblocks : ∀ put ∈ blocks, P put) (h : I puts c) :
    Returns (ProjectKVConnector.storeBlocks blocks c) fun r =>
      I (puts ++ blocks.takeWhile fun put => fits tiers put.2) r.2 ∧
        if ∀ put ∈ blocks, fits tiers put.2 then r.1 = .ok ()
        else ∃ message, r.1 = .error (.runtimeError message) := by
  induction blocks generalizing c puts with
  | nil =>
    refine returns_ok ⟨?_, rfl⟩
    rwa [List.takeWhile_nil, List.append_nil]
  | cons block blocks ih =>
    obtain ⟨key, payload⟩ := block
    obtain ⟨hblock, hblocks⟩ := List.forall_mem_cons.mp hblocks
    obtain ⟨⟨raised, store⟩, hput, hcase⟩ := put_made (hI.serves h).sound key payload
    rw [(hI.serves h).tiers] at hcase
    rw [ProjectKVConnector.storeBlocks, hput]
    rcases hcase with ⟨hfits, rfl, hputs⟩ | ⟨hfits, ⟨message, rfl⟩, rfl⟩
    · apply (ih hblocks (hI.put hblock h hfits hputs)).mono
      rintro r ⟨hlast, hresult⟩
      constructor
      · rw [List.takeWhile_cons, if_pos hfits, List.append_cons]
        exact hlast
      · simpa only [List.forall_mem_cons, hfits, true_and] using hresult
    · refine returns_ok ⟨?_, ?_⟩
      · rw [List.takeWhile_cons, if_neg (by simp [hfits]), List.append_nil]
        exact h
      · rw [if_neg fun hall => Bool.false_ne_true (hfits.symm.trans (hall _ List.mem_cons_self))]
        exact ⟨message, rfl⟩

theorem Preserved.storeKv (hI : Preserved config tiers P I) (requestId : String)
    (blockKeys : List BlockKey) (tensors : List (List UInt8))
    (hblocks : ∀ put ∈ blockKeys.zip tensors, P put) (h : I puts c) :
    Returns (c.storeKv requestId blockKeys tensors) fun r =>
      I (puts ++ putsOf tiers (.storeKv requestId blockKeys tensors)) r.2 ∧
        StoreAnswers tiers requestId blockKeys tensors r.1 := by
  rw [ProjectKVConnector.storeKv, putsOf]
  unfold StoreAnswers
  split
  · refine returns_ok ⟨?_, rfl⟩
    rwa [List.append_nil]
  · apply (hI.storeBlocks (blockKeys.zip tensors) hblocks h).bind
    rintro ⟨raised, c'⟩ ⟨hlast, hresult⟩
    cases raised with
    | error e => exact returns_ok ⟨hlast, hresult⟩
    | ok =>
      dsimp only
      split
      · exact returns_ok ⟨hI.record blockKeys hlast, hresult⟩
      · exact returns_ok ⟨hlast, hresult⟩

/-! ## Loading -/

theorem Serves.prefetchBlocks (h : Serves config tiers puts c) (blockKeys : List BlockKey) :
    Returns (ProjectKVConnector.prefetchBlocks blockKeys c.store) fun r => c.store.Keeps r.2 ∧
      if tiers.fastestTierCache = none then ∃ message, r.1 = .error (.runtimeError message)
      else r.1 = .ok () := by
  rw [ProjectKVConnector.prefetchBlocks]
  cases hfast : tiers.fastestTierCache with
  | none =>
    obtain ⟨message, hprefetch⟩ :=
      PyTieredStore.prefetch_unconfigured (h.tiers ▸ hfast) blockKeys
    rw [hprefetch]
    exact returns_ok ⟨.refl h.sound, ⟨message, rfl⟩⟩
  | some fast =>
    have hfast' : c.store.tiers.fastestTierCache = some fast := h.tiers ▸ hfast
    obtain ⟨⟨raised, store⟩, hprefetch, rfl, hkeeps, -⟩ :=
      PyTieredStore.prefetch_keeps h.sound hfast' blockKeys
    rw [hprefetch]
    cases blockKeys with
    | nil => exact returns_ok ⟨hkeeps, rfl⟩
    | cons key keys =>
      refine (PyTieredStore.prefetchChainMulti_keeps hkeeps.sound (hkeeps.tiers ▸ hfast')
        (key :: keys) chainBudget).bind ?_
      rintro ⟨raised, store'⟩ ⟨⟨count, rfl⟩, hkeeps'⟩
      exact returns_ok ⟨hkeeps.trans h.sound hkeeps', rfl⟩

/-- With blocks of one size, the key is not in the store. -/
def Absent (key : BlockKey) (store : PyTieredStore D) : Prop :=
  ∀ size, FitsAll store.tiers size → Uniform size store.manager → key ∉ residents store.manager

theorem Absent.of_keeps {store store' : PyTieredStore D} (h : Absent key store')
    (hkeeps : store.Keeps store') : Absent key store := by
  intro size hfits huniform
  rw [← hkeeps.residents size hfits huniform]
  exact h size (hkeeps.tiers ▸ hfits) (huniform.of_sub hkeeps.contents_sub)

/-- The keys before the ones that are still to be loaded. -/
theorem Serves.loadBlocks {store : PyTieredStore D} (h : Serves config tiers puts { c with store })
    (before keys : List BlockKey) {result : LoadResult} (hresult : Loads puts before result) :
    Returns (ProjectKVConnector.loadBlocks keys result store) fun r =>
      Loads puts (before ++ keys) r.1 ∧ store.Keeps r.2 ∧
        ∀ key ∈ r.1.missing, key ∈ result.missing ∨ Absent key store := by
  induction keys generalizing before result store with
  | nil =>
    refine returns_ok ⟨?_, .refl h.sound, fun key hkey => .inl hkey⟩
    rwa [List.append_nil]
  | cons key keys ih =>
    have hsplit : before ++ key :: keys = (before ++ [key]) ++ keys := List.append_cons _ _ _
    rw [ProjectKVConnector.loadBlocks, hsplit]
    obtain ⟨⟨payload, store'⟩, hget, hgets, hkeeps⟩ := PyTieredStore.get_keeps h.sound key
    rw [hget]
    have hrest (result' : LoadResult) (hresult' : Loads puts (before ++ [key]) result')
        (hmissing : ∀ key ∈ result'.missing, key ∈ result.missing ∨ Absent key store) :
        Returns (ProjectKVConnector.loadBlocks keys result' store') fun r =>
          Loads puts ((before ++ [key]) ++ keys) r.1 ∧ store.Keeps r.2 ∧
            ∀ key ∈ r.1.missing, key ∈ result.missing ∨ Absent key store := by
      apply (ih (h.keeps hkeeps) (before ++ [key]) hresult').mono
      rintro r ⟨hloads, hkeeps', habsent⟩
      refine ⟨hloads, hkeeps.trans h.sound hkeeps', fun key' hkey' => ?_⟩
      exact (habsent key' hkey').elim (hmissing key') fun hgone => .inr (hgone.of_keeps hkeeps)
    cases payload with
    | none =>
      refine hrest _ ⟨fun key' payload' hlookup => ?_, fun key' hmem => ?_, fun key' hmem => ?_⟩
        fun key' hmem => ?_
      · obtain ⟨hbefore, hlast⟩ := hresult.loaded key' payload' hlookup
        exact ⟨List.mem_append_left _ hbefore, hlast⟩
      · exact (List.mem_append.mp hmem).elim
          (fun hmem => List.mem_append_left _ (hresult.missing key' hmem))
          (fun hmem => List.mem_append_right _ hmem)
      · rcases List.mem_append.mp hmem with hmem | hmem
        · exact (hresult.answered key' hmem).imp_right (List.mem_append_left _)
        · exact .inr (List.mem_append_right _ hmem)
      · rcases List.mem_append.mp hmem with hmem | hmem
        · exact .inl hmem
        · cases List.mem_singleton.mp hmem
          exact .inr fun size hfits huniform => (hgets.found size hfits huniform).mp rfl
    | some payload =>
      obtain ⟨block, tenantId, hstored, hbytes⟩ := hgets.stored payload rfl
      obtain ⟨payload', hlast, hblock⟩ := h.stored key block tenantId hstored
      have hpayload : lastPut puts key = some payload := by
        rw [hlast, hbytes, hblock, payloadFromBlock_blockFromPayload]
      refine hrest _ ⟨fun key' payload' hlookup => ?_, fun key' hmem => ?_, fun key' hmem => ?_⟩
        fun key' hmem => .inl hmem
      · rcases lookup_insert_eq_some.mp hlookup with ⟨rfl, rfl⟩ | ⟨-, hlookup⟩
        · exact ⟨List.mem_append_right _ List.mem_cons_self, hpayload⟩
        · obtain ⟨hbefore, hlast⟩ := hresult.loaded key' payload' hlookup
          exact ⟨List.mem_append_left _ hbefore, hlast⟩
      · exact List.mem_append_left _ (hresult.missing key' hmem)
      · by_cases heq : key' = key
        · subst heq
          refine .inl ?_
          rw [AList.lookup_insert]
          exact Option.some_ne_none payload
        · rw [AList.lookup_insert_ne heq]
          rcases List.mem_append.mp hmem with hmem | hmem
          · exact hresult.answered key' hmem
          · exact absurd (List.mem_singleton.mp hmem) heq

theorem loads_nil (puts : List (BlockKey × List UInt8)) : Loads puts [] ⟨∅, []⟩ where
  loaded key payload h := by cases h
  missing key h := by cases h
  answered key h := by cases h

omit [DoubleArith D] in
theorem loadAnswers_loaded {blockKeys : List BlockKey} {result : LoadResult}
    (h : ¬ (config.prefixReuseEnabled = true ∧ tiers.fastestTierCache = none))
    (hloads : Loads puts blockKeys result) :
    LoadAnswers config tiers puts blockKeys (.ok result) := by
  rw [LoadAnswers, if_neg h]
  exact ⟨result, rfl, hloads⟩

omit [DoubleArith D] in
theorem loadAnswers_raised {blockKeys : List BlockKey} {message : String}
    (h : config.prefixReuseEnabled = true ∧ tiers.fastestTierCache = none) :
    LoadAnswers config tiers puts blockKeys (.error (.runtimeError message)) := by
  rw [LoadAnswers, if_pos h]
  exact ⟨message, rfl⟩

theorem Serves.loadKv (h : Serves config tiers puts c) (requestId : String)
    (blockKeys : List BlockKey) : Returns (c.loadKv requestId blockKeys) fun r =>
      (∃ store, r.2 = { c with store } ∧ c.store.Keeps store) ∧
        LoadAnswers config tiers puts blockKeys r.1 ∧
          ∀ result, r.1 = .ok result → ∀ key ∈ result.missing, Absent key c.store := by
  rw [ProjectKVConnector.loadKv, h.config]
  cases hreuse : config.prefixReuseEnabled with
  | false =>
    rw [if_neg Bool.false_ne_true]
    apply (h.loadBlocks [] blockKeys (loads_nil puts)).bind
    rintro r ⟨hloads, hkeeps, habsent⟩
    refine returns_ok ⟨⟨_, rfl, hkeeps⟩, loadAnswers_loaded
      (fun hand => Bool.false_ne_true (hreuse.symm.trans hand.1)) hloads, ?_⟩
    rintro result hok key hkey
    cases hok
    exact (habsent key hkey).resolve_left List.not_mem_nil
  | true =>
    rw [if_pos rfl]
    obtain ⟨⟨raised, store⟩, hprefetch, hkeeps, hresult⟩ := h.prefetchBlocks blockKeys
    rw [hprefetch]
    by_cases hnone : tiers.fastestTierCache = none
    · rw [if_pos hnone] at hresult
      obtain ⟨message, rfl⟩ := hresult
      refine returns_ok ⟨⟨store, rfl, hkeeps⟩, loadAnswers_raised ⟨hreuse, hnone⟩, ?_⟩
      rintro result hok
      cases hok
    · rw [if_neg hnone] at hresult
      cases hresult
      apply ((h.keeps hkeeps).loadBlocks [] blockKeys (loads_nil puts)).bind
      rintro r ⟨hloads, hkeeps', habsent⟩
      refine returns_ok ⟨⟨_, rfl, hkeeps.trans h.sound hkeeps'⟩,
        loadAnswers_loaded (fun hand => hnone hand.2) hloads, ?_⟩
      rintro result hok key hkey
      cases hok
      exact ((habsent key hkey).resolve_left List.not_mem_nil).of_keeps hkeeps

/-! ## Runs -/

/-- The puts of some calls. -/
def putsOfAll (tiers : TierConfig D) (calls : List Call) : List (BlockKey × List UInt8) :=
  calls.flatMap (putsOf tiers)

/-- The puts that a call asks for are all of `P`. -/
def AsksOnly (P : BlockKey × List UInt8 → Prop) : Call → Prop
  | .storeKv _ blockKeys tensors => ∀ put ∈ blockKeys.zip tensors, P put
  | .loadKv _ _ => True

/-- A load misses nothing but what is absent. -/
def MissesAbsent (c : ProjectKVConnector D) : Outcome → Prop
  | .loaded (.ok result) => ∀ key ∈ result.missing, Absent key c.store
  | _ => True

theorem Preserved.runCall (hI : Preserved config tiers P I) (call : Call) (hcall : AsksOnly P call)
    (h : I puts c) : Returns (ProjectKVConnector.runCall call c) fun r =>
      I (puts ++ putsOf tiers call) r.2 ∧ Answers config tiers puts call r.1 ∧
        MissesAbsent c r.1 := by
  cases call with
  | storeKv requestId blockKeys tensors =>
    exact (hI.storeKv requestId blockKeys tensors hcall h).bind fun r hr =>
      returns_ok ⟨hr.1, hr.2, trivial⟩
  | loadKv requestId blockKeys =>
    refine ((hI.serves h).loadKv requestId blockKeys).bind
      fun r ⟨⟨store, hstore, hkeeps⟩, hanswer, habsent⟩ => returns_ok ⟨?_, hanswer, ?_⟩
    · rw [putsOf, List.append_nil, hstore]
      exact hI.keeps h hkeeps
    · cases hr : r.1 with
      | error e => exact trivial
      | ok result => exact habsent result hr

theorem runCalls_eq_runAll (calls : List Call) (c : ProjectKVConnector D) :
    runCalls calls c = runAll ProjectKVConnector.runCall calls c := by
  induction calls generalizing c with
  | nil => rfl
  | cons call calls ih =>
    rw [runCalls, runAll]
    simp only [ih]

theorem putsOfAll_append_singleton (tiers : TierConfig D) (past : List Call) (call : Call) :
    putsOfAll tiers (past ++ [call]) = putsOfAll tiers past ++ putsOf tiers call := by
  rw [putsOfAll, List.flatMap_append, List.flatMap_singleton]
  rfl

theorem serves_connect (config : ConnectorConfig) (tiers : TierConfig D)
    (hash : BlockKey → UInt64) (selfNode : NodeId) :
    Serves config tiers [] (connect config tiers hash selfNode) where
  config := rfl
  tiers := rfl
  sound := good_fresh tiers
  stored key block tenantId h := by cases h
  listed key := iff_of_false CrossNodeIndex.notMem_lookup_new fun hne => hne rfl

theorem asksOnly_true (call : Call) : AsksOnly (fun _ => True) call := by
  cases call with
  | storeKv => exact fun _ _ => trivial
  | loadKv => exact trivial

/-- **Contents of the connector.** In every run of calls, `store_kv` and `load_kv` answer and raise
as the calls before them tell: a payload that is loaded is the one of the last put of its key, and
every key is loaded or reported as missing. The index lists the node for exactly the keys that have
been put. -/
theorem runCalls_answer (config : ConnectorConfig) (tiers : TierConfig D)
    (hash : BlockKey → UInt64) (selfNode : NodeId) (calls : List Call) :
    Returns (runCalls calls (connect config tiers hash selfNode)) fun r =>
      AtEachCall (fun before call outcome =>
          Answers config tiers (putsOfAll tiers before) call outcome) [] calls r.1 ∧
        ∀ key, r.2.selfNode ∈ r.2.index.lookup key ↔
          lastPut (putsOfAll tiers calls) key ≠ none := by
  have hstart : Serves config tiers (putsOfAll tiers []) (connect config tiers hash selfNode) :=
    serves_connect config tiers hash selfNode
  rw [runCalls_eq_runAll]
  have hrun := runAll_invariant (I := fun past => Serves config tiers (putsOfAll tiers past))
    (P := fun past => Answers config tiers (putsOfAll tiers past))
    (fun call _ h => ((serves_preserved config tiers).runCall call (asksOnly_true call) h).mono
      fun r ⟨hserves, hanswer, _⟩ => by
        rw [putsOfAll_append_singleton]
        exact ⟨hserves, hanswer⟩)
    calls (List.Subset.refl calls) hstart
  exact hrun.mono fun r ⟨hserves, hanswers⟩ => ⟨hanswers, hserves.listed⟩

/-! ## Room for every key -/

/-- The storage holds every key that has been put. -/
structure HoldsAll (config : ConnectorConfig) (tiers : TierConfig D) (size : Nat)
    (ids : Finset BlockKey) (puts : List (BlockKey × List UInt8)) (c : ProjectKVConnector D) :
    Prop where
  serves : Serves config tiers puts c
  held : ∀ key, lastPut puts key ≠ none → key ∈ residents c.store.manager
  sizes : ∀ key payload, lastPut puts key = some payload → payload.length = size
  within : ∀ key, lastPut puts key ≠ none → key ∈ ids

/-- A put of one of the keys, with a payload of the size. -/
def PutOf (size : Nat) (ids : Finset BlockKey) (put : BlockKey × List UInt8) : Prop :=
  put.1 ∈ ids ∧ put.2.length = size

variable {size : Nat} {ids : Finset BlockKey}

theorem HoldsAll.put_of_resident (h : HoldsAll config tiers size ids puts c)
    (hkey : key ∈ residents c.store.manager) : lastPut puts key ≠ none := by
  obtain ⟨it, hit⟩ := mem_residents.mp hkey
  obtain ⟨payload, hlast, -⟩ := h.serves.stored key it.block it.entry.tenantId
    (by rw [contents, hit, Option.map_some])
  rw [hlast]
  exact Option.some_ne_none payload

theorem HoldsAll.uniform (h : HoldsAll config tiers size ids puts c) :
    Uniform size c.store.manager := by
  intro key it hit
  obtain ⟨payload, hlast, hblock⟩ := h.serves.stored key it.block it.entry.tenantId
    (by rw [contents, hit, Option.map_some])
  rw [hblock, blockSizeBytes_blockFromPayload]
  exact h.sizes key payload hlast

theorem holdsAll_preserved (config : ConnectorConfig) (hfits : FitsAll tiers size)
    (hsize : 0 < size) (hroom : ids.card ≤ roomFor tiers size) :
    Preserved config tiers (PutOf size ids) (HoldsAll config tiers size ids) where
  serves h := h.serves
  record keys h := ⟨(serves_preserved config tiers).record keys h.serves, h.held, h.sizes, h.within⟩
  keeps {puts c store} h hkeeps := by
    refine ⟨h.serves.keeps hkeeps, fun key hkey => ?_, h.sizes, h.within⟩
    show key ∈ residents store.manager
    rw [hkeeps.residents size (h.serves.tiers ▸ hfits) h.uniform]
    exact h.held key hkey
  put {puts c store key payload} hput h _ hputs := by
    have hsubset : insert key (residents c.store.manager) ⊆ ids := by
      intro x hx
      rcases Finset.mem_insert.mp hx with rfl | hx
      · exact hput.1
      · exact h.within x (h.put_of_resident hx)
    have hresidents : residents store.manager = insert key (residents c.store.manager) := by
      refine hputs.residents size (h.serves.tiers ▸ hfits) h.uniform hsize hput.2 ?_
      rw [h.serves.tiers]
      exact (Finset.card_le_card hsubset).trans hroom
    refine ⟨h.serves.put hputs, fun x hx => ?_, fun x payload' hlast => ?_, fun x hx => ?_⟩
    · show x ∈ residents store.manager
      rw [hresidents, Finset.mem_insert]
      rw [lastPut_append_singleton] at hx
      by_cases heq : x = key
      · exact .inl heq
      · rw [Function.update_of_ne heq] at hx
        exact .inr (h.held x hx)
    · rw [lastPut_append_singleton] at hlast
      by_cases heq : x = key
      · subst heq
        rw [Function.update_self] at hlast
        cases hlast
        exact hput.2
      · rw [Function.update_of_ne heq] at hlast
        exact h.sizes x payload' hlast
    · rw [lastPut_append_singleton] at hx
      by_cases heq : x = key
      · exact heq ▸ hput.1
      · rw [Function.update_of_ne heq] at hx
        exact h.within x hx

/-- A load misses only keys that have not been put. -/
def LoadsAll (puts : List (BlockKey × List UInt8)) : Outcome → Prop
  | .loaded (.ok result) => ∀ key ∈ result.missing, lastPut puts key = none
  | _ => True

theorem HoldsAll.loadsAll (h : HoldsAll config tiers size ids puts c)
    (hfits : FitsAll tiers size) {outcome : Outcome} (hmisses : MissesAbsent c outcome) :
    LoadsAll puts outcome := by
  cases outcome with
  | stored => exact trivial
  | loaded result =>
    cases result with
    | error e => exact trivial
    | ok result =>
      intro key hkey
      by_contra hne
      exact hmisses key hkey size (h.serves.tiers ▸ hfits) h.uniform (h.held key hne)

/-- **A lossless connector.** Where all payloads have one size, which fits every tier, and the tiers
have room for the keys that are put, every load finds every key that has been put before, with its
last payload, and the index lists the node for exactly the keys that it holds. -/
theorem runCalls_lossless [BEq D] (config : ConnectorConfig) (tiers : TierConfig D)
    (hash : BlockKey → UInt64) (selfNode : NodeId) (calls : List Call) (size : Nat)
    (ids : Finset BlockKey) (hfits : FitsAll tiers size) (hsize : 0 < size)
    (hroom : ids.card ≤ roomFor tiers size)
    (hcalls : ∀ call ∈ calls, AsksOnly (PutOf size ids) call) :
    Returns (runCalls calls (connect config tiers hash selfNode)) fun r =>
      AtEachCall (fun before call outcome =>
          Answers config tiers (putsOfAll tiers before) call outcome ∧
            LoadsAll (putsOfAll tiers before) outcome) [] calls r.1 ∧ r.2.Coherent := by
  have hstart : HoldsAll config tiers size ids (putsOfAll tiers [])
      (connect config tiers hash selfNode) :=
    ⟨serves_connect config tiers hash selfNode, fun _ hne => absurd rfl hne, nofun,
      fun _ hne => absurd rfl hne⟩
  rw [runCalls_eq_runAll]
  have hrun := runAll_invariant
    (I := fun past => HoldsAll config tiers size ids (putsOfAll tiers past))
    (P := fun past call outcome => Answers config tiers (putsOfAll tiers past) call outcome ∧
      LoadsAll (putsOfAll tiers past) outcome)
    (fun call hcall h => ((holdsAll_preserved config hfits hsize hroom).runCall call
      (hcalls call hcall) h).mono fun r ⟨hlast, hanswer, hmisses⟩ => by
        rw [putsOfAll_append_singleton]
        exact ⟨hlast, hanswer, h.loadsAll hfits hmisses⟩)
    calls (List.Subset.refl calls) hstart
  refine hrun.mono fun r ⟨hlast, hanswers⟩ => ⟨hanswers, coherent_iff.mpr fun key => ?_⟩
  rw [hlast.serves.listed key]
  exact ⟨hlast.held key, hlast.put_of_resident⟩

/-- A request of two blocks, and one that shares a block with it. -/
def sharedCalls : List Call :=
  [.storeKv "a" [plainKey 1, plainKey 2] [List.replicate 4 1, List.replicate 4 2],
    .loadKv "b" [plainKey 2, plainKey 3]]

theorem runCalls_lossless_sharedCalls :
    Returns (runCalls sharedCalls (connect {} twoTiers (fun _ => 0) ⟨"node-a"⟩)) fun r =>
      AtEachCall (fun before call outcome =>
          Answers {} twoTiers (putsOfAll twoTiers before) call outcome ∧
            LoadsAll (putsOfAll twoTiers before) outcome) [] sharedCalls r.1 ∧ r.2.Coherent := by
  refine runCalls_lossless {} twoTiers (fun _ => 0) ⟨"node-a"⟩ sharedCalls 4
    {plainKey 1, plainKey 2} (fitsAll_rat fun t => ?_) (by decide) (by decide +kernel) ?_
  · cases t <;> decide +kernel
  · refine List.forall_mem_cons.mpr ⟨?_, List.forall_mem_singleton.mpr trivial⟩
    show ∀ put ∈ [(plainKey 1, List.replicate 4 1), (plainKey 2, List.replicate 4 2)], _
    refine List.forall_mem_cons.mpr ⟨⟨by simp, rfl⟩, List.forall_mem_singleton.mpr ⟨by simp, rfl⟩⟩

end ProjectKVConnector

end TieredKVCache.VllmAdapter
