import TieredKVCache.VllmAdapter.KvContents

/-!
# Room for what is put

The index of the connector lists the node for every key that has been put, and no call unregisters
one; so it is right about the storage of the node as long as no block is dropped. Whether there is
room can be told from the payloads that the calls put (`RoomForPuts`), whatever their order and
whatever is loaded in between. With payloads of one size the room is a number of keys, and a run
that puts more of them leaves the index wrong (`coherent_of_room`).
-/

namespace TieredKVCache.VllmAdapter

open Lib Storage Scheduler

namespace ProjectKVConnector

/-- The keys of some puts. -/
def putKeys (puts : List (BlockKey × List UInt8)) : Finset BlockKey :=
  (puts.map Prod.fst).toFinset

/-- The bytes of the last payload of a key. -/
def lastBytes (puts : List (BlockKey × List UInt8)) (key : BlockKey) : Nat :=
  ((lastPut puts key).map List.length).getD 0

/-- The bytes of the last payloads of all keys. -/
def heldBytes (puts : List (BlockKey × List UInt8)) : Nat :=
  ∑ key ∈ putKeys puts, lastBytes puts key

section

variable {D : Type} [DoubleArith D]

/-- The payloads are multiples of a unit and bounded, and each time one is put the tiers have room
for the payloads so far. -/
structure RoomForPuts (tiers : TierConfig D) (unit most : Nat)
    (puts : List (BlockKey × List UInt8)) : Prop where
  unit_dvd : unit ∣ most
  fits : FitsTiers tiers most
  sizes : ∀ put ∈ puts, unit ∣ put.2.length ∧ put.2.length ≤ most
  room : ∀ before put, before ++ [put] <+: puts →
    HasRoom tiers unit most (heldBytes (before ++ [put]))

variable {config : ConnectorConfig} {tiers : TierConfig D} {unit most size : Nat}
  {puts before : List (BlockKey × List UInt8)} {put : BlockKey × List UInt8} {key : BlockKey}
  {payload : List UInt8} {c : ProjectKVConnector D}

/-! ## Puts -/

omit D [DoubleArith D] in
theorem mem_of_lastPut (h : lastPut puts key = some payload) : (key, payload) ∈ puts := by
  induction puts using List.reverseRecOn with
  | nil => cases h
  | append_singleton puts put ih =>
    rw [lastPut_append_singleton] at h
    by_cases heq : key = put.1
    · subst heq
      rw [Function.update_self] at h
      cases h
      exact List.mem_append_right _ List.mem_cons_self
    · rw [Function.update_of_ne heq] at h
      exact List.mem_append_left _ (ih h)

theorem mem_putKeys_of_lastPut (h : lastPut puts key = some payload) : key ∈ putKeys puts :=
  List.mem_toFinset.mpr (List.mem_map_of_mem (f := Prod.fst) (mem_of_lastPut h))

theorem lastBytes_of_lastPut (h : lastPut puts key = some payload) :
    lastBytes puts key = payload.length := by
  rw [lastBytes, h, Option.map_some, Option.getD_some]

theorem lastPut_of_mem_putKeys (h : key ∈ putKeys puts) : lastPut puts key ≠ none := by
  induction puts using List.reverseRecOn with
  | nil => cases h
  | append_singleton puts put ih =>
    rw [lastPut_append_singleton]
    by_cases heq : key = put.1
    · subst heq
      rw [Function.update_self]
      exact Option.some_ne_none put.2
    · rw [Function.update_of_ne heq]
      refine ih ?_
      simpa [putKeys, heq] using h

/-- What a put adds. -/
theorem heldBytes_append_singleton (puts : List (BlockKey × List UInt8)) (key : BlockKey)
    (payload : List UInt8) : heldBytes (puts ++ [(key, payload)]) =
      payload.length + ∑ k ∈ (putKeys puts).erase key, lastBytes puts k := by
  have hkeys : putKeys (puts ++ [(key, payload)]) = insert key ((putKeys puts).erase key) := by
    ext k
    by_cases hk : k = key <;> simp [putKeys, hk]
  have hother : ∀ k ∈ (putKeys puts).erase key,
      lastBytes (puts ++ [(key, payload)]) k = lastBytes puts k := fun k hk => by
    rw [lastBytes, lastPut_append_singleton, Function.update_of_ne (Finset.ne_of_mem_erase hk)]
    rfl
  rw [heldBytes, hkeys, Finset.sum_insert (Finset.notMem_erase key _),
    Finset.sum_congr rfl hother, lastBytes, lastPut_append_singleton, Function.update_self]
  rfl

theorem RoomForPuts.earlier (h : RoomForPuts tiers unit most puts) (hbefore : before <+: puts) :
    RoomForPuts tiers unit most before :=
  ⟨h.unit_dvd, h.fits, fun put hput => h.sizes put (hbefore.subset hput),
    fun past put hpast => h.room past put (hpast.trans hbefore)⟩

/-! ## The storage -/

/-- What is stored has been put. -/
theorem Serves.lastPut_of_lookup (h : Serves config tiers puts c) {it : StoredBlock}
    (hit : c.store.manager.blocks.lookup key = some it) :
    ∃ payload, lastPut puts key = some payload ∧ payload.length = it.entry.sizeBytes ∧
      blockSizeBytes it.block = payload.length := by
  obtain ⟨payload, hlast, hblock⟩ := h.stored key it.block it.entry.tenantId
    (by rw [contents, hit, Option.map_some])
  have hsize : blockSizeBytes it.block = payload.length := by
    rw [hblock, blockSizeBytes_blockFromPayload]
  exact ⟨payload, hlast, (h.sound.inv.sized hit ▸ hsize).symm, hsize⟩

theorem Serves.sizedBy (h : Serves config tiers puts c) (hputs : RoomForPuts tiers unit most puts) :
    SizedBy unit most c.store.manager := by
  intro key it hit
  obtain ⟨payload, hlast, -, hsize⟩ := h.lastPut_of_lookup hit
  rw [hsize]
  exact hputs.sizes (key, payload) (mem_of_lastPut hlast)

theorem Serves.storedBytes_le (h : Serves config tiers puts c) :
    storedBytes c.store.manager.blocks ≤ heldBytes puts := by
  refine Storage.storedBytes_le fun key it hit => ?_
  obtain ⟨payload, hlast, hsize, -⟩ := h.lastPut_of_lookup hit
  refine ⟨mem_putKeys_of_lastPut hlast, ?_⟩
  rw [lastBytes_of_lastPut hlast, hsize]

/-- The bytes beside a key, when it is put. -/
theorem Serves.storedBytes_erase_le (h : Serves config tiers puts c) (key : BlockKey)
    (payload : List UInt8) :
    payload.length + storedBytes (c.store.manager.blocks.erase key) ≤
      heldBytes (puts ++ [(key, payload)]) := by
  rw [heldBytes_append_singleton]
  refine Nat.add_le_add_left (Storage.storedBytes_le fun k it hit => ?_) _
  obtain ⟨hne, hit⟩ := lookup_erase_eq_some.mp hit
  obtain ⟨payload', hlast, hsize, -⟩ := h.lastPut_of_lookup hit
  refine ⟨Finset.mem_erase.mpr ⟨hne, mem_putKeys_of_lastPut hlast⟩, ?_⟩
  rw [lastBytes_of_lastPut hlast, hsize]

/-- With room, the storage holds every key that has been put. -/
structure HoldsPuts (config : ConnectorConfig) (tiers : TierConfig D)
    (puts : List (BlockKey × List UInt8)) (c : ProjectKVConnector D) : Prop where
  serves : Serves config tiers puts c
  held : ∀ unit most, RoomForPuts tiers unit most puts → ∀ key, lastPut puts key ≠ none →
    key ∈ residents c.store.manager

theorem HoldsPuts.coherent [BEq D] (h : HoldsPuts config tiers puts c)
    (hputs : RoomForPuts tiers unit most puts) : c.Coherent := by
  refine coherent_iff.mpr fun key => ?_
  rw [h.serves.listed key]
  refine ⟨h.held unit most hputs key, fun hkey => ?_⟩
  obtain ⟨it, hit⟩ := mem_residents.mp hkey
  obtain ⟨payload, hlast, -⟩ := h.serves.lastPut_of_lookup hit
  rw [hlast]
  exact Option.some_ne_none payload

theorem holdsPuts_preserved (config : ConnectorConfig) (tiers : TierConfig D) :
    Preserved config tiers (fun _ => True) (HoldsPuts config tiers) where
  serves h := h.serves
  record keys h := ⟨(serves_preserved config tiers).record keys h.serves, h.held⟩
  keeps {puts c store} h hkeeps := by
    refine ⟨h.serves.keeps hkeeps, fun unit most hputs key hkey => ?_⟩
    show key ∈ residents store.manager
    obtain rfl | ⟨before, put, rfl⟩ := List.eq_nil_or_concat' puts
    · exact absurd rfl hkey
    · have hroom := hputs.room before put (List.prefix_refl _)
      rw [hkeeps.residents_of_room unit most (h.serves.tiers ▸ hputs.fits) hputs.unit_dvd
        (h.serves.sizedBy hputs) (h.serves.tiers ▸ hroom.mono h.serves.storedBytes_le)]
      exact h.held unit most hputs key hkey
  put {puts c store key payload} _ h _ hmade := by
    refine ⟨h.serves.put hmade, fun unit most hputs k hk => ?_⟩
    show k ∈ residents store.manager
    have hbefore := hputs.earlier (List.prefix_append puts [(key, payload)])
    obtain ⟨hunit, hle⟩ := hputs.sizes (key, payload) (by simp)
    have hroom := (hputs.room puts (key, payload) (List.prefix_refl _)).mono
      (h.serves.storedBytes_erase_le key payload)
    rw [hmade.residents_of_room unit most (h.serves.tiers ▸ hputs.fits) hputs.unit_dvd
      (h.serves.sizedBy hbefore) hunit hle (h.serves.tiers ▸ hroom), Finset.mem_insert]
    rw [lastPut_append_singleton] at hk
    by_cases heq : k = key
    · exact .inl heq
    · rw [Function.update_of_ne heq] at hk
      exact .inr (h.held unit most hbefore k hk)

/-! ## Runs -/

theorem runCalls_holdsPuts (config : ConnectorConfig) (tiers : TierConfig D)
    (hash : BlockKey → UInt64) (selfNode : NodeId) (calls : List Call) :
    Returns (runCalls calls (connect config tiers hash selfNode)) fun r =>
      HoldsPuts config tiers (putsOfAll tiers calls) r.2 := by
  have hstart : HoldsPuts config tiers (putsOfAll tiers []) (connect config tiers hash selfNode) :=
    ⟨serves_connect config tiers hash selfNode, fun _ _ _ _ hne => absurd rfl hne⟩
  rw [runCalls_eq_runAll]
  have hrun := runAll_invariant (I := fun past => HoldsPuts config tiers (putsOfAll tiers past))
    (P := fun _ _ _ => True)
    (fun call _ h => ((holdsPuts_preserved config tiers).runCall call (asksOnly_true call) h).mono
      fun r ⟨hholds, _⟩ => by
        rw [putsOfAll_append_singleton]
        exact ⟨hholds, trivial⟩)
    calls (List.Subset.refl calls) hstart
  exact hrun.mono fun r hr => hr.1

theorem putsOfAll_earlier {before calls : List Call} (h : before <+: calls) :
    putsOfAll tiers before <+: putsOfAll tiers calls := by
  obtain ⟨rest, rfl⟩ := h
  rw [putsOfAll, putsOfAll, List.flatMap_append]
  exact List.prefix_append _ _

/-- A put is made only where there is a tier for it. -/
theorem fastestTierCache_of_made {calls : List Call} (hput : put ∈ putsOfAll tiers calls) :
    ∃ fast, tiers.fastestTierCache = some fast := by
  obtain ⟨call, -, hput⟩ := List.mem_flatMap.mp hput
  cases call with
  | loadKv => exact absurd hput List.not_mem_nil
  | storeKv requestId blockKeys tensors =>
    rw [putsOf] at hput
    split at hput
    · exact absurd hput List.not_mem_nil
    · have hfits : fits tiers put.2 = true :=
        List.mem_takeWhile_imp (p := fun put : BlockKey × List UInt8 => fits tiers put.2) hput
      unfold fits at hfits
      split at hfits
      · cases hfits
      · exact ⟨_, ‹_›⟩

/-! ## One size -/

theorem heldBytes_eq (hsizes : ∀ put ∈ puts, put.2.length = size) :
    heldBytes puts = (putKeys puts).card * size := by
  refine Finset.sum_const_nat fun key hkey => ?_
  obtain ⟨payload, hlast⟩ := Option.ne_none_iff_exists'.mp (lastPut_of_mem_putKeys hkey)
  rw [lastBytes_of_lastPut hlast]
  exact hsizes (key, payload) (mem_of_lastPut hlast)

/-- Payloads of one size have room if their keys are no more than there is room for. -/
theorem roomForPuts_of_card {calls : List Call} (hsize : 0 < size) (hfits : FitsAll tiers size)
    (hsizes : ∀ put ∈ putsOfAll tiers calls, put.2.length = size)
    (hroom : (putKeys (putsOfAll tiers calls)).card ≤ roomFor tiers size) :
    RoomForPuts tiers size size (putsOfAll tiers calls) where
  unit_dvd := dvd_refl size
  fits t ht := (hfits t ht).2
  sizes put hput := by
    rw [hsizes put hput]
    exact ⟨dvd_refl size, Nat.le_refl size⟩
  room before put hbefore := by
    have hput : put ∈ putsOfAll tiers calls := hbefore.subset (by simp)
    obtain ⟨fast, hfast⟩ := fastestTierCache_of_made hput
    rw [heldBytes_eq fun put hput => hsizes put (hbefore.subset hput),
      hasRoom_iff_le_roomFor hsize hfast]
    refine (Finset.card_le_card fun key hkey => ?_).trans hroom
    rw [putKeys, List.mem_toFinset] at hkey ⊢
    exact (hbefore.map Prod.fst).subset hkey

/-- A coherent connector holds every key that has been put, so there is room for them. -/
theorem Serves.card_le [BEq D] (h : Serves config tiers puts c) (hcoherent : c.Coherent)
    (hsize : 0 < size) (hsizes : ∀ put ∈ puts, put.2.length = size) :
    (putKeys puts).card ≤ roomFor tiers size := by
  have huniform : Uniform size c.store.manager := by
    intro key it hit
    obtain ⟨payload, hlast, -, hblock⟩ := h.lastPut_of_lookup hit
    rw [hblock]
    exact hsizes (key, payload) (mem_of_lastPut hlast)
  have hsound : Good tiers c.store.manager := h.tiers ▸ h.sound
  refine (Finset.card_le_card fun key hkey => ?_).trans (hsound.card_residents_le huniform hsize)
  exact (coherent_iff.mp hcoherent key).mp ((h.listed key).mpr (lastPut_of_mem_putKeys hkey))

/-! ## Coherence -/

/-- **Coherence of the index.** In a run of the connector on a fresh store and index whose payloads
have room, the index lists the node for exactly the blocks that its storage holds, before and after
every call. Where all payloads have one size that fits every tier, it does so if and only if the
keys that are put are no more than the tiers have room for. -/
theorem coherent_of_room [BEq D] (config : ConnectorConfig) (tiers : TierConfig D)
    (hash : BlockKey → UInt64) (selfNode : NodeId) (calls : List Call) :
    (∀ unit most, RoomForPuts tiers unit most (putsOfAll tiers calls) →
        ∀ before, before <+: calls →
          Returns (runCalls before (connect config tiers hash selfNode)) fun r => r.2.Coherent) ∧
      ∀ size, 0 < size → FitsAll tiers size →
        (∀ put ∈ putsOfAll tiers calls, put.2.length = size) →
          ((∀ before, before <+: calls →
              Returns (runCalls before (connect config tiers hash selfNode)) fun r =>
                r.2.Coherent) ↔
            (putKeys (putsOfAll tiers calls)).card ≤ roomFor tiers size) := by
  have hroom (unit most : Nat) (hputs : RoomForPuts tiers unit most (putsOfAll tiers calls))
      (before : List Call) (hbefore : before <+: calls) :
      Returns (runCalls before (connect config tiers hash selfNode)) fun r => r.2.Coherent :=
    (runCalls_holdsPuts config tiers hash selfNode before).mono fun r hholds =>
      hholds.coherent (hputs.earlier (putsOfAll_earlier hbefore))
  refine ⟨hroom, fun size hsize hfits hsizes => ⟨fun hall => ?_, fun hcard => ?_⟩⟩
  · obtain ⟨r, hr, hcoherent⟩ := hall calls (List.prefix_refl calls)
    have hholds := (runCalls_holdsPuts config tiers hash selfNode calls).of_eq hr
    exact hholds.serves.card_le hcoherent hsize hsizes
  · exact hroom size size (roomForPuts_of_card hsize hfits hsizes hcard)

end

/-- Two payloads of different sizes. -/
def unequalCalls : List Call :=
  [.storeKv "a" [plainKey 1, plainKey 2] [List.replicate 4 1, List.replicate 6 2],
    .loadKv "b" [plainKey 1]]

theorem coherent_of_room_unequalCalls :
    ∀ before, before <+: unequalCalls →
      Returns (runCalls before (connect {} oneTier (fun _ => 0) ⟨"node-a"⟩)) fun r =>
        r.2.Coherent := by
  refine (coherent_of_room {} oneTier (fun _ => 0) ⟨"node-a"⟩ unequalCalls).1 2 6
    ⟨by decide, fun t ht => ?_, by decide +kernel, fun before put hbefore => ?_⟩
  · cases t with
    | hbm => decide
    | dram => cases ht
    | nvme => cases ht
  · have hroom : ∀ puts ∈ (putsOfAll oneTier unequalCalls).inits,
        HasRoom oneTier 2 6 (heldBytes puts) := by
      unfold HasRoom
      decide +kernel
    exact hroom _ ((List.mem_inits _ _).mpr hbefore)

end ProjectKVConnector

end TieredKVCache.VllmAdapter
