import TieredKVCache.Storage.Slack
import TieredKVCache.VllmAdapter.Connector

/-!
# The calls of the bound storage

What the calls of `PyTieredStore` do to the contents of its manager: a get and the prefetches lose
contents at most, and with blocks of one size not even that (`Keeps`); a put that does not raise
adds its block (`Puts`).
-/

namespace TieredKVCache.VllmAdapter

open Lib Storage

theorem payloadFromBlock_blockFromPayload (key : BlockKey) (payload : List UInt8) :
    payloadFromBlock (blockFromPayload key payload) = payload :=
  List.take_append_drop _ _

theorem blockSizeBytes_blockFromPayload (key : BlockKey) (payload : List UInt8) :
    blockSizeBytes (blockFromPayload key payload) = payload.length := by
  have hlength := congrArg List.length (payloadFromBlock_blockFromPayload key payload)
  rwa [payloadFromBlock, List.length_append] at hlength

namespace PyTieredStore

variable {D : Type} [DoubleArith D] {store store' store'' : PyTieredStore D} {key : BlockKey}
  {size : Nat} {fast : Tier}

/-- The store keeps a part of its contents, and its keys where all blocks have one size or there is
room for them. -/
structure Keeps (store store' : PyTieredStore D) : Prop where
  tiers : store'.tiers = store.tiers
  sound : store'.Sound
  contents_sub : (contents store'.manager).Sub (contents store.manager)
  residents : ∀ size, FitsAll store.tiers size → Uniform size store.manager →
    Storage.residents store'.manager = Storage.residents store.manager
  residents_of_room : ∀ unit most, FitsTiers store.tiers most → unit ∣ most →
    SizedBy unit most store.manager →
      HasRoom store.tiers unit most (storedBytes store.manager.blocks) →
        Storage.residents store'.manager = Storage.residents store.manager

theorem Keeps.refl (h : store.Sound) : Keeps store store :=
  ⟨rfl, h, .refl _, fun _ _ _ => rfl, fun _ _ _ _ _ _ => rfl⟩

theorem Keeps.trans (h : Keeps store store') (hsound : store.Sound) (h' : Keeps store' store'') :
    Keeps store store'' where
  tiers := h'.tiers.trans h.tiers
  sound := h'.sound
  contents_sub := h'.contents_sub.trans h.contents_sub
  residents size hfits huniform :=
    (h'.residents size (h.tiers ▸ hfits) (huniform.of_sub h.contents_sub)).trans
      (h.residents size hfits huniform)
  residents_of_room unit most hfits hmost hsized hroom := by
    have hinv' : RepInv store.tiers store'.manager := h.tiers ▸ h.sound.inv
    have hle := storedBytes_le_of_sub hsound.inv hinv' h.contents_sub
    exact (h'.residents_of_room unit most (h.tiers ▸ hfits) hmost (hsized.of_sub h.contents_sub)
      (h.tiers ▸ hroom.mono hle)).trans (h.residents_of_room unit most hfits hmost hsized hroom)

/-- Without a tier, the calls that need one raise. -/
theorem put_unconfigured (hnone : store.tiers.fastestTierCache = none) (key : BlockKey)
    (payload : List UInt8) (tenantId : UInt32) :
    ∃ message, store.put key payload tenantId = .ok (.error (.runtimeError message), store) := by
  refine ⟨"无任何已配置存储层", ?_⟩
  unfold put write
  rw [show store.tiers.resolveConfiguredTier .hbm = none from hnone]
  rfl

theorem prefetch_unconfigured (hnone : store.tiers.fastestTierCache = none)
    (keys : List BlockKey) :
    ∃ message, store.prefetch keys = .ok (.error (.runtimeError message), store) := by
  refine ⟨"无任何已配置存储层", ?_⟩
  unfold prefetch Storage.prefetch
  rw [show store.tiers.resolveConfiguredTier .hbm = none from hnone]
  rfl

/-- What a get finds. -/
structure Gets (key : BlockKey) (store : PyTieredStore D) (payload : Option (List UInt8)) :
    Prop where
  stored : ∀ bytes, payload = some bytes → ∃ block tenantId,
    contents store.manager key = some (block, tenantId) ∧ bytes = payloadFromBlock block
  found : ∀ size, FitsAll store.tiers size → Uniform size store.manager →
    (payload = none ↔ key ∉ Storage.residents store.manager)

theorem mem_residents_of_contents {s : State} {v : KVCacheBlock × UInt32}
    (h : contents s key = some v) : key ∈ Storage.residents s := by
  obtain ⟨it, hit, -⟩ := Option.map_eq_some_iff.mp h
  exact mem_residents_of_lookup hit

theorem get_keeps (h : store.Sound) (key : BlockKey) :
    Returns (store.get key) fun r => Gets key store r.1 ∧ Keeps store r.2 := by
  obtain ⟨⟨result, manager⟩, hread, houtcome, hgood⟩ := read_returns .lazy h key
  have hkeeps : Keeps store { store with manager } :=
    ⟨rfl, hgood, houtcome.contents_sub h.inv,
      fun size hfits huniform => (read_residents hfits h huniform key).of_eq hread,
      fun unit most hfits hmost hsized hroom =>
        (read_keepsAll hfits hmost h hsized hroom key).of_eq hread⟩
  unfold get
  rw [hread]
  cases result with
  | ok block =>
    obtain ⟨tenantId, hblock⟩ := houtcome.ok_contents h.inv rfl
    refine returns_ok ⟨⟨fun bytes hbytes => ?_, fun _ _ _ => ?_⟩, hkeeps⟩
    · cases hbytes
      exact ⟨block, tenantId, hblock, rfl⟩
    · exact iff_of_false nofun (not_not_intro (mem_residents_of_contents hblock))
  | error status =>
    refine returns_ok ⟨⟨nofun, fun size hfits huniform => iff_of_true rfl ?_⟩, hkeeps⟩
    have hsame := hkeeps.residents size hfits huniform
    cases houtcome with
    | miss hnone =>
      intro hkey
      obtain ⟨it, hit⟩ := mem_residents.mp hkey
      rw [hnone] at hit
      cases hit
    | lost hit hfast hslow hsize hsteps hgood' hgone =>
      -- a promotion that loses its own block would lose a resident key
      have hkey := hsame.symm ▸ mem_residents_of_lookup hit
      obtain ⟨it', hit'⟩ := mem_residents.mp hkey
      rw [hgone] at hit'
      cases hit'

theorem prefetch_keeps (h : store.Sound) (hfast : store.tiers.fastestTierCache = some fast)
    (keys : List BlockKey) : Returns (store.prefetch keys) fun r =>
      r.1 = .ok () ∧ Keeps store r.2 ∧ r.2.prefetcher = store.prefetcher := by
  obtain ⟨⟨status, manager⟩, hprefetch, hmoved, hgood⟩ := Storage.prefetch_returns .lazy h keys
  have hsub : (contents manager).Sub (contents store.manager) := by
    intro k v hk
    have hor := hmoved.contents_sub_or h hk
    exact hor
  unfold prefetch
  rw [hprefetch]
  cases hmoved with
  | @prefetch _ fast' _ hfast' hkeys =>
    refine returns_ok ⟨rfl, ⟨rfl, hgood, hsub, fun size hfits huniform => ?_,
      fun unit most hfits hmost hsized hroom =>
        hkeys.keepsAll hfits hmost hfast' h hsized hroom⟩, rfl⟩
    have hrun : prefetchKeys .lazy store.tiers fast' keys store.manager =
        .ok (.success, manager) := by
      unfold Storage.prefetch at hprefetch
      rw [show store.tiers.resolveConfiguredTier .hbm = some fast' from hfast'] at hprefetch
      exact hprefetch
    exact (prefetchKeys_residents hfits hfast' keys h huniform).of_eq hrun
  | unconfigured hnone =>
    rw [hfast] at hnone
    cases hnone

theorem prefetchChainMulti_keeps (h : store.Sound)
    (hfast : store.tiers.fastestTierCache = some fast) (anchors : List BlockKey) (budget : Nat) :
    Returns (store.prefetchChainMulti anchors budget) fun r =>
      (∃ count, r.1 = .ok count) ∧ Keeps store r.2 := by
  rw [prefetchChainMulti]
  dsimp only
  split
  · exact returns_ok ⟨⟨_, rfl⟩, .refl h⟩
  · apply (prefetch_keeps h hfast _).bind
    rintro ⟨raised, store'⟩ ⟨rfl, hkeeps, -⟩
    exact returns_ok ⟨⟨_, rfl⟩, hkeeps⟩

/-- The store takes a block, and keeps its other contents but for what has to leave for it. -/
structure Puts (key : BlockKey) (payload : List UInt8) (tenantId : UInt32)
    (store store' : PyTieredStore D) : Prop where
  tiers : store'.tiers = store.tiers
  sound : store'.Sound
  contents_sub : (contents store'.manager).Sub
    (Function.update (contents store.manager) key (some (blockFromPayload key payload, tenantId)))
  residents : ∀ size, FitsAll store.tiers size → Uniform size store.manager → 0 < size →
    payload.length = size →
      (insert key (Storage.residents store.manager)).card ≤ roomFor store.tiers size →
        Storage.residents store'.manager = insert key (Storage.residents store.manager)
  residents_of_room : ∀ unit most, FitsTiers store.tiers most → unit ∣ most →
    SizedBy unit most store.manager → unit ∣ payload.length → payload.length ≤ most →
      RoomBeside store.tiers unit most key payload.length store.manager →
        Storage.residents store'.manager = insert key (Storage.residents store.manager)

/-- A put raises where the fastest tier does not take the block, and changes nothing then. -/
theorem put_puts (h : store.Sound) (hfast : store.tiers.fastestTierCache = some fast)
    (key : BlockKey) (payload : List UInt8) (tenantId : UInt32) :
    Returns (store.put key payload tenantId) fun r =>
      (payload.length ≤ store.tiers.evictionThresholdOf fast ∧ r.1 = .ok () ∧
          Puts key payload tenantId store r.2) ∨
        (store.tiers.evictionThresholdOf fast < payload.length ∧
          (∃ message, r.1 = .error (.runtimeError message)) ∧ r.2 = store) := by
  obtain ⟨⟨status, manager⟩, hwrite, hmoved, hgood⟩ :=
    write_returns .lazy h (blockFromPayload key payload) .hbm tenantId
  have hsub := hmoved.contents_sub_or h
  have hsize := blockSizeBytes_blockFromPayload key payload
  unfold put
  rw [hwrite]
  cases hmoved with
  | @write _ _ t _ _ ht hplaced =>
    cases ht.symm.trans hfast
    cases hplaced with
    | refused hlarge => exact returns_ok (.inr ⟨hsize ▸ hlarge, ⟨_, rfl⟩, rfl⟩)
    | placed hsmall hsteps hgood' =>
      refine returns_ok (.inl ⟨hsize ▸ hsmall, rfl, rfl, hgood, fun k v hk => ?_, ?_, ?_⟩)
      · have hor := hsub hk
        dsimp only [okWrite] at hor
        by_cases hkey : k = key
        · subst hkey
          rw [if_pos ⟨rfl, rfl⟩, Option.some_or] at hor
          rw [Function.update_self, hor]
        · rw [if_neg fun hand => hkey hand.1.symm, Option.none_or] at hor
          rw [Function.update_of_ne hkey, hor]
      · intro size hfits huniform hpos hlength hroom
        exact (write_keeps hfits h huniform hpos hfast (hsize.trans hlength) hroom
          tenantId).of_eq hwrite
      · intro unit most hfits hmost hsized hunit hle hroom
        rw [← hsize] at hunit hle hroom
        exact (write_residents hfits hmost h hsized hfast hsmall hunit hle hroom
          tenantId).of_eq hwrite
  | unconfigured hnone =>
    rw [hfast] at hnone
    cases hnone

end PyTieredStore

end TieredKVCache.VllmAdapter
