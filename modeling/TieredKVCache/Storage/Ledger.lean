import TieredKVCache.Storage.Runs

/-!
# The manager as a lossy store

Seen from outside, the manager is a partial map from keys to contents: a block and its
tenant. `contents` is that map, `lastOkWrite` is the map a store without eviction would
hold, and the manager refines it: its contents are always a part of it. Eviction,
demotion, promotion and prefetching lose entries or keep them, and never change one
(`EnforceSteps.contents_sub`); only a successful write replaces an entry.
-/

namespace TieredKVCache.Storage

open Lib Relation

/-! ## Partial maps of contents -/

/-- What a key is mapped to: the block and the tenant it is charged to. -/
abbrev Contents := BlockKey → Option (KVCacheBlock × UInt32)

/-- The first map is a part of the second. -/
def Contents.Sub (c d : Contents) : Prop := ∀ ⦃k v⦄, c k = some v → d k = some v

theorem Contents.Sub.refl (c : Contents) : Contents.Sub c c := fun _ _ h => h

theorem Contents.Sub.trans {c d e : Contents} (h : c.Sub d) (h' : d.Sub e) : c.Sub e :=
  fun _ _ hk => h' (h hk)

theorem Contents.Sub.or {c d e f : Contents} (h : d.Sub e) (hc : c.Sub fun k => (f k).or (d k)) :
    c.Sub fun k => (f k).or (e k) := by
  intro k v hk
  have hv := hc hk
  dsimp only at hv ⊢
  cases hf : f k with
  | none =>
    rw [hf, Option.none_or] at hv
    rw [Option.none_or]
    exact h hv
  | some w => rwa [hf] at hv

/-- The contents of a manager. -/
def contents (s : State) : Contents :=
  fun k => (s.blocks.lookup k).map fun it => (it.block, it.entry.tenantId)

/-- The successful write of a key that a call and its reply amount to, if any. -/
def okWrite (k : BlockKey) : Op × Reply → Option (KVCacheBlock × UInt32)
  | (.write block _ tenantId, .status status) =>
    if block.key = k ∧ status.isOk = true then some (block, tenantId) else none
  | _ => none

/-- The block and tenant of the most recent write of the key that returned `Ok`. -/
def lastOkWrite (history : List (Op × Reply)) : Contents :=
  fun k => history.reverse.findSome? (okWrite k)

theorem lastOkWrite_append (history : List (Op × Reply)) (e : Op × Reply) (k : BlockKey) :
    lastOkWrite (history ++ [e]) k = (okWrite k e).or (lastOkWrite history k) := by
  unfold lastOkWrite
  rw [List.reverse_append, List.reverse_singleton, List.singleton_append, List.findSome?_cons]
  cases okWrite k e <;> rfl

/-! ## What the steps do to the contents -/

section

variable {s s' : State} {key : BlockKey} {it it' : StoredBlock}

theorem contents_insert (h : s'.blocks = s.blocks.insert key it') :
    contents s' = Function.update (contents s) key (some (it'.block, it'.entry.tenantId)) := by
  funext k
  unfold contents
  by_cases hk : k = key
  · subst hk
    rw [h, AList.lookup_insert, Function.update_self, Option.map_some]
  · rw [h, AList.lookup_insert_ne hk, Function.update_of_ne hk]

/-- Storing the same block for the same tenant again leaves the contents as they are. -/
theorem contents_insert_of_eq (hs' : s'.blocks = s.blocks.insert key it')
    (h : s.blocks.lookup key = some it) (hblock : it'.block = it.block)
    (htenant : it'.entry.tenantId = it.entry.tenantId) : contents s' = contents s := by
  rw [contents_insert hs', hblock, htenant]
  apply Function.update_eq_self_iff.mpr
  rw [contents, h, Option.map_some]

theorem contents_erase_sub (h : s'.blocks = s.blocks.erase key) :
    (contents s').Sub (contents s) := by
  intro k v hk
  unfold contents at hk ⊢
  obtain ⟨it, hlookup, hv⟩ := Option.map_eq_some_iff.mp hk
  rw [h] at hlookup
  rw [(lookup_erase_eq_some.mp hlookup).2, ← hv, Option.map_some]

variable {D : Type} {config : TierConfig D} {inval : Invalidation} {t : Tier}

theorem S3Step.contents_eq (h : S3Step config t s (.inl s')) : contents s' = contents s := by
  cases h with
  | staleSmall => rfl
  | staleMain => rfl
  | promote hfrom hq h hlive hfreq => exact contents_insert_of_eq rfl h rfl rfl
  | second hfrom hq h hlive hfreq => exact contents_insert_of_eq rfl h rfl rfl

theorem contents_admitLocked (block : KVCacheBlock) (tenantId : UInt32) (s : State) :
    contents (admitLocked inval config block t tenantId s) =
      Function.update (contents s) block.key (some (block, tenantId)) :=
  contents_insert (admitLocked_blocks inval config block t tenantId s)

variable [DoubleArith D]

/-- No step of capacity enforcement makes up a block or changes one. -/
theorem EnforceStep.contents_sub (h : EnforceStep inval config t s s') (hinv : RepInv config s) :
    (contents s').Sub (contents s) := by
  cases h with
  | scan hover hfast h =>
    rw [h.contents_eq]
    exact .refl _
  | @evict key it s₁ hover hpick h ht =>
    have hinv₁ := hpick.repInv hinv
    have hsame : contents s₁ = contents s := by
      unfold contents
      rw [hpick.blocks]
    have hblocks : (evicted inval config t key it s₁).blocks = _ :=
      evicted_blocks (hinv₁.keyed h).2 (ht ▸ hinv₁.placed h)
    rw [← hsame]
    split at hblocks
    next => exact contents_erase_sub hblocks
    next slower hslower =>
      split at hblocks
      next =>
        rw [contents_insert_of_eq hblocks h rfl rfl]
        exact .refl _
      next => exact contents_erase_sub hblocks

theorem EnforceSteps.contents_sub (h : EnforceSteps inval config t s s')
    (hinv : RepInv config s) : (contents s').Sub (contents s) := by
  refine (h.invariant (P := fun a => RepInv config a ∧ (contents a).Sub (contents s)) ?_
    ⟨hinv, .refl _⟩).2
  intro u a b _ hP hstep
  exact ⟨hstep.repInv hP.1, (hstep.contents_sub hP.1).trans hP.2⟩

/-! ## What the calls do to the contents -/

theorem ReadOutcome.contents_sub {r : Result KVCacheBlock × State} (hinv : RepInv config s)
    (h : ReadOutcome inval config key s r) : (contents r.2).Sub (contents s) := by
  have hpromoted {it : StoredBlock} {fast : Tier} {s' : State}
      (h : s.blocks.lookup key = some it) (hfast : config.fastestTierCache = some fast)
      (hsteps : EnforceSteps inval config fast (promotedState inval config key it fast s) s') :
      (contents s').Sub (contents s) := by
    have hsame : contents (promotedState inval config key it fast s) = contents s :=
      contents_insert_of_eq (promotedState_blocks hfast key it s) h rfl rfl
    rw [← hsame]
    exact hsteps.contents_sub (promotedState_repInv inval hinv h hfast)
  cases h with
  | miss h => exact .refl _
  | @hit it h hfast =>
    have hsame : contents (retouch config key it (touchedFastest it s.logicalClock) s) =
        contents s := contents_insert_of_eq rfl h rfl rfl
    rw [hsame]
    exact .refl _
  | @stay it fast h hfast hslow hsize =>
    have hsame : contents (touchedState config key it s) = contents s :=
      contents_insert_of_eq rfl h rfl rfl
    rw [hsame]
    exact .refl _
  | promoted h hfast hslow hsize hsteps hgood' h' => exact hpromoted h hfast hsteps
  | lost h hfast hslow hsize hsteps hgood' h' => exact hpromoted h hfast hsteps

theorem Prefetched.contents_sub {fast : Tier} {predicted : List BlockKey}
    (h : Prefetched inval config fast predicted s s') (hgood : Good config s)
    (hfast : config.configured fast = true) : (contents s').Sub (contents s) := by
  induction h with
  | nil => exact .refl _
  | skip hskip hrest ih => exact ih hgood
  | @place key rest it s s₁ s' h hslow hsize hsteps hgood₁ hrest ih =>
    have hkey := (hgood.inv.keyed h).2
    have hsame : contents (admitLocked inval config it.block fast it.entry.tenantId s) =
        contents s := by
      have hblocks := admitLocked_blocks inval config it.block fast it.entry.tenantId s
      rw [hkey] at hblocks
      exact contents_insert_of_eq hblocks h rfl rfl
    apply (ih hgood₁).trans
    rw [← hsame]
    exact hsteps.contents_sub (admitLocked_repInv inval hgood.inv hfast _ _)

/-- A block that is read is the one that was stored. -/
theorem ReadOutcome.ok_contents {r : Result KVCacheBlock × State} {b : KVCacheBlock}
    (hinv : RepInv config s) (h : ReadOutcome inval config key s r) (hok : r.1 = .ok b) :
    ∃ tenantId, contents s key = some (b, tenantId) := by
  have hsub := h.contents_sub hinv
  cases h with
  | miss h => cases hok
  | hit h hfast =>
    cases hok
    exact ⟨_, by rw [contents, h, Option.map_some]⟩
  | stay h hfast hslow hsize =>
    cases hok
    exact ⟨_, by rw [contents, h, Option.map_some]⟩
  | @promoted it it' fast s' h hfast hslow hsize hsteps hgood' h' =>
    cases hok
    exact ⟨it'.entry.tenantId, hsub (by rw [contents, h', Option.map_some])⟩
  | lost h hfast hslow hsize hsteps hgood' h' => cases hok

theorem Moved.read_contents {r : Reply × State} {b : KVCacheBlock} (hinv : RepInv config s)
    (h : Moved inval config s (.read key) r) (hok : r.1 = .block (.ok b)) :
    ∃ tenantId, contents s key = some (b, tenantId) := by
  cases h with
  | read hread => exact hread.ok_contents hinv (Reply.block.inj hok)
  | unconfigured hnone hop => exact absurd rfl (hop key)

/-- What a call leaves was there before or is what it has written. -/
theorem Moved.contents_sub_or {op : Op} {r : Reply × State} (hgood : Good config s)
    (h : Moved inval config s op r) :
    (contents r.2).Sub fun k => (okWrite k (op, r.1)).or (contents s k) := by
  have hsame (hno : ∀ k, okWrite k (op, r.1) = none) (hsub : (contents r.2).Sub (contents s)) :
      (contents r.2).Sub fun k => (okWrite k (op, r.1)).or (contents s k) := by
    intro k v hk
    dsimp only
    rw [hno k, Option.none_or]
    exact hsub hk
  cases h with
  | @write block target t tenantId r ht hplaced =>
    cases hplaced with
    | refused hsize => exact hsame (fun k => if_neg (by simp [Status.make, Status.isOk])) (.refl _)
    | @placed s' hsize hsteps hgood' =>
      have hinv := admitLocked_repInv inval hgood.inv
        (TierConfig.resolveConfiguredTier_configured ht) block tenantId
      have hsub := hsteps.contents_sub hinv
      rw [contents_admitLocked] at hsub
      intro k v hk
      have hupdated := hsub hk
      dsimp only
      by_cases hkey : k = block.key
      · subst hkey
        rw [Function.update_self] at hupdated
        rw [okWrite, if_pos ⟨rfl, rfl⟩, ← hupdated, Option.some_or]
      · rw [Function.update_of_ne hkey] at hupdated
        rw [okWrite, if_neg (fun h => hkey h.1.symm), Option.none_or, hupdated]
  | read hread => exact hsame (fun _ => rfl) (hread.contents_sub hgood.inv)
  | prefetch hfast hkeys =>
    exact hsame (fun _ => rfl)
      (hkeys.contents_sub hgood (TierConfig.fastestTierCache_configured hfast))
  | enforceCapacity t => exact hsame (fun _ => rfl) (.refl _)
  | unconfigured hnone hop =>
    refine hsame (fun k => ?_) (.refl _)
    cases op with
    | write block target tenantId => exact if_neg (by simp [Status.make, Status.isOk])
    | read key => exact absurd rfl (hop key)
    | prefetch predicted => rfl
    | enforceCapacity t => rfl

/-- The refinement step: a call keeps the contents a part of the ledger of writes. -/
theorem Moved.contents_sub {op : Op} {r : Reply × State} {history : List (Op × Reply)}
    (hgood : Good config s) (h : Moved inval config s op r)
    (hledger : (contents s).Sub (lastOkWrite history)) :
    (contents r.2).Sub (lastOkWrite (history ++ [(op, r.1)])) := by
  have hsub := hledger.or (h.contents_sub_or hgood)
  intro k v hk
  rw [lastOkWrite_append]
  exact hsub hk

end

section

variable {D : Type} [DoubleArith D]

theorem runOps_contents_sub (inval : Invalidation) (config : TierConfig D) (ops : List Op) :
    Returns (runOps inval config ops State.fresh) fun r =>
      Good config r.2 ∧ (contents r.2).Sub (lastOkWrite (ops.zip r.1)) := by
  refine runOps_returns
    (P := fun history s => Good config s ∧ (contents s).Sub (lastOkWrite history)) ?_ ops []
    ⟨good_fresh config, ?_⟩
  · intro history s op ⟨hgood, hledger⟩
    apply (runOp_returns hgood op).mono
    intro r ⟨hmoved, hgood'⟩
    exact ⟨hgood', hmoved.contents_sub hgood hledger⟩
  · intro k v hk
    simp [contents, State.fresh] at hk

/-- **Content.** After every run, a block that `Read` returns is the block of the most
recent successful write of its key, and the tenant recorded for a resident key is the
tenant of that write. -/
theorem runOps_read_lastOkWrite (config : TierConfig D) (ops : List Op) :
    Returns (runOps .lazy config ops State.fresh) fun r =>
      (∀ k, Returns (read .lazy config k r.2) fun r' => ∀ b, r'.1 = .ok b →
        ∃ tenantId, lastOkWrite (ops.zip r.1) k = some (b, tenantId)) ∧
      ∀ k it, r.2.blocks.lookup k = some it →
        lastOkWrite (ops.zip r.1) k = some (it.block, it.entry.tenantId) := by
  apply (runOps_contents_sub .lazy config ops).mono
  intro r ⟨hgood, hledger⟩
  constructor
  · intro k
    apply (read_returns .lazy hgood k).mono
    intro r' ⟨hread, _⟩ b hok
    obtain ⟨tenantId, hb⟩ := hread.ok_contents hgood.inv hok
    exact ⟨tenantId, hledger hb⟩
  · intro k it hk
    exact hledger (by rw [contents, hk, Option.map_some])

end

end TieredKVCache.Storage
