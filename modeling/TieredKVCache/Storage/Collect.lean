import TieredKVCache.Storage.Runs

/-!
# Listing what happens in a run

`collectOps` lists, call by call, what `call` says of the state in which the call starts;
`collectOp` puts the list of a call together from those of its calls of `PlaceLocked`. A relation
between a list, the state before and the state after that can be composed (`Composes`) holds of a
run where it holds of each part (`Composes.runOps`).
-/

namespace TieredKVCache.Storage

open Lib

section

variable {β D : Type} [DoubleArith D] (config : TierConfig D)
  (place : KVCacheBlock → Tier → UInt32 → State → List β)

/-- The loop of `Prefetch`. -/
def collectKeys (fastest : Tier) : List BlockKey → State → List β
  | [], _ => []
  | key :: rest, s =>
    match s.blocks.lookup key with
    | none => collectKeys fastest rest s
    | some it =>
      if it.entry.tier = fastest ∨
          config.evictionThresholdOf fastest < blockSizeBytes it.block then
        collectKeys fastest rest s
      else
        place it.block fastest it.entry.tenantId s ++
          match placeLocked .lazy config it.block fastest it.entry.tenantId s with
          | .ok (_, s) => collectKeys fastest rest s
          | .error _ => []

def collectOp (read : BlockKey → State → List β) (enforce : Tier → State → List β) :
    Op → State → List β
  | .write block target tenantId, s =>
    match config.resolveConfiguredTier target with
    | none => []
    | some tier => place block tier tenantId s
  | .read key, s => read key s
  | .prefetch predicted, s =>
    match config.resolveConfiguredTier .hbm with
    | none => []
    | some fastest => collectKeys config place fastest predicted s
  | .enforceCapacity tier, s => enforce tier s

def collectOps (call : Op → State → List β) : List Op → State → List β
  | [], _ => []
  | op :: ops, s =>
    call op s ++
      match runOp .lazy config op s with
      | .ok (_, s) => collectOps call ops s
      | .error _ => []

end

/-! ## Relations that compose -/

/-- A list that leads from a state to another. -/
structure Composes {β : Type} (Q : List β → State → State → Prop) : Prop where
  refl : ∀ s, Q [] s s
  trans : ∀ {l l' : List β} {a b c : State}, Q l a b → Q l' b c → Q (l ++ l') a c

section

variable {β D : Type} [DoubleArith D] {config : TierConfig D} {s : State}
  {place : KVCacheBlock → Tier → UInt32 → State → List β}
  {Q : List β → State → State → Prop}

theorem Composes.prefetchKeys (hQ : Composes Q) {fast : Tier}
    (hfast : config.configured fast = true)
    (hplace : ∀ key it s, Good config s → s.blocks.lookup key = some it →
      Returns (placeLocked .lazy config it.block fast it.entry.tenantId s) fun r =>
        Q (place it.block fast it.entry.tenantId s) s r.2)
    (predicted : List BlockKey) (hgood : Good config s) :
    Returns (prefetchKeys .lazy config fast predicted s) fun r =>
      Q (collectKeys config place fast predicted s) s r.2 := by
  refine prefetchKeys_rule (Q := fun keys s s' => Q (collectKeys config place fast keys s) s s')
    .lazy hfast hQ.refl ?skip ?place predicted hgood
  case skip =>
    intro key rest s s' hskip hrest
    unfold collectKeys
    cases h : s.blocks.lookup key with
    | none => exact hrest
    | some it =>
      dsimp only
      rw [if_pos]
      · exact hrest
      · by_cases htier : it.entry.tier = fast
        · exact .inl htier
        · exact .inr (hskip it h htier)
  case place =>
    intro key rest it s hgood h hslow hsize
    obtain ⟨r, hr, hhead⟩ := hplace key it s hgood h
    refine ⟨r, hr, fun s' hrest => ?_⟩
    unfold collectKeys
    rw [h]
    dsimp only
    rw [if_neg (not_or.mpr ⟨hslow, Nat.not_lt.mpr hsize⟩), hr]
    exact hQ.trans hhead hrest

theorem Composes.runOp {readList : BlockKey → State → List β} {enforceList : Tier → State → List β}
    (hQ : Composes Q) (op : Op) (hgood : Good config s)
    (hwrite : ∀ block target tenantId t, op = .write block target tenantId →
      config.configured t = true → Returns (placeLocked .lazy config block t tenantId s) fun r =>
        Q (place block t tenantId s) s r.2)
    (hplace : ∀ fast key it s, config.configured fast = true → Good config s →
      s.blocks.lookup key = some it →
      Returns (placeLocked .lazy config it.block fast it.entry.tenantId s) fun r =>
        Q (place it.block fast it.entry.tenantId s) s r.2)
    (hread : ∀ key, Returns (read .lazy config key s) fun r => Q (readList key s) s r.2)
    (henforce : ∀ t, Q (enforceList t s) s s) :
    Returns (runOp .lazy config op s) fun r =>
      Q (collectOp config place readList enforceList op s) s r.2 := by
  cases op with
  | write block target tenantId =>
    refine Returns.bind (P := fun r => Q _ s r.2) ?_ fun r h => returns_ok h
    rw [collectOp]
    unfold write
    cases ht : config.resolveConfiguredTier target with
    | none => exact returns_ok (hQ.refl s)
    | some t =>
      exact hwrite block target tenantId t rfl (TierConfig.resolveConfiguredTier_configured ht)
  | read key => exact (hread key).bind fun r h => returns_ok h
  | prefetch predicted =>
    refine Returns.bind (P := fun r => Q _ s r.2) ?_ fun r h => returns_ok h
    rw [collectOp]
    unfold prefetch
    cases hfast : config.resolveConfiguredTier .hbm with
    | none => exact returns_ok (hQ.refl s)
    | some fast =>
      have hconf := TierConfig.resolveConfiguredTier_configured hfast
      exact hQ.prefetchKeys hconf (fun key it s => hplace fast key it s hconf) predicted hgood
  | enforceCapacity t =>
    refine ⟨(.status .success, s), ?_, henforce t⟩
    simp only [Storage.runOp, enforceCapacity_eq hgood]
    rfl

theorem Composes.runOps {call : Op → State → List β} (hQ : Composes Q) {ops : List Op}
    (hop : ∀ op ∈ ops, ∀ s, Good config s →
      Returns (Storage.runOp .lazy config op s) fun r => Q (call op s) s r.2)
    (hgood : Good config s) :
    Returns (Storage.runOps .lazy config ops s) fun r =>
      Q (collectOps config call ops s) s r.2 := by
  induction ops generalizing s with
  | nil => exact returns_ok (hQ.refl s)
  | cons op ops ih =>
    obtain ⟨⟨reply, s₁⟩, hr, hhead⟩ := hop op List.mem_cons_self s hgood
    have hgood₁ := ((runOp_returns hgood op).of_eq hr).2
    unfold Storage.runOps collectOps
    rw [hr]
    obtain ⟨⟨replies, s'⟩, hrest, htail⟩ :=
      ih (fun op hmem => hop op (List.mem_cons_of_mem _ hmem)) hgood₁
    refine ⟨(reply :: replies, s'), ?_, hQ.trans hhead htail⟩
    show (Storage.runOps .lazy config ops s₁ >>= _) = _
    rw [hrest]
    rfl

end

end TieredKVCache.Storage
