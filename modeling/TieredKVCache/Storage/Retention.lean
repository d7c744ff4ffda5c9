import TieredKVCache.Storage.Residents

/-!
# What a sequence of calls keeps

After a sequence of calls the resident blocks are at most those from before and those it wrote. They
are all of these if and only if every block that a call drops is written again by a later one
(`runOps_restores`).
-/

namespace TieredKVCache.Storage

open Lib

section

variable {D : Type} [DoubleArith D]

/-- One of the calls writes the key. -/
def Written (config : TierConfig D) (key : BlockKey) (ops : List Op) : Prop :=
  ∃ op ∈ ops, key ∈ writtenKeys config op

/-- Every block that a call drops is written again by a later one. -/
def Restores (config : TierConfig D) : List Op → State → Prop
  | [], _ => True
  | op :: ops, s =>
    (∀ key, Dropped config key (roundsOp config op s) → Written config key ops) ∧
      ∀ r, runOp .lazy config op s = .ok r → Restores config ops r.2

/-- The resident blocks are those from before and the written ones. -/
def KeepsAll (config : TierConfig D) (ops : List Op) (s s' : State) : Prop :=
  ∀ key, key ∈ residents s' ↔ key ∈ residents s ∨ Written config key ops

variable {config : TierConfig D} {key : BlockKey} {op : Op} {ops ops' : List Op} {s : State}

@[simp]
theorem not_written_nil : ¬ Written config key [] := by
  simp [Written]

theorem written_append : Written config key (ops ++ ops') ↔
    Written config key ops ∨ Written config key ops' := by
  simp [Written, or_and_right, exists_or]

theorem written_cons : Written config key (op :: ops) ↔
    key ∈ writtenKeys config op ∨ Written config key ops := List.exists_mem_cons_iff _ _ _

/-- The calls lead from a state to another. -/
def Ran (config : TierConfig D) (ops : List Op) (s s' : State) : Prop :=
  ∃ replies, runOps .lazy config ops s = .ok (replies, s')

theorem runOps_cons {reply : Reply} {replies : List Reply} {s₁ s' : State}
    (hop : runOp .lazy config op s = .ok (reply, s₁))
    (hops : runOps .lazy config ops s₁ = .ok (replies, s')) :
    runOps .lazy config (op :: ops) s = .ok (reply :: replies, s') := by
  simp [runOps, hop, hops, Bind.bind, Except.bind, Pure.pure, Except.pure]

theorem Ran.nil (s : State) : Ran config [] s s := ⟨[], rfl⟩

theorem Ran.single {reply : Reply} {s' : State} (h : runOp .lazy config op s = .ok (reply, s')) :
    Ran config [op] s s' := ⟨[reply], runOps_cons h rfl⟩

theorem Ran.append {s' s'' : State} (h : Ran config ops s s')
    (h' : Ran config ops' s' s'') : Ran config (ops ++ ops') s s'' := by
  induction ops generalizing s with
  | nil =>
    obtain ⟨replies, hrun⟩ := h
    cases hrun
    exact h'
  | cons op ops ih =>
    obtain ⟨replies, hrun⟩ := h
    unfold runOps at hrun
    cases hop : runOp .lazy config op s with
    | error e => rw [hop] at hrun; cases hrun
    | ok r =>
      rw [hop] at hrun
      cases hops : runOps .lazy config ops r.2 with
      | error e => simp [hops, Bind.bind, Except.bind] at hrun
      | ok q =>
        simp only [hops, Bind.bind, Except.bind, Pure.pure, Except.pure, Except.ok.injEq,
          Prod.mk.injEq] at hrun
        obtain ⟨-, rfl⟩ := hrun
        obtain ⟨replies', hrest⟩ := ih ⟨q.1, hops⟩
        exact ⟨_, runOps_cons hop hrest⟩

theorem Ran.good {s' : State} (h : Ran config ops s s') (hgood : Good config s) :
    Good config s' := by
  obtain ⟨replies, hrun⟩ := h
  exact (runOps_good ops hgood).of_eq hrun

/-- Nothing is resident but what was before and what was written; and all of it is, if and only if
the calls restore what they drop. -/
theorem runOps_restores (ops : List Op) (hgood : Good config s) :
    Returns (runOps .lazy config ops s) fun r =>
      (∀ key ∈ residents r.2, key ∈ residents s ∨ Written config key ops) ∧
        (KeepsAll config ops s r.2 ↔ Restores config ops s) := by
  induction ops generalizing s with
  | nil =>
    refine returns_ok ⟨fun key hkey => .inl hkey, iff_of_true (fun key => ?_) trivial⟩
    simp
  | cons op ops ih =>
    obtain ⟨⟨reply, s₁⟩, hop, hsheds⟩ := runOp_sheds hgood op
    have hgood₁ := ((runOp_returns hgood op).of_eq hop).2
    obtain ⟨⟨replies, s'⟩, hops, hsub, hkeeps⟩ := ih hgood₁
    dsimp only at hsheds hsub hkeeps
    simp only [hsheds.mem_iff, Finset.mem_union] at hsub
    refine ⟨_, runOps_cons hop hops, fun key hkey => ?_, ?_⟩
    · rw [written_cons, ← or_assoc]
      exact (hsub key hkey).imp_left And.left
    have hrest : Restores config (op :: ops) s ↔
        (∀ key, Dropped config key (roundsOp config op s) → Written config key ops) ∧
          KeepsAll config ops s₁ s' := by
      rw [hkeeps, Restores, hop]
      simp
    rw [hrest]
    simp only [KeepsAll, written_cons, hsheds.mem_iff, Finset.mem_union, ← or_assoc]
    constructor
    · intro hall
      refine ⟨fun key hdropped => ?_, fun key => ⟨hsub key, fun hkey => ?_⟩⟩
      · have hbefore := hsheds.mem_of_dropped key hdropped
        rw [Finset.mem_union] at hbefore
        exact (hsub key ((hall key).mpr (.inl hbefore))).resolve_left fun h => h.2 hdropped
      · exact (hall key).mpr (hkey.imp_left And.left)
    · rintro ⟨hrestored, hall⟩ key
      refine ⟨fun hkey => ((hall key).mp hkey).imp_left And.left, fun hkey => (hall key).mpr ?_⟩
      by_cases hdropped : Dropped config key (roundsOp config op s)
      · exact .inr (hrestored key hdropped)
      · exact hkey.imp_left fun h => ⟨h, hdropped⟩

end

end TieredKVCache.Storage
