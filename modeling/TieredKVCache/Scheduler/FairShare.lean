import TieredKVCache.Core.Double
import TieredKVCache.Lib.AssocSum
import TieredKVCache.Lib.Loop

/-!
# Fair-share allocation

`Scheduler::AllocateFairShare` of `scheduler.cpp`: capacity is handed out in passes, in
proportion to the weights of the tenants that still want some; where the rest is too small
for that, byte by byte in turn. A subtraction from `remaining` that would go below zero is a
fault.
-/

namespace TieredKVCache.Scheduler

open Lib

structure TenantId where
  value : String
deriving DecidableEq, Repr

structure TenantDemand (D : Type) where
  tenant : TenantId
  demandBytes : Nat := 0
  weight : D

structure Allocation where
  grants : AList fun _ : TenantId => Nat := ∅

inductive AllocationFault where
  /-- The loop ran past its bound. -/
  | diverged
  /-- `remaining` went below zero. -/
  | underflow
deriving DecidableEq, Repr

structure Item (D : Type) where
  demand : TenantDemand D
  granted : Nat := 0

def Item.unmet {D : Type} (item : Item D) : Nat := item.demand.demandBytes - item.granted

section

variable {D : Type} [DoubleArith D]

def activeWeight (items : List (Item D)) : D :=
  items.foldl (fun sum item =>
    if item.granted < item.demand.demandBytes then sum + item.demand.weight else sum) 0

/-- What a proportional pass gives to an item. -/
def give (remaining : Nat) (active : D) (item : Item D) : Nat :=
  let share := DoubleArith.toSize (DoubleArith.ofSize remaining * item.demand.weight / active)
  min item.unmet share

/-- A proportional pass: the items after it, and the bytes distributed. -/
def distribute (remaining : Nat) (active : D) : List (Item D) → List (Item D) × Nat
  | [] => ([], 0)
  | item :: rest =>
    let (items, distributed) := distribute remaining active rest
    if item.unmet = 0 then (item :: items, distributed)
    else
      let given := give remaining active item
      ({ item with granted := item.granted + given } :: items, given + distributed)

/-- The byte-by-byte pass: the items after it, the rest of the capacity, and the bytes
distributed. -/
def handOut : Nat → List (Item D) → List (Item D) × Nat × Nat
  | remaining, [] => ([], remaining, 0)
  | remaining, item :: rest =>
    if remaining = 0 then (item :: rest, 0, 0)
    else if item.granted < item.demand.demandBytes then
      let (items, remaining, distributed) := handOut (remaining - 1) rest
      ({ item with granted := item.granted + 1 } :: items, remaining, distributed + 1)
    else
      let (items, remaining, distributed) := handOut remaining rest
      (item :: items, remaining, distributed)

/-- The body of the loop over `remaining`; going round again is the end of the body or
`continue`, returning is `break`. -/
def fillBody (s : List (Item D) × Nat) :
    Except AllocationFault ((List (Item D) × Nat) ⊕ List (Item D)) :=
  let (items, remaining) := s
  if remaining = 0 then .ok (.inr items)
  else
    let active := activeWeight items
    if active ≤ 0 then .ok (.inr items)
    else
      let (items, distributed) := distribute remaining active items
      if distributed = 0 then
        let (items, remaining, distributed) := handOut remaining items
        if distributed = 0 then .ok (.inr items) else .ok (.inl (items, remaining))
      else if remaining < distributed then .error .underflow
      else .ok (.inl (items, remaining - distributed))

/-- The tenants that take part. -/
def takesPart (demand : TenantDemand D) : Bool :=
  decide (demand.demandBytes > 0) && decide (demand.weight > 0)

/-- Every round of the loop lowers `remaining`. -/
def allocateFairShare (demands : List (TenantDemand D)) (totalCapacityBytes : Nat) :
    Except AllocationFault Allocation := do
  let grants := demands.foldl (fun grants demand => grants.insert demand.tenant 0) ∅
  let items := (demands.filter takesPart).map fun demand => { demand }
  let items ← iterate fillBody .diverged (totalCapacityBytes + 1) (items, totalCapacityBytes)
  return ⟨items.foldl (fun grants item => grants.insert item.demand.tenant item.granted) grants⟩

end

end TieredKVCache.Scheduler
