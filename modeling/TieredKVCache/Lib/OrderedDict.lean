import TieredKVCache.Lib.KeyQueue
import Mathlib.Algebra.BigOperators.Group.List.Basic
import Mathlib.Algebra.GroupWithZero.Nat
import Mathlib.Logic.Function.Basic

/-!
# Ordered dictionaries

An `OrderedDict` is a `KeyQueue` with a value for each of its keys; what `value` says of any other
key is never read. Assignment leaves a key that is present in its place, and `total` adds up a
weight of the values, which is the measure of loops that lower values or drop keys.
-/

namespace TieredKVCache.Lib

/-- Keys in the order of insertion, and the values of these keys. -/
structure OrderedDict (α β : Type) where
  keys : KeyQueue α
  value : α → β

namespace OrderedDict

variable {α β : Type}

instance [Inhabited β] : EmptyCollection (OrderedDict α β) := ⟨⟨∅, fun _ => default⟩⟩

instance : Membership α (OrderedDict α β) := ⟨fun d k => k ∈ d.keys⟩

def length (d : OrderedDict α β) : Nat := d.keys.length

/-- `popitem(last=False)`; the dictionary must not be empty. -/
def popFront (d : OrderedDict α β) : Option ((α × β) × OrderedDict α β) :=
  d.keys.popFront.map fun (k, rest) => ((k, d.value k), { d with keys := rest })

/-- The sum of the weights of the values. -/
def total (f : β → Nat) (d : OrderedDict α β) : Nat :=
  (d.keys.toList.map fun k => f (d.value k)).sum

@[simp]
theorem mem_keys {d : OrderedDict α β} {k : α} : k ∈ d.keys ↔ k ∈ d := Iff.rfl

/-- `d.items()`. -/
def items (d : OrderedDict α β) : List (α × β) := d.keys.toList.map fun k => (k, d.value k)

@[simp]
theorem map_fst_items (d : OrderedDict α β) : d.items.map Prod.fst = d.keys.toList := by
  rw [items, List.map_map]
  exact List.map_id _

theorem mem_iff_items {d : OrderedDict α β} {k : α} : k ∈ d ↔ k ∈ d.items.map Prod.fst := by
  rw [map_fst_items]
  exact Iff.rfl

theorem mem_items {d : OrderedDict α β} {e : α × β} :
    e ∈ d.items ↔ e.1 ∈ d ∧ d.value e.1 = e.2 := by
  constructor
  · intro h
    obtain ⟨k, hk, rfl⟩ := List.mem_map.mp h
    exact ⟨hk, rfl⟩
  · rintro ⟨hk, hvalue⟩
    exact List.mem_map.mpr ⟨e.1, hk, Prod.ext rfl hvalue⟩

theorem popFront_eq_some {d r : OrderedDict α β} {k : α} {v : β}
    (h : d.popFront = some ((k, v), r)) :
    d.keys.toList = k :: r.keys.toList ∧ v = d.value k ∧ r.value = d.value := by
  obtain ⟨⟨k', rest⟩, hpop, heq⟩ := Option.map_eq_some_iff.mp h
  cases heq
  exact ⟨KeyQueue.popFront_eq_some.mp hpop, rfl, rfl⟩

theorem popFront_of_items {d : OrderedDict α β} {e : α × β} {rest : List (α × β)}
    (h : d.items = e :: rest) : ∃ r, d.popFront = some (e, r) ∧ r.items = rest := by
  obtain ⟨k, keys, hkeys, rfl, rfl⟩ := List.map_eq_cons_iff.mp h
  have hnodup : keys.Nodup := (List.nodup_cons.mp (hkeys ▸ d.keys.nodup)).2
  have hpop : d.keys.popFront = some (k, ⟨keys, hnodup⟩) := KeyQueue.popFront_eq_some.mpr hkeys
  exact ⟨{ d with keys := ⟨keys, hnodup⟩ }, by rw [popFront, hpop]; rfl, rfl⟩

theorem popFront_eq_none {d : OrderedDict α β} : d.popFront = none ↔ d.length = 0 := by
  rw [popFront, Option.map_eq_none_iff, KeyQueue.popFront_eq_none]
  exact List.length_eq_zero_iff.symm

theorem length_of_popFront {d r : OrderedDict α β} {e : α × β} (h : d.popFront = some (e, r)) :
    d.length = r.length + 1 :=
  congrArg List.length (popFront_eq_some h).1

theorem notMem_of_popFront {d r : OrderedDict α β} {k : α} {v : β}
    (h : d.popFront = some ((k, v), r)) : k ∉ r := by
  have hnodup := d.keys.nodup
  rw [(popFront_eq_some h).1] at hnodup
  exact (List.nodup_cons.mp hnodup).1

theorem total_of_popFront (f : β → Nat) {d r : OrderedDict α β} {k : α} {v : β}
    (h : d.popFront = some ((k, v), r)) : d.total f = f v + r.total f := by
  obtain ⟨hkeys, rfl, hvalue⟩ := popFront_eq_some h
  rw [total, hkeys, List.map_cons, List.sum_cons, total, hvalue]

section

variable [DecidableEq α]

instance (k : α) (d : OrderedDict α β) : Decidable (k ∈ d) :=
  inferInstanceAs (Decidable (k ∈ d.keys))

/-- `d.get(k, default)`. -/
def getD (d : OrderedDict α β) (k : α) (default : β) : β :=
  if k ∈ d then d.value k else default

/-- `d[k] = v`: a key that is present keeps its place. -/
def setItem (d : OrderedDict α β) (k : α) (v : β) : OrderedDict α β where
  keys := d.keys.push k
  value := Function.update d.value k v

/-- `del d[k]`, or `d.pop(k, None)`. -/
def erase (d : OrderedDict α β) (k : α) : OrderedDict α β := { d with keys := d.keys.erase k }

/-- `d.move_to_end(k)`, of a key that is present. -/
def moveToEnd (d : OrderedDict α β) (k : α) : OrderedDict α β :=
  { d with keys := d.keys.moveToEnd k }

variable {d : OrderedDict α β} {k : α} {v : β}

@[simp]
theorem keys_setItem : (d.setItem k v).keys = d.keys.push k := rfl

theorem items_setItem_of_notMem (h : k ∉ d) : (d.setItem k v).items = d.items ++ [(k, v)] := by
  rw [items, keys_setItem, KeyQueue.toList_push h, List.map_append]
  refine congrArg₂ (· ++ ·) (List.map_congr_left fun x hx => ?_) ?_
  · have hne : x ≠ k := fun heq => h (heq ▸ hx)
    show (x, Function.update d.value k v x) = (x, d.value x)
    rw [Function.update_of_ne hne]
  · show [(k, Function.update d.value k v k)] = [(k, v)]
    rw [Function.update_self]

private theorem sum_update (f : β → Nat) {l : List α} (h : k ∉ l) (value : α → β) :
    (l.map fun x => f (Function.update value k v x)).sum = (l.map fun x => f (value x)).sum := by
  refine congrArg List.sum (List.map_congr_left fun x hx => ?_)
  have hne : x ≠ k := fun heq => h (heq ▸ hx)
  rw [Function.update_of_ne hne]

theorem total_setItem_of_mem (f : β → Nat) (h : k ∈ d) :
    (d.setItem k v).total f + f (d.value k) = d.total f + f v := by
  have hout : k ∉ d.keys.toList.erase k := d.keys.nodup.not_mem_erase
  have hbefore := List.sum_map_erase (fun x => f (d.value x)) h
  have hafter := List.sum_map_erase (fun x => f (Function.update d.value k v x)) h
  rw [sum_update f hout, Function.update_self] at hafter
  rw [total, total, keys_setItem, KeyQueue.push_of_mem h]
  show (d.keys.toList.map fun x => f (Function.update d.value k v x)).sum + _ = _
  omega

theorem total_setItem_of_notMem (f : β → Nat) (h : k ∉ d) :
    (d.setItem k v).total f = d.total f + f v := by
  rw [total, keys_setItem, KeyQueue.toList_push h, List.map_append, List.sum_append]
  show (d.keys.toList.map fun x => f (Function.update d.value k v x)).sum +
    [f (Function.update d.value k v k)].sum = _
  rw [sum_update f h, Function.update_self, List.sum_singleton]
  rfl

end

end OrderedDict

end TieredKVCache.Lib
