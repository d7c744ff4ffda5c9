import TieredKVCache.Lib.KeyQueue
import TieredKVCache.Lib.Loop

/-!
# The cache policies of the benchmark

`LRUPolicy` of `policies.py`: `access`, and the tiered interface (`admit`, `touch`, `remove`) that a
simulation of several tiers drives; `admitKey` is `admit`. Capacity counts blocks. The callback
`on_evict` shows as the list of the keys an operation evicts, in order. `replay` runs a list of
events.
-/

namespace TieredKVCache.Bench

open Lib

variable {α : Type}

/-- `_store` holds the least recently used key first. -/
structure LRUPolicy (α : Type) where
  capacity : Nat
  capacity_pos : 0 < capacity
  store : KeyQueue α

/-- The tiered interface, as data. -/
inductive CacheEvent (α : Type) where
  | admitKey (hashId : α)
  | touch (hashId : α)
  | remove (hashId : α)
deriving DecidableEq, Repr

namespace LRUPolicy

/-- The constructor; its error is a `ValueError`. -/
def new (capacity : Int) : Except String (LRUPolicy α) :=
  if h : capacity ≤ 0 then .error "capacity 必须为正"
  else .ok { capacity := capacity.toNat, capacity_pos := by omega, store := ∅ }

theorem new_returns {capacity : Nat} (h : 1 ≤ capacity) :
    Returns (new capacity : Except String (LRUPolicy α)) fun p =>
      p.capacity = capacity ∧ p.store = ∅ :=
  ⟨_, dif_neg (by omega), Int.toNat_natCast capacity, rfl⟩

variable [DecidableEq α]

def touch (hashId : α) (p : LRUPolicy α) : LRUPolicy α :=
  if hashId ∈ p.store then { p with store := p.store.moveToEnd hashId } else p

/-- `admit`: the evicted keys, and the policy after the call. -/
def admitKey (hashId : α) (p : LRUPolicy α) : List α × LRUPolicy α :=
  let store := p.store.push hashId
  let store := store.moveToEnd hashId
  let (victims, store) := store.popDownTo p.capacity
  (victims, { p with store })

/-- Whether the access hits, the evicted keys, and the policy after the call. -/
def access (hashId : α) (_blockIndex : Int) (p : LRUPolicy α) : Bool × List α × LRUPolicy α :=
  if hashId ∈ p.store then (true, [], { p with store := p.store.moveToEnd hashId })
  else (false, p.admitKey hashId)

/-- Whether the key was there, and the policy after the call. -/
def remove (hashId : α) (p : LRUPolicy α) : Bool × LRUPolicy α :=
  (decide (hashId ∈ p.store), { p with store := p.store.erase hashId })

def apply : CacheEvent α → LRUPolicy α → List α × LRUPolicy α
  | .admitKey hashId, p => p.admitKey hashId
  | .touch hashId, p => ([], p.touch hashId)
  | .remove hashId, p => ([], (p.remove hashId).2)

/-- After each event: the keys it evicted, and the policy. -/
def replay : List (CacheEvent α) → LRUPolicy α → List (List α × LRUPolicy α)
  | [], _ => []
  | e :: events, p => p.apply e :: replay events (p.apply e).2

/-- The policy after all events. -/
def replayed : List (CacheEvent α) → LRUPolicy α → LRUPolicy α
  | [], p => p
  | e :: events, p => replayed events (p.apply e).2

/-! ## What the operations do to the store -/

variable {p : LRUPolicy α} {k : α}

theorem admitKey_eq : (p.admitKey k).1 = (p.store.toList.erase k ++ [k]).take
      ((p.store.toList.erase k ++ [k]).length - p.capacity) ∧
    (p.admitKey k).2.store.toList = (p.store.toList.erase k ++ [k]).drop
      ((p.store.toList.erase k ++ [k]).length - p.capacity) := by
  have hstore : ((p.store.push k).moveToEnd k).toList = p.store.toList.erase k ++ [k] := by
    rw [KeyQueue.toList_moveToEnd]
    exact congrArg (fun q : KeyQueue α => q.toList ++ [k]) KeyQueue.erase_push
  rw [← hstore]
  exact KeyQueue.popDownTo_eq p.capacity _

/-- An admission into a policy within its capacity moves the key to the end, or evicts the least
recently used key where the policy is full. -/
theorem admitKey_cases (h : p.store.length ≤ p.capacity) :
    (k ∈ p.store ∧ (p.admitKey k).1 = [] ∧
      (p.admitKey k).2.store.toList = p.store.toList.erase k ++ [k]) ∨
    (k ∉ p.store ∧ p.store.length < p.capacity ∧ (p.admitKey k).1 = [] ∧
      (p.admitKey k).2.store.toList = p.store.toList ++ [k]) ∨
    (k ∉ p.store ∧ p.store.length = p.capacity ∧ ∃ victim rest, p.store.toList = victim :: rest ∧
      (p.admitKey k).1 = [victim] ∧ (p.admitKey k).2.store.toList = rest ++ [k]) := by
  obtain ⟨hvictims, hstore⟩ := p.admitKey_eq (k := k)
  have hlength : p.store.toList.length ≤ p.capacity := h
  by_cases hk : k ∈ p.store
  · have hall : (p.store.toList.erase k ++ [k]).length - p.capacity = 0 := by
      have herase := List.length_erase_add_one hk
      rw [List.length_append, List.length_singleton]
      omega
    rw [hall] at hvictims hstore
    exact .inl ⟨hk, hvictims, hstore⟩
  · rw [List.erase_of_not_mem hk, List.length_append, List.length_singleton] at hvictims hstore
    rcases Nat.lt_or_eq_of_le hlength with hroom | hfull
    · rw [Nat.sub_eq_zero_of_le hroom] at hvictims hstore
      exact .inr (.inl ⟨hk, hroom, hvictims, hstore⟩)
    · have hpos := p.capacity_pos
      rw [hfull, Nat.add_sub_cancel_left] at hvictims hstore
      refine .inr (.inr ⟨hk, hfull, ?_⟩)
      cases hlist : p.store.toList with
      | nil =>
        rw [hlist, List.length_nil] at hfull
        omega
      | cons victim rest =>
        rw [hlist] at hvictims hstore
        exact ⟨victim, rest, rfl, hvictims, hstore⟩

theorem toList_touch (h : k ∈ p.store) :
    (p.touch k).store.toList = p.store.toList.erase k ++ [k] := by
  rw [touch, if_pos h]
  exact KeyQueue.toList_moveToEnd

@[simp]
theorem capacity_apply (e : CacheEvent α) : (p.apply e).2.capacity = p.capacity := by
  cases e with
  | admitKey k => rfl
  | touch k =>
    show (p.touch k).capacity = p.capacity
    unfold touch
    split <;> rfl
  | remove k => rfl

/-! ## Replays -/

theorem replay_append (events events' : List (CacheEvent α)) (p : LRUPolicy α) :
    replay (events ++ events') p = replay events p ++ replay events' (replayed events p) := by
  induction events generalizing p with
  | nil => rfl
  | cons e events ih => exact congrArg (p.apply e :: ·) (ih _)

theorem replayed_append (events events' : List (CacheEvent α)) (p : LRUPolicy α) :
    replayed (events ++ events') p = replayed events' (replayed events p) := by
  induction events generalizing p with
  | nil => rfl
  | cons e events ih => exact ih _

@[simp]
theorem capacity_replayed (events : List (CacheEvent α)) (p : LRUPolicy α) :
    (replayed events p).capacity = p.capacity := by
  induction events generalizing p with
  | nil => rfl
  | cons e events ih => exact (ih _).trans (capacity_apply e)

end LRUPolicy

end TieredKVCache.Bench
