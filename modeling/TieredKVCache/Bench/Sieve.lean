import TieredKVCache.Bench.CachePolicy
import TieredKVCache.Lib.Loop
import TieredKVCache.Lib.OrderedDict

/-!
# SIEVE

`SievePolicy` of `policies.py`: a queue of keys with a visited bit each, and a hand that goes round
the queue, clears the bits it meets and evicts the first key without one. Every round of the hand
lowers the number of visited keys, and none of them moves a key (`evict_spec`).
-/

namespace TieredKVCache.Bench

open Lib CachePolicy

variable {α : Type}

/-- `_store` maps a key to its visited bit, in the order of insertion; `cursor` is the key under the
hand, which may have left the store since. -/
structure SievePolicy (α : Type) where
  capacity : Nat
  capacity_pos : 0 < capacity
  store : OrderedDict α Bool
  cursor : Option α

namespace SievePolicy

def new (capacity : Int) : Except String (SievePolicy α) := do
  let capacity ← checkCapacity capacity
  return { capacity := capacity, capacity_pos := checked_pos capacity, store := ∅, cursor := none }

/-- `keys[i % n]`. -/
def keyAt (keys : List α) (h : keys ≠ []) (i : Nat) : α :=
  keys.get ⟨i % keys.length, Nat.mod_lt i (List.length_pos_iff.mpr h)⟩

variable [DecidableEq α]

/-- A round of the hand spares the key under it if the key was visited, and goes on. -/
def handRound (keys : List α) (h : keys ≠ []) (hand : Nat × OrderedDict α Bool) :
    Option (List α × (Nat × OrderedDict α Bool)) :=
  let (i, store) := hand
  let key := keyAt keys h i
  if store.getD key false then some ([key], (i + 1, store.setItem key false)) else none

/-- What a round of the hand does. -/
theorem handRound_eq_some {keys spared : List α} {h : keys ≠ []}
    {hand hand' : Nat × OrderedDict α Bool}
    (hround : handRound keys h hand = some (spared, hand')) :
    ∃ key ∈ hand.2, hand.2.value key = true ∧ hand'.2 = hand.2.setItem key false := by
  obtain ⟨i, store⟩ := hand
  unfold handRound at hround
  dsimp only at hround
  split at hround
  next hvisited =>
    cases hround
    unfold OrderedDict.getD at hvisited
    split at hvisited
    next hmem => exact ⟨_, hmem, hvisited, rfl⟩
    next => cases hvisited
  next => cases hround

theorem total_of_handRound {keys spared : List α} {h : keys ≠ []}
    {hand hand' : Nat × OrderedDict α Bool}
    (hround : handRound keys h hand = some (spared, hand')) :
    hand'.2.total Bool.toNat < hand.2.total Bool.toNat := by
  obtain ⟨key, hmem, hvalue, hstore⟩ := handRound_eq_some hround
  have htotal := hand.2.total_setItem_of_mem (v := false) Bool.toNat hmem
  rw [hvalue] at htotal
  simp only [Bool.toNat_true, Bool.toNat_false] at htotal
  rw [hstore]
  omega

/-- Where the hand stops, and the store with the bits on its way cleared. -/
def hand (keys : List α) (h : keys ≠ []) (start : Nat) (store : OrderedDict α Bool) :
    Nat × OrderedDict α Bool :=
  (drain (handRound keys h) (fun hand => hand.2.total Bool.toNat) total_of_handRound
    (start, store)).2

/-- The hand goes on from where it stopped last, or from the start where that key has left. -/
def start (p : SievePolicy α) : Nat :=
  match p.cursor with
  | some cursor => if cursor ∈ p.store then p.store.keys.toList.idxOf cursor else 0
  | none => 0

def evict (p : SievePolicy α) : List (Eviction α) × SievePolicy α :=
  let keys := p.store.keys.toList
  if h : keys = [] then ([], p)
  else
    let (i, store) := hand keys h p.start p.store
    let key := keyAt keys h i
    let cursor := if keys.length > 1 then some (keyAt keys h (i + 1)) else none
    let store := store.erase key
    ([⟨key, store.keys.toList⟩], { p with store, cursor })

/-- `admit`: the evictions, and the policy after the call. -/
def admitKey (hashId : α) (p : SievePolicy α) : List (Eviction α) × SievePolicy α :=
  if hashId ∈ p.store then ([], p)
  else
    let (evictions, p) := if p.store.length ≥ p.capacity then p.evict else ([], p)
    (evictions, { p with store := p.store.setItem hashId false })

def touch (hashId : α) (p : SievePolicy α) : SievePolicy α :=
  if hashId ∈ p.store then { p with store := p.store.setItem hashId true } else p

/-- Whether the access hits, the evictions, and the policy after the call. -/
def access (hashId : α) (_blockIndex : Int) (p : SievePolicy α) :
    Bool × List (Eviction α) × SievePolicy α :=
  if hashId ∈ p.store then (true, [], { p with store := p.store.setItem hashId true })
  else (false, p.admitKey hashId)

/-- Whether the key was there, and the policy after the call. -/
def remove (hashId : α) (p : SievePolicy α) : Bool × SievePolicy α :=
  (decide (hashId ∈ p.store), { p with store := p.store.erase hashId })

/-! ## What the operations do to the resident keys -/

variable {capacity : Nat} {p : SievePolicy α}

theorem keys_hand (keys : List α) (h : keys ≠ []) (start : Nat) (store : OrderedDict α Bool) :
    (hand keys h start store).2.keys = store.keys := by
  refine (drain_spec (fun _ (hand : Nat × OrderedDict α Bool) => hand.2.keys = store.keys) ?_
    rfl).1
  intro _ hand _ hand' hkeys hround
  obtain ⟨key, hmem, -, hstore⟩ := handRound_eq_some hround
  rw [hstore, OrderedDict.keys_setItem, KeyQueue.push_of_mem hmem, hkeys]

/-- One key leaves a store that is not empty, and it has left when the callback runs. -/
theorem evict_spec (h : 0 < p.store.length) : ∃ victim ∈ p.store,
    p.evict.1 = [⟨victim, (p.store.keys.erase victim).toList⟩] ∧
      p.evict.2.store.keys = p.store.keys.erase victim ∧ p.evict.2.capacity = p.capacity := by
  have hkeys : p.store.keys.toList ≠ [] := List.length_pos_iff.mp h
  have hrun := keys_hand p.store.keys.toList hkeys p.start p.store
  set victim := keyAt _ hkeys (hand _ hkeys p.start p.store).1
  have herase := congrArg (fun q : KeyQueue α => q.erase victim) hrun
  refine ⟨victim, List.get_mem _ _, ?_, ?_, ?_⟩ <;> rw [evict, dif_neg hkeys]
  · exact congrArg (fun q : KeyQueue α => [(⟨victim, q.toList⟩ : Eviction α)]) herase
  · exact herase

/-- The policy has the capacity and keeps within it. -/
def Valid (capacity : Nat) (p : SievePolicy α) : Prop :=
  p.capacity = capacity ∧ p.store.length ≤ capacity

theorem valid_touch (k : α) (h : p.Valid capacity) :
    (p.touch k).Valid capacity ∧ (p.touch k).store.keys = p.store.keys := by
  unfold touch
  split
  next hk =>
    have hkeys : (p.store.setItem k true).keys = p.store.keys := KeyQueue.push_of_mem hk
    exact ⟨⟨h.1, (congrArg KeyQueue.length hkeys).trans_le h.2⟩, hkeys⟩
  next hk => exact ⟨h, rfl⟩

theorem valid_admitKey (k : α) (h : p.Valid capacity) : (p.admitKey k).2.Valid capacity ∧
    Admission k p.store.keys.toList (p.admitKey k).1 (p.admitKey k).2.store.keys.toList := by
  obtain ⟨rfl, hlength⟩ := h
  by_cases hk : k ∈ p.store
  · rw [admitKey, if_pos hk]
    exact ⟨⟨rfl, hlength⟩, .resident hk .rfl⟩
  · rw [admitKey, if_neg hk]
    by_cases hfull : p.store.length ≥ p.capacity
    · obtain ⟨victim, hmem, hevictions, hkeys, hcapacity⟩ :=
        evict_spec (Nat.lt_of_lt_of_le p.capacity_pos hfull)
      rw [if_pos hfull]
      have hout : k ∉ p.store.keys.erase victim := fun hin =>
        hk (KeyQueue.mem_erase.mp hin).2
      have hafter : (p.evict.2.store.setItem k false).keys.toList =
          (p.store.keys.erase victim).toList ++ [k] := by
        rw [OrderedDict.keys_setItem, hkeys, KeyQueue.toList_push hout]
      have hperm : (victim :: (p.evict.2.store.setItem k false).keys.toList).Perm
          (k :: p.store.keys.toList) := by
        rw [hafter]
        refine (List.perm_append_singleton k (victim :: _)).trans (List.Perm.cons k ?_)
        exact (List.perm_cons_erase hmem).symm
      refine ⟨⟨hcapacity, ?_⟩, ?_⟩
      · exact (Nat.succ.inj hperm.length_eq).trans_le hlength
      · dsimp only
        rw [hevictions]
        exact .displaced hk (KeyQueue.nodup _).not_mem_erase hperm
    · rw [if_neg hfull]
      have hafter : (p.store.setItem k false).keys.toList = p.store.keys.toList ++ [k] :=
        KeyQueue.toList_push hk
      have hperm : (p.store.setItem k false).keys.toList.Perm (k :: p.store.keys.toList) := by
        rw [hafter]
        exact List.perm_append_singleton _ _
      exact ⟨⟨rfl, hperm.length_eq.trans_le (Nat.not_le.mp hfull)⟩, .stored hk hperm⟩

end SievePolicy

variable [DecidableEq α]

instance : CachePolicy (SievePolicy α) α where
  residents p := p.store.keys.toList
  contains k p := decide (k ∈ p.store)
  bypasses _ _ _ := false
  access := SievePolicy.access
  touch := SievePolicy.touch
  admitKey := SievePolicy.admitKey
  remove := SievePolicy.remove

instance : LawfulPolicy (SievePolicy α) where
  Valid := SievePolicy.Valid
  nodup {_ p} _ := p.store.keys.nodup
  length_le h := h.2
  contains_iff := decide_eq_true_iff
  touch_spec k h := ⟨(SievePolicy.valid_touch k h).1,
    .of_eq (congrArg KeyQueue.toList (SievePolicy.valid_touch k h).2)⟩
  remove_spec k h := ⟨⟨h.1, Nat.le_trans List.length_erase_le h.2⟩, rfl, .rfl⟩
  admitKey_spec k h := SievePolicy.valid_admitKey k h
  access_hit {_ p k} _ h hin := by
    have hk : k ∈ p.store := of_decide_eq_true hin
    have hkeys : (p.store.setItem k true).keys = p.store.keys := KeyQueue.push_of_mem hk
    exact ⟨_, if_pos hk, ⟨h.1, (congrArg KeyQueue.length hkeys).trans_le h.2⟩,
      .of_eq (congrArg KeyQueue.toList hkeys)⟩
  access_bypassed _ hskip := absurd hskip Bool.false_ne_true
  access_admits {_ p k _} h hin _ := by
    have hk : k ∉ p.store := of_decide_eq_false hin
    exact ⟨_, _, if_neg hk, SievePolicy.valid_admitKey k h⟩

theorem SievePolicy.new_fresh {capacity : Nat} (h : 1 ≤ capacity) :
    Returns (new capacity : Except String (SievePolicy α)) (Fresh capacity) :=
  ⟨⟨capacity, h, ∅, none⟩, congrArg (Except.map _) (checkCapacity_of_pos h),
    ⟨rfl, Nat.zero_le _⟩, rfl⟩

end TieredKVCache.Bench
