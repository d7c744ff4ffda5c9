import TieredKVCache.Bench.CachePolicy
import TieredKVCache.Bench.Policies
import TieredKVCache.Lib.Loop
import TieredKVCache.Lib.OrderedDict
import Mathlib.Algebra.Order.Group.Nat

/-!
# The policies in the order of use

`LRUPolicy` as an instance of the interface, and `PrefixAwareLRUPolicy`, which evicts the deepest
of the least recently used blocks. Both move a key that is used to the end of one dictionary.
-/

namespace TieredKVCache.Bench

open Lib CachePolicy

variable {α : Type}

/-- The callbacks for keys that are popped one after the other, where `kept` is what is left. -/
def popped : List α → List α → List (Eviction α)
  | [], _ => []
  | victim :: victims, kept => ⟨victim, victims ++ kept⟩ :: popped victims kept

variable [DecidableEq α]

/-! ## LRU -/

instance : CachePolicy (LRUPolicy α) α where
  residents p := p.store.toList
  contains k p := decide (k ∈ p.store)
  bypasses _ _ _ := false
  access k blockIndex p :=
    let (hit, victims, p') := p.access k blockIndex
    (hit, popped victims p'.store.toList, p')
  touch := LRUPolicy.touch
  admitKey k p :=
    let (victims, p') := p.admitKey k
    (popped victims p'.store.toList, p')
  remove := LRUPolicy.remove

namespace LRUPolicy

/-- The policy has the capacity and keeps within it. -/
def Valid (capacity : Nat) (p : LRUPolicy α) : Prop :=
  p.capacity = capacity ∧ p.store.length ≤ capacity

variable {capacity : Nat} {p : LRUPolicy α}

theorem valid_touch (k : α) (h : p.Valid capacity) :
    (p.touch k).Valid capacity ∧ (p.touch k).store.toList.Perm p.store.toList := by
  by_cases hk : k ∈ p.store
  · have hperm : (p.touch k).store.toList.Perm p.store.toList := by
      rw [toList_touch hk]
      exact (List.perm_append_singleton _ _).trans (List.perm_cons_erase hk).symm
    refine ⟨⟨?_, hperm.length_eq.trans_le h.2⟩, hperm⟩
    rw [touch, if_pos hk]
    exact h.1
  · rw [touch, if_neg hk]
    exact ⟨h, .rfl⟩

theorem valid_remove (k : α) (h : p.Valid capacity) : (p.remove k).2.Valid capacity :=
  ⟨h.1, Nat.le_trans List.length_erase_le h.2⟩

theorem valid_admitKey (k : α) (h : p.Valid capacity) : (p.admitKey k).2.Valid capacity ∧
    Admission k p.store.toList (popped (p.admitKey k).1 (p.admitKey k).2.store.toList)
      (p.admitKey k).2.store.toList := by
  refine ⟨⟨h.1, (KeyQueue.length_popDownTo_le _ _).trans_eq h.1⟩, ?_⟩
  rcases p.admitKey_cases (k := k) (h.2.trans_eq h.1.symm) with
    ⟨hk, hvictims, hstore⟩ | ⟨hk, -, hvictims, hstore⟩ |
      ⟨hk, -, victim, rest, hlist, hvictims, hstore⟩
  · rw [hvictims, hstore]
    exact .resident hk ((List.perm_append_singleton _ _).trans (List.perm_cons_erase hk).symm)
  · rw [hvictims, hstore]
    exact .stored hk (List.perm_append_singleton _ _)
  · rw [hvictims, hstore, hlist]
    have hnodup := p.store.nodup
    rw [← KeyQueue.mem_toList, hlist] at hk
    rw [hlist, List.nodup_cons] at hnodup
    refine .displaced hk ?_ (List.perm_append_singleton k (victim :: rest))
    simp only [List.nil_append, List.mem_append, List.mem_singleton]
    rintro (hmem | rfl)
    · exact hnodup.1 hmem
    · exact hk List.mem_cons_self

end LRUPolicy

instance : LawfulPolicy (LRUPolicy α) where
  Valid := LRUPolicy.Valid
  nodup {_ p} _ := p.store.nodup
  length_le h := h.2
  contains_iff := decide_eq_true_iff
  touch_spec k h := LRUPolicy.valid_touch k h
  remove_spec k h := ⟨LRUPolicy.valid_remove k h, rfl, .rfl⟩
  admitKey_spec k h := LRUPolicy.valid_admitKey k h
  access_hit {_ p k} blockIndex h hin := by
    have hk : k ∈ p.store := of_decide_eq_true hin
    have hperm := KeyQueue.perm_moveToEnd (q := p.store) hk
    exact ⟨{ p with store := p.store.moveToEnd k }, by
      simp [access, LRUPolicy.access, hk, popped], ⟨h.1, hperm.length_eq.trans_le h.2⟩, hperm⟩
  access_bypassed _ hskip := absurd hskip Bool.false_ne_true
  access_admits {_ p k _} h hin _ := by
    have hk : k ∉ p.store := of_decide_eq_false hin
    exact ⟨_, _, by simp [access, LRUPolicy.access, hk], LRUPolicy.valid_admitKey k h⟩

theorem LRUPolicy.new_fresh {capacity : Nat} (h : 1 ≤ capacity) :
    Returns (LRUPolicy.new capacity : Except String (LRUPolicy α)) (Fresh capacity) :=
  (LRUPolicy.new_returns h).mono fun _ hp =>
    ⟨⟨hp.1, hp.2 ▸ Nat.zero_le _⟩, congrArg KeyQueue.toList hp.2⟩

/-! ## Prefix-aware LRU -/

/-- `_store` maps a key to the depth of its block; the least recently used key comes first. -/
structure PrefixAwareLRUPolicy (α : Type) where
  capacity : Nat
  capacity_pos : 0 < capacity
  store : OrderedDict α Int

namespace PrefixAwareLRUPolicy

/-- `_CANDIDATE_WINDOW`. -/
def candidateWindow : Nat := 16

omit [DecidableEq α] in
def new (capacity : Int) : Except String (PrefixAwareLRUPolicy α) := do
  let capacity ← checkCapacity capacity
  return { capacity := capacity, capacity_pos := checked_pos capacity, store := ∅ }

/-- The oldest candidate of maximal depth leaves; `max` of no candidates is a `ValueError`. -/
def evict (p : PrefixAwareLRUPolicy α) : Option (Eviction α × PrefixAwareLRUPolicy α) :=
  let candidates := p.store.keys.toList.take candidateWindow
  (candidates.maxOn? p.store.value).map fun victim =>
    let store := p.store.erase victim
    (⟨victim, store.keys.toList⟩, { p with store })

/-- A round of the loop of `admit`. -/
def evictRound (p : PrefixAwareLRUPolicy α) :
    Option (List (Eviction α) × PrefixAwareLRUPolicy α) :=
  if p.store.length > p.capacity then p.evict.map fun (eviction, p') => ([eviction], p') else none

theorem evict_eq_some {p p' : PrefixAwareLRUPolicy α} {e : Eviction α}
    (h : p.evict = some (e, p')) : e.key ∈ p.store ∧
      p' = { p with store := p.store.erase e.key } ∧ e.resident = p'.store.keys.toList := by
  obtain ⟨victim, hvictim, heq⟩ := Option.map_eq_some_iff.mp h
  cases heq
  exact ⟨List.mem_of_mem_take (List.maxOn?_mem hvictim), rfl, rfl⟩

theorem length_of_evictRound {p p' : PrefixAwareLRUPolicy α} {es : List (Eviction α)}
    (h : p.evictRound = some (es, p')) : p'.store.length < p.store.length := by
  unfold evictRound at h
  split at h
  · obtain ⟨⟨e, q⟩, hevict, heq⟩ := Option.map_eq_some_iff.mp h
    cases heq
    obtain ⟨hmem, rfl, -⟩ := evict_eq_some hevict
    have hlength := List.length_erase_add_one hmem
    exact Nat.lt_of_succ_le hlength.le
  · cases h

/-- `while len(self._store) > self.capacity: self._evict()`. -/
def evictDown : PrefixAwareLRUPolicy α → List (Eviction α) × PrefixAwareLRUPolicy α :=
  drain evictRound (fun p => p.store.length) length_of_evictRound

/-- `admit`: the evictions, and the policy after the call. -/
def admitKey (hashId : α) (blockIndex : Int) (p : PrefixAwareLRUPolicy α) :
    List (Eviction α) × PrefixAwareLRUPolicy α :=
  let store := p.store.setItem hashId blockIndex
  let store := store.moveToEnd hashId
  evictDown { p with store }

def touch (hashId : α) (p : PrefixAwareLRUPolicy α) : PrefixAwareLRUPolicy α :=
  if hashId ∈ p.store then { p with store := p.store.moveToEnd hashId } else p

/-- Whether the access hits, the evictions, and the policy after the call. -/
def access (hashId : α) (blockIndex : Int) (p : PrefixAwareLRUPolicy α) :
    Bool × List (Eviction α) × PrefixAwareLRUPolicy α :=
  if hashId ∈ p.store then
    let store := p.store.moveToEnd hashId
    (true, [], { p with store := store.setItem hashId blockIndex })
  else (false, p.admitKey hashId blockIndex)

/-- Whether the key was there, and the policy after the call. -/
def remove (hashId : α) (p : PrefixAwareLRUPolicy α) : Bool × PrefixAwareLRUPolicy α :=
  (decide (hashId ∈ p.store), { p with store := p.store.erase hashId })

variable {capacity : Nat} {p : PrefixAwareLRUPolicy α}

/-- The policy has the capacity and keeps within it. -/
def Valid (capacity : Nat) (p : PrefixAwareLRUPolicy α) : Prop :=
  p.capacity = capacity ∧ p.store.length ≤ capacity

theorem evict_of_pos (h : 0 < p.store.length) : ∃ e p', p.evict = some (e, p') := by
  have hsome : ((p.store.keys.toList.take candidateWindow).maxOn? p.store.value).isSome := by
    rw [List.isSome_maxOn?_iff, ne_eq, List.take_eq_nil_iff]
    rintro (hwindow | hempty)
    · cases hwindow
    · exact h.ne' (List.length_eq_zero_iff.mpr hempty)
  obtain ⟨victim, hvictim⟩ := Option.isSome_iff_exists.mp hsome
  exact ⟨_, _, congrArg (Option.map _) hvictim⟩

theorem valid_touch (k : α) (h : p.Valid capacity) :
    (p.touch k).Valid capacity ∧ (p.touch k).store.keys.toList.Perm p.store.keys.toList := by
  unfold touch
  split
  next hk =>
    have hperm := KeyQueue.perm_moveToEnd (q := p.store.keys) hk
    exact ⟨⟨h.1, hperm.length_eq.trans_le h.2⟩, hperm⟩
  next hk => exact ⟨h, .rfl⟩

theorem valid_remove (k : α) (h : p.Valid capacity) : (p.remove k).2.Valid capacity :=
  ⟨h.1, Nat.le_trans List.length_erase_le h.2⟩

/-- Within the capacity the loop does nothing. -/
theorem evictDown_of_le (h : p.store.length ≤ p.capacity) : p.evictDown = ([], p) :=
  drain_of_none (if_neg (Nat.not_lt.mpr h))

/-- With one key too many the loop goes round once. -/
theorem evictDown_of_succ (h : p.store.length = p.capacity + 1) : ∃ victim ∈ p.store,
    p.evictDown = ([⟨victim, (p.store.keys.erase victim).toList⟩],
      { p with store := p.store.erase victim }) := by
  obtain ⟨⟨victim, resident⟩, p', hevict⟩ := evict_of_pos (p := p) (by omega)
  obtain ⟨hmem, hp', rfl⟩ := evict_eq_some hevict
  have hround : p.evictRound = some ([⟨victim, p'.store.keys.toList⟩], p') := by
    rw [evictRound, if_pos (by omega), hevict]
    rfl
  have hlength : p'.store.length ≤ p'.capacity := by
    have herase := List.length_erase_add_one hmem
    rw [hp']
    exact Nat.le_of_succ_le_succ (herase.trans h).le
  have hrest : p'.evictDown = ([], p') := evictDown_of_le hlength
  refine ⟨victim, hmem, (drain_of_some hround).trans ?_⟩
  rw [evictDown] at hrest
  rw [hrest, hp']
  rfl

theorem valid_admitKey (k : α) (blockIndex : Int) (h : p.Valid capacity) :
    (p.admitKey k blockIndex).2.Valid capacity ∧
    Admission k p.store.keys.toList (p.admitKey k blockIndex).1
      (p.admitKey k blockIndex).2.store.keys.toList := by
  obtain ⟨rfl, hlength⟩ := h
  have hkeys : ((p.store.setItem k blockIndex).moveToEnd k).keys = p.store.keys.moveToEnd k := by
    show (p.store.keys.push k).moveToEnd k = _
    rw [KeyQueue.moveToEnd, KeyQueue.moveToEnd, KeyQueue.erase_push]
  set q : PrefixAwareLRUPolicy α := { p with
    store := (p.store.setItem k blockIndex).moveToEnd k }
  show (evictDown q).2.Valid p.capacity ∧
    Admission k p.store.keys.toList (evictDown q).1 (evictDown q).2.store.keys.toList
  by_cases hk : k ∈ p.store
  · have hperm := KeyQueue.perm_moveToEnd (q := p.store.keys) hk
    rw [← hkeys] at hperm
    have hroom : q.store.length ≤ q.capacity := hperm.length_eq.trans_le hlength
    rw [evictDown_of_le hroom]
    exact ⟨⟨rfl, hroom⟩, .resident hk hperm⟩
  · have hperm : ((p.store.setItem k blockIndex).moveToEnd k).keys.toList.Perm
        (k :: p.store.keys.toList) := by
      rw [hkeys, KeyQueue.toList_moveToEnd, List.erase_of_not_mem hk]
      exact List.perm_append_singleton _ _
    by_cases hroom : p.store.length < p.capacity
    · have hle : q.store.length ≤ q.capacity := hperm.length_eq.trans_le hroom
      rw [evictDown_of_le hle]
      exact ⟨⟨rfl, hle⟩, .stored hk hperm⟩
    · have hfull : p.store.length = p.capacity := by omega
      obtain ⟨victim, hmem, hrun⟩ :=
        evictDown_of_succ (p := q) (hperm.length_eq.trans (congrArg Nat.succ hfull))
      have hafter := (List.perm_cons_erase hmem).symm.trans hperm
      rw [hrun]
      refine ⟨⟨rfl, ?_⟩, .displaced hk (KeyQueue.nodup _).not_mem_erase hafter⟩
      exact (Nat.succ.inj hafter.length_eq).trans_le hlength

end PrefixAwareLRUPolicy

instance : CachePolicy (PrefixAwareLRUPolicy α) α where
  residents p := p.store.keys.toList
  contains k p := decide (k ∈ p.store)
  bypasses _ _ _ := false
  access := PrefixAwareLRUPolicy.access
  touch := PrefixAwareLRUPolicy.touch
  admitKey k p := p.admitKey k 0
  remove := PrefixAwareLRUPolicy.remove

instance : LawfulPolicy (PrefixAwareLRUPolicy α) where
  Valid := PrefixAwareLRUPolicy.Valid
  nodup {_ p} _ := p.store.keys.nodup
  length_le h := h.2
  contains_iff := decide_eq_true_iff
  touch_spec k h := PrefixAwareLRUPolicy.valid_touch k h
  remove_spec k h := ⟨PrefixAwareLRUPolicy.valid_remove k h, rfl, .rfl⟩
  admitKey_spec k h := PrefixAwareLRUPolicy.valid_admitKey k 0 h
  access_hit {_ p k} blockIndex h hin := by
    have hk : k ∈ p.store := of_decide_eq_true hin
    have hkeys : ((p.store.moveToEnd k).setItem k blockIndex).keys = p.store.keys.moveToEnd k :=
      KeyQueue.push_of_mem (KeyQueue.mem_moveToEnd.mpr (.inr rfl))
    have hperm := KeyQueue.perm_moveToEnd (q := p.store.keys) hk
    rw [← hkeys] at hperm
    exact ⟨_, if_pos hk, ⟨h.1, hperm.length_eq.trans_le h.2⟩, hperm⟩
  access_bypassed _ hskip := absurd hskip Bool.false_ne_true
  access_admits {_ p k blockIndex} h hin _ := by
    have hk : k ∉ p.store := of_decide_eq_false hin
    exact ⟨_, _, if_neg hk, PrefixAwareLRUPolicy.valid_admitKey k blockIndex h⟩

theorem PrefixAwareLRUPolicy.new_fresh {capacity : Nat} (h : 1 ≤ capacity) :
    Returns (new capacity : Except String (PrefixAwareLRUPolicy α)) (Fresh capacity) :=
  ⟨⟨capacity, h, ∅⟩, congrArg (Except.map _) (checkCapacity_of_pos h),
    ⟨rfl, Nat.zero_le _⟩, rfl⟩

end TieredKVCache.Bench
