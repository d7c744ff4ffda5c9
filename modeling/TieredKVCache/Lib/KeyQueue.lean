import Mathlib.Data.List.Nodup
import Mathlib.Data.List.Perm.Basic

/-!
# Ordered dictionaries without values

A `KeyQueue` holds every key at most once, in the order of insertion: an `OrderedDict` whose
values are of no interest. That a key occurs once is a field, so that every operation has to
keep it.
-/

namespace TieredKVCache.Lib

/-- Keys in the order of their insertion. -/
structure KeyQueue (α : Type) where
  toList : List α
  nodup : toList.Nodup

namespace KeyQueue

variable {α : Type}

@[ext]
theorem ext {q r : KeyQueue α} (h : q.toList = r.toList) : q = r := by
  cases q
  cases r
  cases h
  rfl

instance : EmptyCollection (KeyQueue α) := ⟨⟨[], List.nodup_nil⟩⟩

instance : Membership α (KeyQueue α) := ⟨fun q k => k ∈ q.toList⟩

def length (q : KeyQueue α) : Nat := q.toList.length

/-- `popitem(last=False)`; the dictionary must not be empty. -/
def popFront (q : KeyQueue α) : Option (α × KeyQueue α) :=
  match q with
  | ⟨[], _⟩ => none
  | ⟨k :: rest, h⟩ => some (k, ⟨rest, (List.nodup_cons.mp h).2⟩)

@[simp]
theorem toList_empty : (∅ : KeyQueue α).toList = [] := rfl

@[simp]
theorem mem_toList {q : KeyQueue α} {k : α} : k ∈ q.toList ↔ k ∈ q := Iff.rfl

theorem notMem_empty (k : α) : k ∉ (∅ : KeyQueue α) := List.not_mem_nil

theorem popFront_eq_none {q : KeyQueue α} : q.popFront = none ↔ q.toList = [] := by
  obtain ⟨_ | ⟨k, rest⟩, h⟩ := q <;> simp [popFront]

theorem popFront_eq_some {q r : KeyQueue α} {k : α} :
    q.popFront = some (k, r) ↔ q.toList = k :: r.toList := by
  obtain ⟨_ | ⟨a, rest⟩, h⟩ := q
  · simp [popFront]
  · simp [popFront, KeyQueue.ext_iff]

theorem length_of_popFront {q r : KeyQueue α} {k : α} (h : q.popFront = some (k, r)) :
    q.length = r.length + 1 := by
  rw [length, popFront_eq_some.mp h]
  rfl

private def popList (capacity : Nat) : (keys : List α) → keys.Nodup → List α × KeyQueue α
  | [], h => ([], ⟨[], h⟩)
  | k :: rest, h =>
    if (k :: rest).length > capacity then
      let (popped, kept) := popList capacity rest (List.nodup_cons.mp h).2
      (k :: popped, kept)
    else ([], ⟨k :: rest, h⟩)

/-- `while len(d) > capacity: d.popitem(last=False)`: the keys popped, and what is left. -/
def popDownTo (capacity : Nat) (q : KeyQueue α) : List α × KeyQueue α :=
  popList capacity q.toList q.nodup

theorem popDownTo_eq (capacity : Nat) (q : KeyQueue α) :
    (q.popDownTo capacity).1 = q.toList.take (q.length - capacity) ∧
      (q.popDownTo capacity).2.toList = q.toList.drop (q.length - capacity) := by
  obtain ⟨keys, h⟩ := q
  show (popList capacity keys h).1 = keys.take (keys.length - capacity) ∧
    (popList capacity keys h).2.toList = keys.drop (keys.length - capacity)
  induction keys with
  | nil => simp [popList]
  | cons k rest ih =>
    obtain ⟨hpopped, hkept⟩ := ih (List.nodup_cons.mp h).2
    rw [popList]
    split
    next hlen =>
      have hsub : (k :: rest).length - capacity = rest.length - capacity + 1 := by
        simp only [List.length_cons] at hlen ⊢
        omega
      rw [hsub, List.take_succ_cons, List.drop_succ_cons]
      exact ⟨congrArg (k :: ·) hpopped, hkept⟩
    next hlen =>
      rw [Nat.sub_eq_zero_of_le (Nat.not_lt.mp hlen)]
      exact ⟨rfl, rfl⟩

theorem length_popDownTo_le (capacity : Nat) (q : KeyQueue α) :
    (q.popDownTo capacity).2.length ≤ capacity := by
  rw [length, (popDownTo_eq capacity q).2, List.length_drop, length]
  omega

theorem mem_of_mem_popDownTo {capacity : Nat} {q : KeyQueue α} {k : α}
    (h : k ∈ (q.popDownTo capacity).2) : k ∈ q := by
  rw [← mem_toList, (popDownTo_eq capacity q).2] at h
  exact List.mem_of_mem_drop h

section

variable [DecidableEq α]

instance (k : α) (q : KeyQueue α) : Decidable (k ∈ q) := inferInstanceAs (Decidable (k ∈ q.toList))

instance : DecidableEq (KeyQueue α) := fun _ _ => decidable_of_iff _ KeyQueue.ext_iff.symm

/-- `d[k] = None`: a key that is present keeps its place. -/
def push (q : KeyQueue α) (k : α) : KeyQueue α :=
  if h : k ∈ q then q
  else ⟨q.toList ++ [k], List.nodup_append.mpr ⟨q.nodup, List.nodup_singleton k, by
    rintro a ha b hb rfl
    exact h (List.mem_singleton.mp hb ▸ ha)⟩⟩

/-- `del d[k]`, or `d.pop(k, None)`. -/
def erase (q : KeyQueue α) (k : α) : KeyQueue α := ⟨q.toList.erase k, q.nodup.erase k⟩

/-- `d.move_to_end(k)`, of a key that is present. -/
def moveToEnd (q : KeyQueue α) (k : α) : KeyQueue α := (q.erase k).push k

/-- `OrderedDict([(k, None) for k in keys])`. -/
def ofList (keys : List α) : KeyQueue α := keys.foldl push ∅

variable {q : KeyQueue α} {k x : α}

theorem push_of_mem (h : k ∈ q) : q.push k = q := dif_pos h

theorem toList_push (h : k ∉ q) : (q.push k).toList = q.toList ++ [k] := by
  rw [push, dif_neg h]

@[simp]
theorem mem_push : x ∈ q.push k ↔ x ∈ q ∨ x = k := by
  by_cases h : k ∈ q
  · rw [push_of_mem h]
    exact ⟨.inl, fun hx => hx.elim id fun heq => heq ▸ h⟩
  · rw [← mem_toList, toList_push h, List.mem_append, List.mem_singleton, mem_toList]

@[simp]
theorem mem_erase : x ∈ q.erase k ↔ x ≠ k ∧ x ∈ q := q.nodup.mem_erase_iff

theorem erase_of_notMem (h : k ∉ q) : q.erase k = q := KeyQueue.ext (List.erase_of_not_mem h)

theorem erase_push : (q.push k).erase k = q.erase k := by
  by_cases h : k ∈ q
  · rw [push_of_mem h]
  · refine KeyQueue.ext ?_
    show (q.push k).toList.erase k = q.toList.erase k
    rw [toList_push h, List.erase_append_right _ h, List.erase_of_not_mem h, List.erase_cons_head,
      List.append_nil]

theorem toList_moveToEnd : (q.moveToEnd k).toList = q.toList.erase k ++ [k] :=
  toList_push (by simp)

theorem perm_moveToEnd (h : k ∈ q) : (q.moveToEnd k).toList.Perm q.toList := by
  rw [toList_moveToEnd]
  exact (List.perm_append_singleton _ _).trans (List.perm_cons_erase h).symm

@[simp]
theorem mem_moveToEnd : x ∈ q.moveToEnd k ↔ x ∈ q ∨ x = k := by
  by_cases h : x = k <;> simp [moveToEnd, h]

theorem length_push_le : (q.push k).length ≤ q.length + 1 := by
  by_cases h : k ∈ q
  · rw [push_of_mem h]
    exact Nat.le_succ _
  · rw [length, toList_push h, List.length_append]
    exact Nat.le_refl _

private theorem toList_foldl_push (keys : List α) (q : KeyQueue α)
    (h : (q.toList ++ keys).Nodup) : (keys.foldl push q).toList = q.toList ++ keys := by
  induction keys generalizing q with
  | nil => simp
  | cons k keys ih =>
    have hk : k ∉ q := fun hmem =>
      (List.nodup_append.mp h).2.2 k hmem k List.mem_cons_self rfl
    have hpush : (q.push k).toList ++ keys = q.toList ++ k :: keys := by
      rw [toList_push hk, List.append_assoc, List.singleton_append]
    rw [List.foldl_cons, ih (q.push k) (hpush ▸ h), hpush]

theorem toList_ofList {keys : List α} (h : keys.Nodup) : (ofList keys).toList = keys :=
  toList_foldl_push keys ∅ h

end

end KeyQueue

end TieredKVCache.Lib
