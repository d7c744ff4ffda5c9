import Mathlib.Data.List.Sort

/-!
# Ordered sets

A `SortedSet` lists its elements in ascending order, each once: a `std::set`. The order is a field,
so that it need not be proved of what iterates over the set.
-/

namespace TieredKVCache.Lib

/-- The elements in ascending order. -/
structure SortedSet (α : Type) [LinearOrder α] where
  toList : List α
  sorted : toList.Pairwise (· < ·)

namespace SortedSet

variable {α : Type} [LinearOrder α]

@[ext]
theorem ext {s t : SortedSet α} (h : s.toList = t.toList) : s = t := by
  cases s
  cases t
  cases h
  rfl

instance : EmptyCollection (SortedSet α) := ⟨⟨[], .nil⟩⟩

instance : Membership α (SortedSet α) := ⟨fun s a => a ∈ s.toList⟩

instance (a : α) (s : SortedSet α) : Decidable (a ∈ s) :=
  inferInstanceAs (Decidable (a ∈ s.toList))

theorem nodup (s : SortedSet α) : s.toList.Nodup := s.sorted.imp ne_of_lt

private theorem sorted_orderedInsert {a : α} {l : List α} (h : l.Pairwise (· < ·)) (ha : a ∉ l) :
    (l.orderedInsert (· ≤ ·) a).Pairwise (· < ·) := by
  have hle := (h.imp le_of_lt).orderedInsert (r := (· ≤ ·)) a
  have hnodup : (l.orderedInsert (· ≤ ·) a).Nodup :=
    (List.perm_orderedInsert _ a l).nodup_iff.mpr (List.nodup_cons.mpr ⟨ha, h.imp ne_of_lt⟩)
  exact hle.imp₂ (fun _ _ hle hne => lt_of_le_of_ne hle hne) hnodup

/-- `insert`. -/
def insert (s : SortedSet α) (a : α) : SortedSet α :=
  if h : a ∈ s then s else ⟨s.toList.orderedInsert (· ≤ ·) a, sorted_orderedInsert s.sorted h⟩

/-- `erase`. -/
def erase (s : SortedSet α) (a : α) : SortedSet α :=
  ⟨s.toList.erase a, s.sorted.sublist List.erase_sublist⟩

@[simp]
theorem mem_toList {s : SortedSet α} {a : α} : a ∈ s.toList ↔ a ∈ s := Iff.rfl

@[simp]
theorem notMem_empty (a : α) : a ∉ (∅ : SortedSet α) := List.not_mem_nil

@[simp]
theorem mem_insert {s : SortedSet α} {a b : α} : b ∈ s.insert a ↔ b = a ∨ b ∈ s := by
  unfold insert
  split
  next h =>
    refine ⟨.inr, fun hb => hb.elim (fun heq => heq ▸ h) id⟩
  next => exact List.mem_orderedInsert (· ≤ ·)

@[simp]
theorem mem_erase {s : SortedSet α} {a b : α} : b ∈ s.erase a ↔ b ≠ a ∧ b ∈ s :=
  s.nodup.mem_erase_iff

end SortedSet

end TieredKVCache.Lib
