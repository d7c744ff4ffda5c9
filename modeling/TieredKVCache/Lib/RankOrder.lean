import Mathlib.Data.List.Sort
import Mathlib.Order.Bounds.Basic

/-!
# The elements of a list by rank

In a sorted list, the element at a position is at most `v` exactly if more elements than the
position says are at most `v` (`getElem_le_iff`). What stands at a position of the sorted list is
therefore the least element with so many elements up to it (`isLeast_of_getElem?`), which does not
mention the order of the list.
-/

namespace TieredKVCache.Lib

variable {α : Type} [LinearOrder α]

theorem getElem_le_iff {sorted : List α} (h : sorted.Pairwise (· ≤ ·)) {i : Nat}
    (hi : i < sorted.length) {v : α} : sorted[i] ≤ v ↔ i < sorted.countP (· ≤ v) := by
  induction sorted generalizing i with
  | nil => exact absurd hi (Nat.not_lt_zero i)
  | cons a sorted ih =>
    obtain ⟨hfirst, hrest⟩ := List.pairwise_cons.mp h
    by_cases ha : a ≤ v
    · rw [List.countP_cons_of_pos (p := fun x => decide (x ≤ v)) (decide_eq_true ha)]
      cases i with
      | zero => exact iff_of_true ha (Nat.succ_pos _)
      | succ i =>
        rw [List.getElem_cons_succ, ih hrest (Nat.lt_of_succ_lt_succ hi)]
        omega
    · -- all that follows is above `v` as well
      have hall : ∀ b ∈ a :: sorted, ¬ b ≤ v := by
        intro b hb hle
        rcases List.mem_cons.mp hb with rfl | hb
        · exact ha hle
        · exact ha ((hfirst b hb).trans hle)
      have hcount : (a :: sorted).countP (· ≤ v) = 0 :=
        List.countP_eq_zero.mpr fun b hb => by simpa using hall b hb
      rw [hcount]
      exact iff_of_false (hall _ (List.getElem_mem hi)) (Nat.not_lt_zero i)

/-- The element at a position of the sorted list, without the sorted list. -/
theorem isLeast_of_getElem? {l : List α} {i : Nat} {a : α}
    (h : (l.insertionSort (· ≤ ·))[i]? = some a) :
    IsLeast {v | v ∈ l ∧ i < l.countP (· ≤ v)} a := by
  obtain ⟨hi, rfl⟩ := List.getElem?_eq_some_iff.mp h
  have hsorted := List.pairwise_insertionSort (· ≤ ·) l
  have hperm := List.perm_insertionSort (· ≤ ·) l
  have hle (v : α) : (l.insertionSort (· ≤ ·))[i] ≤ v ↔ i < l.countP (· ≤ v) := by
    rw [getElem_le_iff hsorted hi, hperm.countP_eq]
  exact ⟨⟨hperm.mem_iff.mp (List.getElem_mem hi), (hle _).mp (le_refl _)⟩,
    fun v hv => (hle v).mpr hv.2⟩

end TieredKVCache.Lib
