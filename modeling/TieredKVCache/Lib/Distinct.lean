import Mathlib.Data.List.Nodup
import Mathlib.Data.List.Perm.Subperm

/-!
# First occurrences

A list that grows at its end by elements it does not have yet. To add a whole list keeps the first
occurrences of what is new (`foldl_addNew`), so that a loop that adds its elements one by one
computes `List.eraseDups`.
-/

namespace TieredKVCache.Lib

variable {α β : Type} [DecidableEq α]

/-- An element joins at the end unless it is there. -/
def addNew (l : List α) (a : α) : List α := if a ∈ l then l else l ++ [a]

variable {l xs : List α} {a : α}

theorem nodup_addNew (h : l.Nodup) : (addNew l a).Nodup := by
  unfold addNew
  split
  · exact h
  next hout =>
    exact List.nodup_append.mpr ⟨h, List.nodup_singleton a, fun x hx y hy heq =>
      hout (List.mem_singleton.mp hy ▸ heq ▸ hx)⟩

theorem removeAll_concat : xs.removeAll (l ++ [a]) = (xs.removeAll l).filter fun x => !x == a := by
  rw [List.removeAll, List.removeAll, List.filter_filter]
  refine List.filter_congr fun x _ => ?_
  by_cases hx : x = a <;> simp [hx]

/-- The elements that are new follow, each where it occurs first. -/
theorem foldl_addNew (l xs : List α) :
    xs.foldl addNew l = l ++ (xs.removeAll l).eraseDups := by
  induction xs generalizing l with
  | nil => simp [List.removeAll]
  | cons a xs ih =>
    rw [List.foldl_cons, ih, addNew]
    by_cases ha : a ∈ l
    · have hremove : (a :: xs).removeAll l = xs.removeAll l := by simp [List.removeAll, ha]
      rw [if_pos ha, hremove]
    · have hremove : (a :: xs).removeAll l = a :: xs.removeAll l := by simp [List.removeAll, ha]
      rw [if_neg ha, hremove, List.eraseDups_cons, removeAll_concat, List.append_assoc,
        List.singleton_append]

theorem eraseDups_eq_foldl (xs : List α) : xs.eraseDups = xs.foldl addNew [] := by
  rw [foldl_addNew, List.nil_append, List.removeAll_nil]

theorem nodup_eraseDups (xs : List α) : xs.eraseDups.Nodup := by
  rw [eraseDups_eq_foldl]
  exact List.foldlRecOn xs addNew List.nodup_nil fun _ h _ _ => nodup_addNew h

theorem length_eraseDups_le (xs : List α) : xs.eraseDups.length ≤ xs.length :=
  (List.subperm_of_subset (nodup_eraseDups xs) fun _ h => List.mem_eraseDups.mp h).length_le

omit [DecidableEq α] in
/-- Lists of bounded length, one after the other. -/
theorem length_flatMap_le {f : β → List α} {bound : Nat} (h : ∀ b, (f b).length ≤ bound)
    (bs : List β) : (bs.flatMap f).length ≤ bs.length * bound := by
  induction bs with
  | nil => exact Nat.zero_le _
  | cons b bs ih =>
    rw [List.flatMap_cons, List.length_append, List.length_cons, Nat.succ_mul, Nat.add_comm]
    exact Nat.add_le_add ih (h b)

end TieredKVCache.Lib
