import Mathlib.Data.List.Basic

/-!
# The last change

A log of changes says of its elements that they were set or cleared. An element counts as set when
the last change that concerns it has set it: `lastSet_snoc` is how a change decides about its own
element and leaves the others as they were. A single value is that of the last entry that sets it
(`lastValue_snoc`).
-/

namespace TieredKVCache.Lib

/-- The last entry with a given key. -/
theorem getLast?_filter_snoc {ι α : Type} [DecidableEq α] (key : ι → α) (l : List ι) (i : ι)
    (a : α) : ((l ++ [i]).filter fun j => decide (key j = a)).getLast? =
      if key i = a then some i else (l.filter fun j => decide (key j = a)).getLast? := by
  rw [List.filter_append]
  by_cases h : key i = a
  · have hlast : ([i].filter fun j => decide (key j = a)) = [i] := by simp [h]
    rw [if_pos h, hlast, List.getLast?_concat]
  · have hlast : ([i].filter fun j => decide (key j = a)) = [] := by simp [h]
    rw [if_neg h, hlast, List.append_nil]

/-- The value that the last entry which sets one has set. -/
def lastValue {ι β : Type} (set : ι → Option β) (initial : β) (l : List ι) : β :=
  (l.filterMap set).getLast?.getD initial

theorem lastValue_snoc {ι β : Type} (set : ι → Option β) (initial : β) (l : List ι) (i : ι) :
    lastValue set initial (l ++ [i]) = (set i).getD (lastValue set initial l) := by
  rw [lastValue, List.filterMap_append]
  cases h : set i with
  | none =>
    rw [List.filterMap_cons_none h, List.filterMap_nil, List.append_nil]
    rfl
  | some b =>
    rw [List.filterMap_cons_some h, List.filterMap_nil, List.getLast?_concat]
    rfl

variable {α : Type} [DecidableEq α] {changes : List (α × Bool)} {a a' : α} {sets : Bool}

/-- The last change of the element sets it. -/
def LastSet (changes : List (α × Bool)) (a : α) : Prop :=
  (changes.filter fun change => decide (change.1 = a)).getLast? = some (a, true)

theorem not_lastSet_nil : ¬ LastSet [] a := by
  intro h
  cases h

theorem lastSet_snoc :
    LastSet (changes ++ [(a', sets)]) a ↔ if a = a' then sets = true else LastSet changes a := by
  unfold LastSet
  rw [getLast?_filter_snoc]
  by_cases h : a = a'
  · subst h
    rw [if_pos rfl, if_pos rfl, Option.some.injEq, Prod.mk.injEq]
    exact and_iff_right rfl
  · rw [if_neg h, if_neg (Ne.symm h)]

/-- A change that sets an element decides, if no later one concerns it. -/
theorem lastSet_of_split {before after : List (α × Bool)} (hafter : ∀ sets, (a, sets) ∉ after) :
    LastSet (before ++ (a, true) :: after) a := by
  have hnone : (after.filter fun change => decide (change.1 = a)) = [] := by
    refine List.filter_eq_nil_iff.mpr ?_
    rintro ⟨a', sets⟩ hmem hsame
    cases of_decide_eq_true hsame
    exact hafter sets hmem
  unfold LastSet
  rw [List.filter_append, List.filter_cons, hnone, if_pos (decide_eq_true rfl)]
  exact List.getLast?_concat

end TieredKVCache.Lib
