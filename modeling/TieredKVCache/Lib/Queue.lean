import Mathlib.Data.List.TakeWhile
import Mathlib.Data.List.Count

/-!
# Positions in a queue

`before q k` is the part of a queue in front of the first occurrence of `k`, and the whole
queue where `k` does not occur. A queue grows at its tail and shrinks at its head: the tail
does not show in front of an element that is present, and the head leaves the front.
-/

namespace TieredKVCache.Lib

variable {α : Type} [DecidableEq α]

/-- The elements in front of the first occurrence of `k`. -/
def before (q : List α) (k : α) : List α := q.takeWhile (· ≠ k)

@[simp]
theorem before_cons_self (q : List α) (k : α) : before (k :: q) k = [] := by
  simp [before]

theorem before_cons_of_ne {a k : α} (h : a ≠ k) (q : List α) :
    before (a :: q) k = a :: before q k := by
  simp [before, h]

/-- What joins the tail does not get in front of an element of the queue. -/
theorem before_append_of_mem {q : List α} {k : α} (h : k ∈ q) (q' : List α) :
    before (q ++ q') k = before q k := by
  induction q with
  | nil => cases h
  | cons a q ih =>
    by_cases ha : a = k
    · subst ha
      rw [List.cons_append, before_cons_self, before_cons_self]
    · rw [List.cons_append, before_cons_of_ne ha, before_cons_of_ne ha,
        ih ((List.mem_cons.mp h).resolve_left (Ne.symm ha))]

/-- An element that joins the tail has the same elements in front of it as before. -/
theorem before_append_self (q : List α) (k : α) : before (q ++ [k]) k = before q k := by
  induction q with
  | nil => simp [before]
  | cons a q ih =>
    by_cases ha : a = k
    · subst ha
      rw [List.cons_append, before_cons_self, before_cons_self]
    · rw [List.cons_append, before_cons_of_ne ha, before_cons_of_ne ha, ih]

/-- Popping another element takes that element alone out of the front. -/
theorem mem_before_cons {a k z : α} (q : List α) (ha : a ≠ k) (hz : z ≠ a) :
    z ∈ before (a :: q) k ↔ z ∈ before q k := by
  rw [before_cons_of_ne ha, List.mem_cons, or_iff_right hz]

theorem head_mem_before {a k : α} (q : List α) (ha : a ≠ k) : a ∈ before (a :: q) k := by
  rw [before_cons_of_ne ha]
  exact List.mem_cons_self

end TieredKVCache.Lib
