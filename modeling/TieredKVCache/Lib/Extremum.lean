import Mathlib.Data.List.MinMax
import Mathlib.Data.List.Sort

/-!
# The extremal entry of a list

`List.argmin` returns the first of the entries where a function is least. Where the function tells
the entries apart there is one such entry, and the order of the list does not matter
(`argmin_perm`). In a list that ascends by a second function, the first of the entries where the
first function is largest is the one with the smallest second value (`argmax_first`).
-/

namespace TieredKVCache.Lib

variable {α β γ : Type*} [LinearOrder β] {f : α → β} {l l' : List α} {a b : α}

/-- No entry of the list has a smaller value. -/
def LeastIn (f : α → β) (l : List α) (a : α) : Prop :=
  a ∈ l ∧ ∀ b ∈ l, f a ≤ f b

theorem leastIn_of_argmin (h : l.argmin f = some a) : LeastIn f l a :=
  ⟨List.argmin_mem h, fun _ hb => List.le_of_mem_argmin hb h⟩

theorem LeastIn.unique (hinj : Set.InjOn f {a | a ∈ l}) (ha : LeastIn f l a)
    (hb : LeastIn f l b) : a = b :=
  hinj ha.1 hb.1 (le_antisymm (ha.2 b hb.1) (hb.2 a ha.1))

theorem LeastIn.of_perm (hperm : l.Perm l') (h : LeastIn f l a) : LeastIn f l' a :=
  ⟨hperm.mem_iff.mp h.1, fun b hb => h.2 b (hperm.mem_iff.mpr hb)⟩

/-- The order of a list does not matter where the function tells its entries apart. -/
theorem argmin_perm (hinj : Set.InjOn f {a | a ∈ l}) (hperm : l.Perm l') :
    l'.argmin f = l.argmin f := by
  cases hleast : l.argmin f with
  | none =>
    rw [List.argmin_eq_none] at hleast ⊢
    rw [hleast] at hperm
    exact hperm.nil_eq.symm
  | some a =>
    cases hleast' : l'.argmin f with
    | none =>
      rw [List.argmin_eq_none] at hleast'
      have ha : a ∈ l' := hperm.mem_iff.mp (List.argmin_mem hleast)
      rw [hleast'] at ha
      cases ha
    | some b =>
      have hb : LeastIn f l b := (leastIn_of_argmin hleast').of_perm hperm.symm
      exact congrArg some (hb.unique hinj (leastIn_of_argmin hleast))

/-- In an ascending list, the first of the largest entries is the smallest of them. -/
theorem argmax_first [LinearOrder γ] {g : α → γ} (hsorted : l.Pairwise fun a b => g a < g b)
    (hmax : l.argmax f = some a) (hb : b ∈ l) (hle : f a ≤ f b) : g a ≤ g b := by
  classical
  have hindex : l.idxOf a ≤ l.idxOf b := List.index_of_argmax hmax hb hle
  have ha : l.idxOf a < l.length := List.idxOf_lt_length_iff.mpr (List.argmax_mem hmax)
  have hblt : l.idxOf b < l.length := List.idxOf_lt_length_iff.mpr hb
  have heqa : l[l.idxOf a] = a := List.getElem_idxOf ha
  have heqb : l[l.idxOf b] = b := List.getElem_idxOf hblt
  rcases Nat.eq_or_lt_of_le hindex with heq | hlt
  · have hab : a = b := (List.idxOf_inj (List.argmax_mem hmax)).mp heq
    rw [hab]
  · have hg := List.pairwise_iff_getElem.mp hsorted _ _ ha hblt hlt
    rw [heqa, heqb] at hg
    exact hg.le

end TieredKVCache.Lib
