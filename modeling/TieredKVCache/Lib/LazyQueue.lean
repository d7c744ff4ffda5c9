import Mathlib.Data.List.Nodup
import TieredKVCache.Lib.AssocSum

/-!
# Queues with lazy deletion

A queue of keys goes with a map that says of each key whether it still belongs to the
queue: it does if it is bound to a value that satisfies `p`. A key that leaves is taken out
of the map alone, and its entries are skipped when they come to the front. `liveEntries` is
the queue without the entries to be skipped, which is the queue of the eager variant as long
as no key joins a queue that still has an old entry of it.
-/

namespace TieredKVCache.Lib

section

variable {α β : Type} [DecidableEq α] (p : β → Prop)

/-- The key is bound to a value that satisfies `p`. -/
def IsLive (m : AList fun _ : α => β) (k : α) : Prop := ∃ b, m.lookup k = some b ∧ p b

instance [DecidablePred p] (m : AList fun _ : α => β) (k : α) : Decidable (IsLive p m k) :=
  decidable_of_iff ((m.lookup k).any p = true) (by simp [IsLive, Option.any_eq_true])

/-- The entries that are not to be skipped. -/
def liveEntries [DecidablePred p] (m : AList fun _ : α => β) (q : List α) : List α :=
  q.filter (IsLive p m ·)

end

section

variable {α β : Type} [DecidableEq α] {p : β → Prop} {m m' : AList fun _ : α => β} {a k : α}
  {b : β} {q : List α}

theorem isLive_of_lookup (h : m.lookup k = some b) : IsLive p m k ↔ p b := by
  simp [IsLive, h]

theorem isLive_insert_of_ne (hk : k ≠ a) : IsLive p (m.insert a b) k ↔ IsLive p m k := by
  rw [IsLive, AList.lookup_insert_ne hk]
  rfl

theorem isLive_insert_self : IsLive p (m.insert a b) a ↔ p b :=
  isLive_of_lookup (AList.lookup_insert m)

theorem isLive_erase : IsLive p (m.erase a) k ↔ k ≠ a ∧ IsLive p m k := by
  simp only [IsLive, lookup_erase_eq_some, and_assoc, exists_and_left]

variable [DecidablePred p]

theorem mem_liveEntries : k ∈ liveEntries p m q ↔ k ∈ q ∧ IsLive p m k := by
  simp [liveEntries]

theorem liveEntries_nodup (hq : q.Nodup) : (liveEntries p m q).Nodup := hq.filter _

theorem liveEntries_cons_of_live (h : IsLive p m a) (q : List α) :
    liveEntries p m (a :: q) = a :: liveEntries p m q :=
  List.filter_cons_of_pos (by simpa using h)

theorem liveEntries_cons_of_stale (h : ¬ IsLive p m a) (q : List α) :
    liveEntries p m (a :: q) = liveEntries p m q :=
  List.filter_cons_of_neg (by simpa using h)

theorem liveEntries_congr (h : ∀ k ∈ q, IsLive p m' k ↔ IsLive p m k) :
    liveEntries p m' q = liveEntries p m q :=
  List.filter_congr fun k hk => decide_eq_decide.mpr (h k hk)

/-- A change of the binding of `a` does not show in a queue without `a`. -/
theorem liveEntries_insert_of_not_mem (b : β) (ha : a ∉ q) :
    liveEntries p (m.insert a b) q = liveEntries p m q :=
  liveEntries_congr fun _ hk => isLive_insert_of_ne fun heq => ha (heq ▸ hk)

/-- Neither does one that leaves `a` as live as it was. -/
theorem liveEntries_insert_of_iff (h : p b ↔ IsLive p m a) :
    liveEntries p (m.insert a b) q = liveEntries p m q := by
  refine liveEntries_congr fun k _ => ?_
  by_cases hk : k = a
  · subst hk
    rw [isLive_insert_self, h]
  · exact isLive_insert_of_ne hk

/-- Taking a key out of the map takes its entries out of the queue. -/
theorem liveEntries_erase :
    liveEntries p (m.erase a) q = (liveEntries p m q).filter (· ≠ a) := by
  unfold liveEntries
  rw [List.filter_filter]
  refine List.filter_congr fun k _ => ?_
  rw [decide_eq_decide.mpr isLive_erase, Bool.decide_and]

theorem liveEntries_erase_of_stale (h : ¬ IsLive p m a) :
    liveEntries p (m.erase a) q = liveEntries p m q := by
  refine liveEntries_congr fun k _ => ?_
  rw [isLive_erase, and_iff_right_iff_imp]
  intro hk heq
  exact h (heq ▸ hk)

/-- A key joins a queue that has no entry of it. -/
theorem liveEntries_push (hb : p b) (ha : a ∉ q) :
    liveEntries p (m.insert a b) (q ++ [a]) = liveEntries p m q ++ [a] := by
  have hold : liveEntries p (m.insert a b) q = liveEntries p m q :=
    liveEntries_insert_of_not_mem b ha
  have hnew : liveEntries p (m.insert a b) [a] = [a] :=
    liveEntries_cons_of_live (isLive_insert_self.mpr hb) []
  unfold liveEntries at hold hnew ⊢
  rw [List.filter_append, hold, hnew]

end

end TieredKVCache.Lib
