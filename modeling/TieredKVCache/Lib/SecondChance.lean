import Mathlib.Algebra.BigOperators.Group.List.Basic
import Mathlib.Data.List.Basic

/-!
# Second chances

A queue of keys with counts. A key at the head whose count is positive goes to the end, with the
count lowered by one; a key without a count leaves. However many laps this takes, the key that
leaves is the first one of those with the least count, and what is left has gone round so often:
the keys that were before it once more than the keys that were after it (`SecondChance.split`).
-/

namespace TieredKVCache.Lib

variable {α : Type}

/-- The key that leaves a queue, and the queue without it. -/
inductive SecondChance : List (α × Nat) → α → List (α × Nat) → Prop
  | leave (victim : α) (rest : List (α × Nat)) : SecondChance ((victim, 0) :: rest) victim rest
  | turn {key victim : α} {count : Nat} {queue rest : List (α × Nat)}
      (h : SecondChance (queue ++ [(key, count)]) victim rest) :
      SecondChance ((key, count + 1) :: queue) victim rest

/-- The entry after `laps` turns. -/
def lowered (laps : Nat) (entry : α × Nat) : α × Nat := (entry.1, entry.2 - laps)

/-- The key is the first one with the least count `least`. -/
structure FirstLeast (queue before after : List (α × Nat)) (victim : α) (least : Nat) : Prop where
  queue_eq : queue = before ++ (victim, least) :: after
  before_lt : ∀ entry ∈ before, least < entry.2
  after_le : ∀ entry ∈ after, least ≤ entry.2

variable {queue before after rest : List (α × Nat)} {key victim : α} {count least : Nat}

theorem map_lowered_zero (entries : List (α × Nat)) : entries.map (lowered 0) = entries :=
  List.map_id entries

/-- What is first after a turn was first before it. -/
theorem FirstLeast.of_turn (h : FirstLeast (queue ++ [(key, count)]) before after victim least) :
    ∃ before' after' least', FirstLeast ((key, count + 1) :: queue) before' after' victim least' ∧
      after'.map (lowered least') ++ before'.map (lowered (least' + 1)) =
        after.map (lowered least) ++ before.map (lowered (least + 1)) := by
  obtain ⟨hqueue, hbefore, hafter⟩ := h
  rcases List.eq_nil_or_concat after with rfl | ⟨init, last, rfl⟩
  · -- the key that has turned leaves, after a lap
    obtain ⟨rfl, hlast⟩ := List.append_inj' hqueue rfl
    obtain ⟨rfl, rfl⟩ : key = victim ∧ count = least := by simpa using hlast
    refine ⟨[], queue, count + 1, ⟨rfl, by simp, hbefore⟩, ?_⟩
    simp
  · have hsplit : queue ++ [(key, count)] = (before ++ (victim, least) :: init) ++ [last] := by
      simpa using hqueue
    obtain ⟨rfl, hlast⟩ := List.append_inj' hsplit rfl
    obtain rfl : (key, count) = last := by simpa using hlast
    have hle : least ≤ count := hafter (key, count) (by simp)
    refine ⟨(key, count + 1) :: before, init, least, ⟨rfl, ?_, ?_⟩, ?_⟩
    · rintro entry (_ | ⟨_, hentry⟩)
      · exact Nat.lt_succ_of_le hle
      · exact hbefore entry hentry
    · exact fun entry hentry => hafter entry (by simp [hentry])
    · have hkey : lowered (least + 1) (key, count + 1) = lowered least (key, count) :=
        congrArg (Prod.mk key) (Nat.add_sub_add_right count 1 least)
      rw [List.map_cons, hkey]
      simp

/-- The key that leaves is the first one with the least count. -/
theorem SecondChance.split (h : SecondChance queue victim rest) :
    ∃ before after least, FirstLeast queue before after victim least ∧
      rest = after.map (lowered least) ++ before.map (lowered (least + 1)) := by
  induction h with
  | leave victim rest =>
    refine ⟨[], rest, 0, ⟨rfl, by simp, fun _ _ => Nat.zero_le _⟩, ?_⟩
    rw [map_lowered_zero, List.map_nil, List.append_nil]
  | turn _ ih =>
    obtain ⟨before, after, least, hfirst, hrest⟩ := ih
    obtain ⟨before', after', least', hfirst', hsame⟩ := hfirst.of_turn
    exact ⟨before', after', least', hfirst', hrest.trans hsame.symm⟩

theorem map_fst_lowered (laps : Nat) (entries : List (α × Nat)) :
    (entries.map (lowered laps)).map Prod.fst = entries.map Prod.fst := by
  rw [List.map_map]
  rfl

/-- A key that comes in last and without a count stays if and only if there is another one. -/
theorem SecondChance.newcomer (h : SecondChance (queue ++ [(key, 0)]) victim rest)
    (hkey : key ∉ queue.map Prod.fst) :
    key ∈ rest.map Prod.fst ↔ ∃ entry ∈ queue, entry.2 = 0 := by
  obtain ⟨before, after, least, ⟨hqueue, hbefore, hafter⟩, rfl⟩ := h.split
  rw [List.map_append, map_fst_lowered, map_fst_lowered]
  rcases List.eq_nil_or_concat after with rfl | ⟨init, last, rfl⟩
  · obtain ⟨rfl, hlast⟩ := List.append_inj' hqueue rfl
    obtain ⟨-, rfl⟩ : key = victim ∧ 0 = least := by simpa using hlast
    refine iff_of_false (by simpa using hkey) ?_
    rintro ⟨entry, hentry, hzero⟩
    exact absurd (hbefore entry hentry) (hzero ▸ Nat.lt_irrefl 0)
  · have hsplit : queue ++ [(key, 0)] = (before ++ (victim, least) :: init) ++ [last] := by
      simpa using hqueue
    obtain ⟨rfl, hlast⟩ := List.append_inj' hsplit rfl
    obtain rfl : (key, 0) = last := by simpa using hlast
    obtain rfl : least = 0 := Nat.le_zero.mp (hafter (key, 0) (by simp))
    exact iff_of_true (by simp) ⟨(victim, 0), by simp, rfl⟩

/-- A key leaves every queue that is not empty, since a turn lowers the sum of the counts. -/
theorem exists_secondChance (hqueue : queue ≠ []) :
    ∃ victim rest, SecondChance queue victim rest := by
  generalize hsum : (queue.map Prod.snd).sum = total
  induction total generalizing queue with
  | zero =>
    cases queue with
    | nil => exact absurd rfl hqueue
    | cons entry queue =>
      obtain ⟨key, count⟩ := entry
      obtain rfl : count = 0 := by
        rw [List.map_cons, List.sum_cons] at hsum
        omega
      exact ⟨key, queue, .leave key queue⟩
  | succ total ih =>
    cases queue with
    | nil => exact absurd rfl hqueue
    | cons entry queue =>
      obtain ⟨key, count⟩ := entry
      cases count with
      | zero => exact ⟨key, queue, .leave key queue⟩
      | succ count =>
        have hlower : ((queue ++ [(key, count)]).map Prod.snd).sum = total := by
          rw [List.map_cons, List.sum_cons] at hsum
          rw [List.map_append, List.sum_append, List.map_singleton, List.sum_singleton]
          omega
        obtain ⟨victim, rest, h⟩ := ih (by simp) hlower
        exact ⟨victim, rest, .turn h⟩

end TieredKVCache.Lib
