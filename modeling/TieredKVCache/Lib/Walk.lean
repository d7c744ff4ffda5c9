import Mathlib.Data.List.Nodup

/-!
# Walks along partial functions

A partial function leads from each element to at most one next one. `chain` lists where a walk
comes, until there is no next element, the walk comes to a given element, or its length is used up.
Such a list may repeat itself: it has no duplicates if and only if the walk does not come to an
element again before it comes to the given one (`nodup_chain_iff`). Where the given element is the
start of the walk, this takes a cycle that the start leads into and is not on
(`rejoins_iff_leadsIntoCycle`).
-/

namespace TieredKVCache.Lib

variable {α : Type}

/-- Where the walk from an element is after so many steps. -/
def walk (step : α → Option α) : Nat → α → Option α
  | 0, a => some a
  | n + 1, a => (step a).bind (walk step n)

/-- The walk comes to an element for the second time within `budget` steps, and not to `stop`
until then. -/
def Rejoins (step : α → Option α) (stop : α) (budget : Nat) (start : α) : Prop :=
  ∃ i j a, 0 < i ∧ i < j ∧ j ≤ budget ∧ walk step i start = some a ∧ walk step j start = some a ∧
    ∀ m, 0 < m → m ≤ j → walk step m start ≠ some stop

/-- The start leads into a cycle that it is not on, with so many steps there and once round. -/
def LeadsIntoCycle (step : α → Option α) (budget : Nat) (start : α) : Prop :=
  ∃ i n a, 0 < i ∧ 0 < n ∧ i + n ≤ budget ∧ walk step i start = some a ∧ walk step n a = some a ∧
    ∀ m, walk step m a ≠ some start

/-! ## Cycles -/

section

variable {step : α → Option α} {start a : α} {budget n : Nat}

theorem walk_add (m n : Nat) (a : α) :
    walk step (m + n) a = (walk step m a).bind (walk step n) := by
  induction m generalizing a with
  | zero => rw [Nat.zero_add, walk, Option.bind_some]
  | succ m ih =>
    rw [Nat.succ_add, walk, walk, Option.bind_assoc]
    exact congrArg (step a).bind (funext ih)

/-- On a cycle, any number of rounds leads back. -/
theorem walk_mul (h : walk step n a = some a) (rounds : Nat) :
    walk step (n * rounds) a = some a := by
  induction rounds with
  | zero => rfl
  | succ rounds ih => rw [Nat.mul_succ, walk_add, ih, Option.bind_some, h]

/-- On a cycle, only the steps of the last round matter. -/
theorem walk_mod (h : walk step n a = some a) (m : Nat) :
    walk step m a = walk step (m % n) a := by
  rw [← Nat.div_add_mod m n, walk_add, walk_mul h, Option.bind_some, Nat.mul_add_mod, Nat.mod_mod]

/-- A walk that comes to an element again, without the start in between, has gone round a cycle
without the start. -/
theorem rejoins_iff_leadsIntoCycle :
    Rejoins step start budget start ↔ LeadsIntoCycle step budget start := by
  constructor
  · rintro ⟨i, j, a, hpos, hlt, hle, hi, hj, hstops⟩
    obtain ⟨n, rfl⟩ := Nat.exists_eq_add_of_lt hlt
    have hround : walk step (n + 1) a = some a := by
      rwa [Nat.add_assoc, walk_add, hi, Option.bind_some] at hj
    refine ⟨i, n + 1, a, hpos, Nat.succ_pos n, hle, hi, hround, fun m hm => ?_⟩
    have hback : walk step (i + m % (n + 1)) start = some start := by
      rw [walk_add, hi, Option.bind_some, ← walk_mod hround, hm]
    have hmod : m % (n + 1) < n + 1 := Nat.mod_lt m (Nat.succ_pos n)
    exact hstops _ (by omega) (by omega) hback
  · rintro ⟨i, n, a, hpos, hn, hle, hi, hround, hout⟩
    refine ⟨i, i + n, a, hpos, by omega, hle, hi, ?_, fun m hm _ hback => ?_⟩
    · rw [walk_add, hi, Option.bind_some, hround]
    · -- the start would be on a cycle, so that it comes after `a`
      have hfar : i ≤ m * i := Nat.le_mul_of_pos_left i hm
      have hstart := walk_mul hback i
      rw [← Nat.add_sub_of_le hfar, walk_add, hi, Option.bind_some] at hstart
      exact hout _ hstart

end

/-! ## The list of a walk -/

variable [DecidableEq α] {step : α → Option α} {stop start a : α} {budget : Nat}

/-- The elements to which the walk comes. -/
def chain (step : α → Option α) (stop : α) : Nat → α → List α
  | 0, _ => []
  | budget + 1, cursor =>
    match step cursor with
    | none => []
    | some next => if next = stop then [] else next :: chain step stop budget next

theorem length_chain_le : (chain step stop budget start).length ≤ budget := by
  induction budget generalizing start with
  | zero => exact Nat.le_refl _
  | succ budget ih =>
    rw [chain]
    split
    · exact Nat.zero_le _
    · split
      · exact Nat.zero_le _
      · exact Nat.succ_le_succ ih

/-- The list has an element where the walk is still on its way. -/
theorem getElem?_chain {i : Nat} : (chain step stop budget start)[i]? = some a ↔
    i < budget ∧ walk step (i + 1) start = some a ∧
      ∀ m, 0 < m → m ≤ i + 1 → walk step m start ≠ some stop := by
  induction budget generalizing start i with
  | zero => simp [chain]
  | succ budget ih =>
    rw [chain]
    cases hstep : step start with
    | none => simp [walk, hstep]
    | some next =>
      have hwalk (m : Nat) : walk step (m + 1) start = walk step m next := by
        rw [walk, hstep, Option.bind_some]
      dsimp only
      by_cases hnext : next = stop
      · rw [if_pos hnext, List.getElem?_nil]
        refine iff_of_false (Option.some_ne_none a).symm ?_
        rintro ⟨-, -, hstops⟩
        exact hstops 1 Nat.one_pos (Nat.le_add_left 1 i) ((hwalk 0).trans (congrArg some hnext))
      · rw [if_neg hnext]
        cases i with
        | zero =>
          rw [List.getElem?_cons_zero, hwalk]
          refine ⟨fun h => ⟨Nat.succ_pos _, h, fun m hpos hle => ?_⟩, fun h => h.2.1⟩
          obtain rfl : m = 1 := by omega
          rw [hwalk]
          exact fun heq => hnext (Option.some.inj heq)
        | succ i =>
          rw [List.getElem?_cons_succ, ih, hwalk, Nat.succ_lt_succ_iff]
          refine and_congr_right fun _ => and_congr_right fun _ => ⟨fun h m hpos hle => ?_, ?_⟩
          · obtain ⟨m, rfl⟩ : ∃ k, m = k + 1 := ⟨m - 1, by omega⟩
            rw [hwalk]
            cases m with
            | zero => exact fun heq => hnext (Option.some.inj heq)
            | succ m => exact h (m + 1) (Nat.succ_pos m) (by omega)
          · intro h m hpos hle
            rw [← hwalk]
            exact h (m + 1) (Nat.succ_pos m) (by omega)

theorem notMem_chain : stop ∉ chain step stop budget start := by
  intro hmem
  obtain ⟨i, hi⟩ := List.mem_iff_getElem?.mp hmem
  obtain ⟨-, hwalk, hstops⟩ := getElem?_chain.mp hi
  exact hstops (i + 1) (Nat.succ_pos i) (Nat.le_refl _) hwalk

theorem nodup_chain_iff :
    (chain step stop budget start).Nodup ↔ ¬ Rejoins step stop budget start := by
  rw [List.nodup_iff_getElem?_ne_getElem?]
  constructor
  · rintro hdistinct ⟨i, j, a, hpos, hlt, hle, hi, hj, hstops⟩
    obtain ⟨i, rfl⟩ : ∃ k, i = k + 1 := ⟨i - 1, by omega⟩
    obtain ⟨j, rfl⟩ : ∃ k, j = k + 1 := ⟨j - 1, by omega⟩
    have hi' : (chain step stop budget start)[i]? = some a :=
      getElem?_chain.mpr ⟨by omega, hi, fun m h hm => hstops m h (by omega)⟩
    have hj' : (chain step stop budget start)[j]? = some a :=
      getElem?_chain.mpr ⟨hle, hj, hstops⟩
    have hlength : j < (chain step stop budget start).length :=
      (List.getElem?_eq_some_iff.mp hj').1
    exact hdistinct i j (by omega) hlength (hi'.trans hj'.symm)
  · intro hnot i j hlt hlength heq
    have hj : (chain step stop budget start)[j]? = some (chain step stop budget start)[j] :=
      List.getElem?_eq_getElem hlength
    obtain ⟨hle, hwalk, hstops⟩ := getElem?_chain.mp hj
    obtain ⟨-, hwalk', -⟩ := getElem?_chain.mp (heq.trans hj)
    exact hnot ⟨i + 1, j + 1, _, Nat.succ_pos i, Nat.succ_lt_succ hlt, hle, hwalk', hwalk, hstops⟩

end TieredKVCache.Lib
