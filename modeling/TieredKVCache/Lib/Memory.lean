import Mathlib.Data.List.Range

/-!
# Flat memory

A memory is a function from the addresses. `load` reads a range, `store` writes one from an
address on, and a range keeps its contents where nothing is stored to it (`load_foldl_of_apart`).
-/

namespace TieredKVCache.Lib

variable {β : Type}

def load (memory : Nat → β) (addr n : Nat) : List β :=
  (List.range n).map fun i => memory (addr + i)

def store (memory : Nat → β) (addr : Nat) (values : List β) : Nat → β := fun a =>
  if addr ≤ a then (values[a - addr]?).getD (memory a) else memory a

/-- The ranges have no address in common. -/
def Apart (addr n addr' n' : Nat) : Prop := addr + n ≤ addr' ∨ addr' + n' ≤ addr

instance (addr n addr' n' : Nat) : Decidable (Apart addr n addr' n') :=
  inferInstanceAs (Decidable (_ ∨ _))

@[simp]
theorem length_load (memory : Nat → β) (addr n : Nat) : (load memory addr n).length = n := by
  rw [load, List.length_map, List.length_range]

theorem load_take (memory : Nat → β) (addr : Nat) {m n : Nat} (h : m ≤ n) :
    (load memory addr n).take m = load memory addr m := by
  rw [load, load, ← List.map_take, List.take_range, Nat.min_eq_left h]

theorem load_store (memory : Nat → β) (addr : Nat) (values : List β) :
    load (store memory addr values) addr values.length = values := by
  apply List.ext_getElem
  · exact length_load ..
  · intro i _ hi
    simp [load, store, hi]

theorem load_store_of_apart (memory : Nat → β) {addr addr' n : Nat} {values : List β}
    (h : Apart addr values.length addr' n) :
    load (store memory addr values) addr' n = load memory addr' n := by
  refine List.map_congr_left fun i hi => ?_
  have hlt := List.mem_range.mp hi
  unfold store
  split
  next hle =>
    have hout : values.length ≤ addr' + i - addr := by
      rcases h with hbefore | hafter <;> omega
    rw [List.getElem?_eq_none hout, Option.getD_none]
  next => rfl

/-- The copied range starts with what the source had. -/
theorem load_store_load (memory : Nat → β) (addr addr' : Nat) {m n : Nat} (h : m ≤ n) :
    load (store memory addr' (load memory addr n)) addr' m = load memory addr m := by
  have hall : load (store memory addr' (load memory addr n)) addr' n = load memory addr n := by
    have hstored := load_store memory addr' (load memory addr n)
    rwa [length_load] at hstored
  rw [← load_take _ _ h, hall, load_take _ _ h]

/-- A range keeps its contents over steps that store nothing to it. -/
theorem load_foldl_of_apart {l : Type} {apply : (Nat → β) → l → Nat → β} {addr n : Nat}
    {labels : List l} (h : ∀ label ∈ labels, ∀ memory,
      load (apply memory label) addr n = load memory addr n) (memory : Nat → β) :
    load (labels.foldl apply memory) addr n = load memory addr n := by
  induction labels generalizing memory with
  | nil => rfl
  | cons label labels ih =>
    obtain ⟨hlabel, hlabels⟩ := List.forall_mem_cons.mp h
    rw [List.foldl_cons, ih hlabels, hlabel]

end TieredKVCache.Lib
