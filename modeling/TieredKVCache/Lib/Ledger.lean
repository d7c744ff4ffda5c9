import Mathlib.Data.Multiset.AddSub

/-!
# Ledgers

What is acquired and released, with repetitions, newest entry first. A ledger is lawful where only
what is held is released. What was acquired is then what was released and what is still held
(`Lawful.balance`).
-/

namespace TieredKVCache.Lib

inductive LedgerEntry (ρ : Type) where
  | acquired (r : ρ)
  | released (r : ρ)

section

variable {ρ : Type}

/-- Everything that was acquired. -/
def acquired : List (LedgerEntry ρ) → Multiset ρ
  | [] => 0
  | .acquired r :: entries => r ::ₘ acquired entries
  | .released _ :: entries => acquired entries

/-- Everything that was released. -/
def released : List (LedgerEntry ρ) → Multiset ρ
  | [] => 0
  | .acquired _ :: entries => released entries
  | .released r :: entries => r ::ₘ released entries

variable [DecidableEq ρ]

/-- What is held at the end. -/
def held : List (LedgerEntry ρ) → Multiset ρ
  | [] => 0
  | .acquired r :: entries => r ::ₘ held entries
  | .released r :: entries => (held entries).erase r

/-- Only what is held is released. -/
def Lawful : List (LedgerEntry ρ) → Prop
  | [] => True
  | .acquired _ :: entries => Lawful entries
  | .released r :: entries => r ∈ held entries ∧ Lawful entries

theorem Lawful.balance {entries : List (LedgerEntry ρ)} (h : Lawful entries) :
    acquired entries = released entries + held entries := by
  induction entries with
  | nil => rfl
  | cons entry entries ih =>
    cases entry with
    | acquired r =>
      rw [acquired, released, held, ih h, Multiset.add_cons]
    | released r =>
      obtain ⟨hheld, hrest⟩ := h
      rw [acquired, released, held, ih hrest, Multiset.cons_add, ← Multiset.add_cons,
        Multiset.cons_erase hheld]

theorem Lawful.of_append {newer older : List (LedgerEntry ρ)} (h : Lawful (newer ++ older)) :
    Lawful older := by
  induction newer with
  | nil => exact h
  | cons entry newer ih =>
    cases entry with
    | acquired r => exact ih h
    | released r => exact ih h.2

/-- What is released was held before. -/
theorem Lawful.mem_held {newer older : List (LedgerEntry ρ)} {r : ρ}
    (h : Lawful (newer ++ .released r :: older)) : r ∈ held older :=
  h.of_append.1

end

end TieredKVCache.Lib
