import Mathlib.Logic.Function.Basic

/-!
# Numbers in texts

The decimal text of a number determines the number. So does a text that starts with it, where no
digit follows (`repr_append_inj`); the rest of the text is then determined as well.
-/

namespace TieredKVCache.Lib

/-- A text that does not start with a digit. -/
def NoDigitFirst (text : String) : Prop := ∀ c ∈ text.toList.head?, c.isDigit = false

theorem noDigitFirst_empty : NoDigitFirst "" := by
  intro c hc
  cases hc

theorem toDigits_injective : Function.Injective (Nat.toDigits 10) :=
  Function.LeftInverse.injective (g := fun digits => Nat.ofDigitChars 10 digits 0)
    fun _ => Nat.ofDigitChars_ten_toDigits

theorem repr_injective : Function.Injective Nat.repr := by
  intro m n h
  apply toDigits_injective
  rw [← Nat.toList_repr, ← Nat.toList_repr, h]

theorem isDigit_of_mem_repr {n : Nat} {c : Char} (h : c ∈ n.repr.toList) : c.isDigit = true := by
  rw [Nat.toList_repr] at h
  exact Nat.isDigit_of_mem_toDigits (by decide) (by decide) h

/-- The digits at the start of a text. -/
theorem takeWhile_isDigit {n : Nat} {rest : String} (h : NoDigitFirst rest) :
    (n.repr ++ rest).toList.takeWhile Char.isDigit = n.repr.toList := by
  rw [String.toList_append, List.takeWhile_append_of_pos fun c hc => isDigit_of_mem_repr hc]
  unfold NoDigitFirst at h
  cases hrest : rest.toList with
  | nil => simp
  | cons c cs =>
    rw [hrest] at h
    have hc : c.isDigit = false := h c rfl
    rw [List.takeWhile_cons_of_neg (by rw [hc]; exact Bool.false_ne_true), List.append_nil]

theorem repr_append_inj {m n : Nat} {rest rest' : String} (h : NoDigitFirst rest)
    (h' : NoDigitFirst rest') : m.repr ++ rest = n.repr ++ rest' ↔ m = n ∧ rest = rest' := by
  refine ⟨fun heq => ?_, fun ⟨hnumber, hrest⟩ => by rw [hnumber, hrest]⟩
  have hdigits : m.repr.toList = n.repr.toList := by
    rw [← takeWhile_isDigit h, heq, takeWhile_isDigit h']
  have hnumber : m = n := repr_injective (String.toList_injective hdigits)
  subst hnumber
  exact ⟨rfl, (String.append_right_inj _).mp heq⟩

/-- A number without a sign has a text without a sign. -/
theorem repr_ne_minus (m : Nat) (rest : String) : m.repr ≠ "-" ++ rest := by
  intro heq
  have hminus : '-' ∈ m.repr.toList := by
    rw [heq, String.toList_append]
    exact List.mem_append_left _ (by decide)
  exact absurd (isDigit_of_mem_repr hminus) (by decide)

theorem intRepr_injective : Function.Injective Int.repr := by
  intro a b h
  match a, b with
  | .ofNat m, .ofNat n => exact congrArg Int.ofNat (repr_injective h)
  | .ofNat m, .negSucc n => exact absurd h (repr_ne_minus m _)
  | .negSucc m, .ofNat n => exact absurd h.symm (repr_ne_minus n _)
  | .negSucc m, .negSucc n =>
    have hsucc : m + 1 = n + 1 := repr_injective ((String.append_right_inj "-").mp h)
    exact congrArg Int.negSucc (Nat.succ.inj hsucc)

end TieredKVCache.Lib
