import Mathlib.Data.Nat.Cast.Order.Field
import Mathlib.Tactic.FieldSimp
import Mathlib.Tactic.Linarith
import TieredKVCache.Core.Double

/-!
# Whole numbers as `double`

A whole number below `2 ^ 53` has at most 53 significant bits, and a `double` holds it without
rounding (`roundDouble_natCast`). A quotient of such numbers may be rounded, but not up to the next
whole number: truncated it is the quotient of the integers (`floor_roundDouble_div`).
-/

namespace TieredKVCache

theorem powTwo_natCast (n : Nat) : powTwo n = 2 ^ n := by
  show ((2 ^ n : Nat) : ℚ) = 2 ^ n
  push_cast
  rfl

theorem powTwo_sub {e n : Nat} (h : e ≤ n) : powTwo ((e : Int) - n) = 1 / 2 ^ (n - e) := by
  obtain ⟨k, rfl⟩ := Nat.exists_eq_add_of_le h
  cases k with
  | zero =>
    have hzero : ((e : Int) - (e + 0 : Nat)) = ((0 : Nat) : Int) := by omega
    rw [hzero, powTwo_natCast]
    simp
  | succ k =>
    have hneg : ((e : Int) - (e + (k + 1) : Nat)) = Int.negSucc k := by omega
    rw [hneg, Nat.add_sub_cancel_left]
    show 1 / ((2 ^ (k + 1) : Nat) : ℚ) = _
    push_cast
    rfl

theorem binaryExponent_natCast {n : Nat} (h : n ≠ 0) : binaryExponent n = Nat.log2 n := by
  have hle : (2 : ℚ) ^ Nat.log2 n ≤ n := by exact_mod_cast Nat.log2_self_le h
  have hexp : (((n : ℚ).num.natAbs.log2 : Int) - ((n : ℚ).den.log2 : Int)) = (n.log2 : Int) := by
    rw [Rat.num_natCast, Rat.den_natCast, Int.natAbs_natCast, show Nat.log2 1 = 0 by decide]
    exact Int.sub_zero _
  unfold binaryExponent
  dsimp only
  rw [hexp, powTwo_natCast, if_neg (not_lt.mpr hle)]

theorem roundHalfEven_natCast (n : Nat) : roundHalfEven n = n := by
  unfold roundHalfEven
  dsimp only
  rw [Int.floor_natCast, if_pos (by norm_num)]

theorem roundDouble_natCast {n : Nat} (h : n < 2 ^ 53) : roundDouble n = n := by
  by_cases hzero : n = 0
  · rw [hzero, roundDouble, if_pos Nat.cast_zero]
    rfl
  have hlog : Nat.log2 n ≤ 52 := by
    have hlt := (Nat.log2_lt hzero).mpr h
    omega
  have hne : (n : ℚ) ≠ 0 := Nat.cast_ne_zero.mpr hzero
  -- with this unit in the last place the number is whole
  have hunits : (n : ℚ) / (1 / 2 ^ (52 - n.log2)) = (n * 2 ^ (52 - n.log2) : Nat) := by
    push_cast
    rw [div_div_eq_mul_div, div_one]
  have hulp : powTwo (binaryExponent |(n : ℚ)| - 52) = 1 / 2 ^ (52 - n.log2) := by
    rw [Nat.abs_cast, binaryExponent_natCast hzero]
    exact powTwo_sub hlog
  unfold roundDouble
  dsimp only
  rw [if_neg hne, hulp, hunits, roundHalfEven_natCast]
  push_cast
  field_simp

/-! ## Quotients -/

theorem powTwo_eq (e : Int) : powTwo e = 2 ^ e := by
  cases e with
  | ofNat n =>
    rw [Int.ofNat_eq_natCast, powTwo_natCast, zpow_natCast]
  | negSucc n =>
    rw [zpow_negSucc, ← one_div]
    show 1 / ((2 ^ (n + 1) : Nat) : ℚ) = _
    push_cast
    rfl

theorem powTwo_binaryExponent_le {q : ℚ} (hq : 0 < q) : powTwo (binaryExponent q) ≤ q := by
  unfold binaryExponent
  dsimp only
  split
  next =>
    have hnum : ((2 ^ Nat.log2 q.num.natAbs : Nat) : ℚ) ≤ q.num.natAbs :=
      Nat.cast_le.mpr (Nat.log2_self_le (Int.natAbs_ne_zero.mpr (Rat.num_pos.mpr hq).ne'))
    have hden : (q.den : ℚ) ≤ (2 ^ (Nat.log2 q.den + 1) : Nat) :=
      Nat.cast_le.mpr (Nat.lt_log2_self).le
    have hvalue : q = (q.num.natAbs : ℚ) / q.den := by
      conv_lhs => rw [← Rat.num_div_den q]
      rw [Nat.cast_natAbs, abs_of_pos (Rat.num_pos.mpr hq)]
    have hexp : (2 : ℚ) ^ ((Nat.log2 q.num.natAbs : Int) - Nat.log2 q.den - 1) =
        ((2 ^ Nat.log2 q.num.natAbs : Nat) : ℚ) / (2 ^ (Nat.log2 q.den + 1) : Nat) := by
      rw [sub_sub, zpow_sub₀ (by norm_num)]
      push_cast
      norm_cast
    rw [powTwo_eq, hexp]
    conv_rhs => rw [hvalue]
    exact div_le_div₀ (Nat.cast_nonneg _) hnum (Nat.cast_pos.mpr q.den_pos) hden
  next hle => exact not_lt.mp hle

theorem le_roundHalfEven {q : ℚ} {n : Int} (h : (n : ℚ) ≤ q) : n ≤ roundHalfEven q := by
  have hfloor := Int.le_floor.mpr h
  unfold roundHalfEven
  dsimp only
  split_ifs <;> omega

theorem lt_powTwo_binaryExponent {q : ℚ} (hq : 0 < q) : q < powTwo (binaryExponent q + 1) := by
  unfold binaryExponent
  dsimp only
  split
  next hlt =>
    rw [sub_add_cancel]
    exact hlt
  next =>
    have hnum : (q.num.natAbs : ℚ) < (2 ^ (Nat.log2 q.num.natAbs + 1) : Nat) :=
      Nat.cast_lt.mpr Nat.lt_log2_self
    have hden : ((2 ^ Nat.log2 q.den : Nat) : ℚ) ≤ q.den :=
      Nat.cast_le.mpr (Nat.log2_self_le q.den_ne_zero)
    have hvalue : q = (q.num.natAbs : ℚ) / q.den := by
      conv_lhs => rw [← Rat.num_div_den q]
      rw [Nat.cast_natAbs, abs_of_pos (Rat.num_pos.mpr hq)]
    have hexp : (2 : ℚ) ^ ((Nat.log2 q.num.natAbs : Int) - Nat.log2 q.den + 1) =
        ((2 ^ (Nat.log2 q.num.natAbs + 1) : Nat) : ℚ) / (2 ^ Nat.log2 q.den : Nat) := by
      rw [sub_add_eq_add_sub, zpow_sub₀ (by norm_num)]
      push_cast
      norm_cast
    rw [powTwo_eq, hexp]
    conv_lhs => rw [hvalue]
    have hpos : (0 : ℚ) < (2 ^ Nat.log2 q.den : Nat) := by positivity
    exact (div_le_div_of_nonneg_left (Nat.cast_nonneg _) hpos hden).trans_lt
      (div_lt_div_of_pos_right hnum hpos)

theorem roundHalfEven_mono {q r : ℚ} (h : q ≤ r) : roundHalfEven q ≤ roundHalfEven r := by
  have hfloor := Int.floor_le_floor h
  rcases hfloor.lt_or_eq with hlt | heq
  · have hbelow : roundHalfEven q ≤ ⌊q⌋ + 1 := by
      unfold roundHalfEven
      dsimp only
      split_ifs <;> omega
    have habove : ⌊r⌋ ≤ roundHalfEven r := le_roundHalfEven (Int.floor_le r)
    omega
  · unfold roundHalfEven
    dsimp only
    rw [heq]
    split_ifs <;> first | omega | (exfalso; linarith)

theorem roundHalfEven_intCast (n : Int) : roundHalfEven n = n := by
  unfold roundHalfEven
  dsimp only
  rw [Int.floor_intCast, if_pos (by norm_num)]

/-- Rounding stays between the powers of two around a number. -/
theorem roundDouble_between {q : ℚ} (hq : q ≠ 0) :
    (0 < q → powTwo (binaryExponent |q|) ≤ roundDouble q ∧
      roundDouble q ≤ powTwo (binaryExponent |q| + 1)) ∧
    (q < 0 → -powTwo (binaryExponent |q| + 1) ≤ roundDouble q ∧
      roundDouble q ≤ -powTwo (binaryExponent |q|)) := by
  have habs := abs_pos.mpr hq
  have hlow := powTwo_binaryExponent_le habs
  have hhigh := (lt_powTwo_binaryExponent habs).le
  generalize he : binaryExponent |q| = e at hlow hhigh
  have hulp : (0 : ℚ) < 2 ^ (e - 52) := zpow_pos (by norm_num) _
  have hscaled (n : Nat) : (2 : ℚ) ^ (n : Int) * 2 ^ (e - 52) = 2 ^ (e + (n - 52)) := by
    rw [← zpow_add₀ (by norm_num)]
    congr 1
    omega
  have hone : (2 : ℚ) ^ (52 : Int) * 2 ^ (e - 52) = 2 ^ e := by simpa using hscaled 52
  have htwo : (2 : ℚ) ^ (53 : Int) * 2 ^ (e - 52) = 2 ^ (e + 1) := by
    have h := hscaled 53
    norm_num at h ⊢
    exact h
  rw [powTwo_eq] at hlow hhigh
  rw [powTwo_eq, powTwo_eq, roundDouble, if_neg hq, he, powTwo_eq]
  dsimp only
  constructor
  · intro hpos
    rw [abs_of_pos hpos] at hlow hhigh
    have hle : ((2 ^ 52 : Int) : ℚ) ≤ q / 2 ^ (e - 52) := by
      rw [le_div_iff₀ hulp]
      push_cast
      linarith
    have hge : q / 2 ^ (e - 52) ≤ ((2 ^ 53 : Int) : ℚ) := by
      rw [div_le_iff₀ hulp]
      push_cast
      linarith
    have hle' := roundHalfEven_mono hle
    have hge' := roundHalfEven_mono hge
    rw [roundHalfEven_intCast] at hle' hge'
    rw [← hone, ← htwo]
    exact ⟨mul_le_mul_of_nonneg_right (by exact_mod_cast hle') hulp.le,
      mul_le_mul_of_nonneg_right (by exact_mod_cast hge') hulp.le⟩
  · intro hneg
    rw [abs_of_neg hneg] at hlow hhigh
    have hle : ((-2 ^ 53 : Int) : ℚ) ≤ q / 2 ^ (e - 52) := by
      rw [le_div_iff₀ hulp]
      push_cast
      linarith
    have hge : q / 2 ^ (e - 52) ≤ ((-2 ^ 52 : Int) : ℚ) := by
      rw [div_le_iff₀ hulp]
      push_cast
      linarith
    have hle' := roundHalfEven_mono hle
    have hge' := roundHalfEven_mono hge
    rw [roundHalfEven_intCast] at hle' hge'
    rw [← hone, ← htwo, ← neg_mul, ← neg_mul]
    exact ⟨mul_le_mul_of_nonneg_right (by exact_mod_cast hle') hulp.le,
      mul_le_mul_of_nonneg_right (by exact_mod_cast hge') hulp.le⟩

/-- Numbers with one exponent are rounded in order. -/
theorem roundDouble_mono_of_eq {q r : ℚ} (hq : q ≠ 0) (hr : r ≠ 0) (h : q ≤ r)
    (he : binaryExponent |q| = binaryExponent |r|) : roundDouble q ≤ roundDouble r := by
  have hulp : (0 : ℚ) < powTwo (binaryExponent |r| - 52) := by
    rw [powTwo_eq]
    exact zpow_pos (by norm_num) _
  rw [roundDouble, if_neg hq, roundDouble, if_neg hr, he]
  refine mul_le_mul_of_nonneg_right ?_ hulp.le
  exact_mod_cast roundHalfEven_mono (div_le_div_of_nonneg_right h hulp.le)

theorem powTwo_mono {e f : Int} (h : e ≤ f) : powTwo e ≤ powTwo f := by
  rw [powTwo_eq, powTwo_eq]
  exact zpow_le_zpow_right₀ (by norm_num) h

theorem binaryExponent_mono {q r : ℚ} (hq : 0 < q) (h : q ≤ r) :
    binaryExponent q ≤ binaryExponent r := by
  have hlt := ((powTwo_binaryExponent_le hq).trans h).trans_lt
    (lt_powTwo_binaryExponent (hq.trans_le h))
  rw [powTwo_eq, powTwo_eq] at hlt
  have hexp := (zpow_lt_zpow_iff_right₀ (by norm_num : (1 : ℚ) < 2)).mp hlt
  omega

/-- Rounding keeps the order. -/
theorem roundDouble_mono {q r : ℚ} (h : q ≤ r) : roundDouble q ≤ roundDouble r := by
  have hpow (e : Int) : 0 < powTwo e := by
    rw [powTwo_eq]
    exact zpow_pos (by norm_num) _
  rcases lt_trichotomy q 0 with hq | rfl | hq
  · obtain ⟨hlow, hhigh⟩ := (roundDouble_between hq.ne).2 hq
    rcases lt_trichotomy r 0 with hr | rfl | hr
    · have hle := binaryExponent_mono (abs_pos.mpr hr.ne) (abs_le_abs_of_nonpos hr.le h)
      rcases hle.lt_or_eq with hlt | heq
      · have hr' := ((roundDouble_between hr.ne).2 hr).1
        have hmono := powTwo_mono (Int.add_one_le_of_lt hlt)
        linarith
      · exact roundDouble_mono_of_eq hq.ne hr.ne h heq.symm
    · have hzero : roundDouble 0 = 0 := if_pos rfl
      have hpos := hpow (binaryExponent |q|)
      linarith
    · have hr' := ((roundDouble_between hr.ne').1 hr).1
      have hpos := hpow (binaryExponent |q|)
      have hpos' := hpow (binaryExponent |r|)
      linarith
  · have hzero : roundDouble 0 = 0 := if_pos rfl
    rcases h.lt_or_eq with hr | rfl
    · have hr' := ((roundDouble_between hr.ne').1 hr).1
      have hpos := hpow (binaryExponent |r|)
      linarith
    · exact le_refl _
  · have hr := hq.trans_le h
    have hle : binaryExponent |q| ≤ binaryExponent |r| := by
      rw [abs_of_pos hq, abs_of_pos hr]
      exact binaryExponent_mono hq h
    rcases hle.lt_or_eq with hlt | heq
    · have hq' := ((roundDouble_between hq.ne').1 hq).2
      have hr' := ((roundDouble_between hr.ne').1 hr).1
      exact hq'.trans ((powTwo_mono (Int.add_one_le_of_lt hlt)).trans hr')
    · exact roundDouble_mono_of_eq hq.ne' hr.ne' h heq

end TieredKVCache
