import Mathlib.Data.Rat.Floor
import TieredKVCache.Lib.Loop
import TieredKVCache.Lib.RankOrder

/-!
# Percentiles

`percentiles` of `framework.py`, in exact arithmetic and over any linear order of samples. Each
value that it reports is the least sample such that so many percent of the samples are at most as
large (`percentiles_reports`).
-/

namespace TieredKVCache.Bench

open Lib

variable {α : Type} [LinearOrder α]

structure Percentiles (α : Type) where
  p50 : α
  p90 : α
  p99 : α
deriving DecidableEq, Repr

/-- `rank` in `nearest_rank`. -/
def rankOf (p : ℚ) (n : Nat) : Nat := max 1 ⌈p / 100 * n⌉₊

/-- `nearest_rank`; a rank outside of the list is an `IndexError`. -/
def nearestRank (ordered : List α) (p : ℚ) : Except String α :=
  match ordered[rankOf p ordered.length - 1]? with
  | some value => .ok value
  | none => .error "list index out of range"

/-- `percentiles`; its own error is a `ValueError`. -/
def percentiles (samples : List α) : Except String (Percentiles α) :=
  if samples = [] then .error "样本集为空，无法计算分位数"
  else do
    let ordered := samples.insertionSort (· ≤ ·)
    return {
      p50 := ← nearestRank ordered 50
      p90 := ← nearestRank ordered 90
      p99 := ← nearestRank ordered 99 }

/-- The least sample such that at least `p` percent of the samples are at most as large. -/
def IsPercentile (p : ℚ) (samples : List α) (value : α) : Prop :=
  IsLeast {v | v ∈ samples ∧ p / 100 * samples.length ≤ samples.countP (· ≤ v)} value

variable {p q : ℚ} {samples samples' : List α} {value : α}

/-- The rank is the least positive number of samples that makes `p` percent. -/
theorem rankOf_le_iff {n k : Nat} (h : 0 < k) : rankOf p n ≤ k ↔ p / 100 * n ≤ k := by
  rw [rankOf, max_le_iff, Nat.ceil_le]
  exact and_iff_right h

/-- There are as many samples as the rank says. -/
theorem rankOf_le {n : Nat} (hn : 0 < n) (hp : p ≤ 100) : rankOf p n ≤ n := by
  rw [rankOf_le_iff hn]
  have hshare : p / 100 ≤ 1 := by linarith
  exact mul_le_of_le_one_left (Nat.cast_nonneg _) hshare

theorem isPercentile_iff : IsPercentile p samples value ↔
    IsLeast {v | v ∈ samples ∧ rankOf p samples.length - 1 < samples.countP (· ≤ v)} value := by
  have hset : {v | v ∈ samples ∧ p / 100 * samples.length ≤ samples.countP (· ≤ v)} =
      {v | v ∈ samples ∧ rankOf p samples.length - 1 < samples.countP (· ≤ v)} := by
    ext v
    refine and_congr_right fun hv => ?_
    have hcount : 0 < samples.countP (· ≤ v) :=
      List.countP_pos_iff.mpr ⟨v, hv, decide_eq_true (le_refl v)⟩
    have hrank : 1 ≤ rankOf p samples.length := le_max_left _ _
    rw [← rankOf_le_iff hcount]
    omega
  rw [IsPercentile, hset]

theorem nearestRank_returns (hne : samples ≠ []) (hp : p ≤ 100) :
    Returns (nearestRank (samples.insertionSort (· ≤ ·)) p) (IsPercentile p samples) := by
  have hlength : (samples.insertionSort (· ≤ ·)).length = samples.length :=
    List.length_insertionSort _ _
  have hrank : rankOf p samples.length ≤ samples.length :=
    rankOf_le (List.length_pos_iff.mpr hne) hp
  have hpos : 1 ≤ rankOf p samples.length := le_max_left _ _
  obtain ⟨value, hvalue⟩ : ∃ value,
      (samples.insertionSort (· ≤ ·))[rankOf p samples.length - 1]? = some value :=
    ⟨_, List.getElem?_eq_getElem (by omega)⟩
  refine ⟨value, ?_, isPercentile_iff.mpr (isLeast_of_getElem? hvalue)⟩
  unfold nearestRank
  rw [hlength, hvalue]

theorem IsPercentile.perm (h : IsPercentile p samples value) (hperm : samples'.Perm samples) :
    IsPercentile p samples' value := by
  unfold IsPercentile at h ⊢
  simpa only [hperm.mem_iff, hperm.length_eq, hperm.countP_eq] using h

/-- More percent, no smaller value. -/
theorem IsPercentile.mono {value' : α} (h : IsPercentile p samples value)
    (h' : IsPercentile q samples value') (hle : p ≤ q) : value ≤ value' := by
  refine IsLeast.mono h' h fun v ⟨hmem, hcount⟩ => ⟨hmem, le_trans ?_ hcount⟩
  have hshare : p / 100 ≤ q / 100 := by linarith
  exact mul_le_mul_of_nonneg_right hshare (Nat.cast_nonneg _)

theorem percentiles_returns (hne : samples ≠ []) : Returns (percentiles samples) fun r =>
    IsPercentile 50 samples r.p50 ∧ IsPercentile 90 samples r.p90 ∧
      IsPercentile 99 samples r.p99 := by
  obtain ⟨p50, h50, hp50⟩ := nearestRank_returns hne (p := 50) (by norm_num)
  obtain ⟨p90, h90, hp90⟩ := nearestRank_returns hne (p := 90) (by norm_num)
  obtain ⟨p99, h99, hp99⟩ := nearestRank_returns hne (p := 99) (by norm_num)
  refine ⟨⟨p50, p90, p99⟩, ?_, hp50, hp90, hp99⟩
  unfold percentiles
  rw [if_neg hne]
  simp only [h50, h90, h99]
  rfl

/-- What `percentiles` reports of samples. -/
structure Reports (samples : List α) (r : Percentiles α) : Prop where
  p50 : IsPercentile 50 samples r.p50
  p90 : IsPercentile 90 samples r.p90
  p99 : IsPercentile 99 samples r.p99
  permuted : ∀ samples' : List α, samples'.Perm samples → percentiles samples' = .ok r
  ascending : r.p50 ≤ r.p90 ∧ r.p90 ≤ r.p99
  atLeast : ∀ low ∈ samples.min?, low ≤ r.p50
  atMost : ∀ high ∈ samples.max?, r.p99 ≤ high

/-- **Percentiles.** The values are the percentiles of the samples, in whatever order these are. -/
theorem percentiles_reports (samples : List α) (hne : samples ≠ []) :
    Returns (percentiles samples) (Reports samples) := by
  obtain ⟨r, hr, h50, h90, h99⟩ := percentiles_returns hne
  refine ⟨r, hr, h50, h90, h99, ?permuted, ⟨h50.mono h90 (by norm_num), h90.mono h99 (by norm_num)⟩,
    fun low hlow => List.le_min?_iff hlow |>.mp le_rfl _ h50.1.1,
    fun high hhigh => List.max?_le_iff hhigh |>.mp le_rfl _ h99.1.1⟩
  case permuted =>
    intro samples' hperm
    have hne' : samples' ≠ [] := fun hnil => hne (List.nil_perm.mp (hnil ▸ hperm))
    obtain ⟨r', hr', h50', h90', h99'⟩ := percentiles_returns hne'
    have hsame : r' = r := by
      cases r
      cases r'
      congr 1
      · exact h50'.unique (h50.perm hperm)
      · exact h90'.unique (h90.perm hperm)
      · exact h99'.unique (h99.perm hperm)
    rw [hr', hsame]

theorem percentiles_reports_three : Returns (percentiles [3, 1, 2]) (Reports [3, 1, 2]) :=
  percentiles_reports ([3, 1, 2] : List Nat) (List.cons_ne_nil _ _)

end TieredKVCache.Bench
