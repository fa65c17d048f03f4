import Mathlib.Algebra.Order.BigOperators.Ring.Finset
import Mathlib.Algebra.Order.Field.Basic
import Mathlib.Tactic.Linarith

/-!
Weighted means of values between zero and one. With positive weights that sum to
one, the mean keeps the bounds and the order of the values, and it attains a bound
only where all values do.
-/

namespace NodeMonitor.WeightedMeans

variable {ι α : Type*} [Fintype ι] [Field α] [LinearOrder α] [IsStrictOrderedRing α]

def mean (w y : ι → α) : α := ∑ i, w i * y i

omit [LinearOrder α] [IsStrictOrderedRing α] in
theorem mean_one {w : ι → α} (hsum : ∑ i, w i = 1) : mean w (fun _ => 1) = 1 := by
  simpa only [mean, mul_one] using hsum

theorem mean_le_mean {w y z : ι → α} (hw : ∀ i, 0 < w i) (h : ∀ i, y i ≤ z i) :
    mean w y ≤ mean w z :=
  Finset.sum_le_sum (fun i _ => mul_le_mul_of_nonneg_left (h i) (hw i).le)

theorem mean_lt_mean {w y z : ι → α} (hw : ∀ i, 0 < w i) (h : ∀ i, y i ≤ z i) {i : ι}
    (hlt : y i < z i) : mean w y < mean w z :=
  Finset.sum_lt_sum (fun j _ => mul_le_mul_of_nonneg_left (h j) (hw j).le)
    ⟨i, Finset.mem_univ i, mul_lt_mul_of_pos_left hlt (hw i)⟩

theorem mean_nonneg {w y : ι → α} (hw : ∀ i, 0 < w i) (hy : ∀ i, 0 ≤ y i) : 0 ≤ mean w y :=
  Finset.sum_nonneg (fun i _ => mul_nonneg (hw i).le (hy i))

theorem mean_le_one {w y : ι → α} (hw : ∀ i, 0 < w i) (hsum : ∑ i, w i = 1)
    (hy : ∀ i, y i ≤ 1) : mean w y ≤ 1 := by
  rw [← mean_one hsum]
  exact mean_le_mean hw hy

theorem mean_eq_zero_iff {w y : ι → α} (hw : ∀ i, 0 < w i) (hy : ∀ i, 0 ≤ y i) :
    mean w y = 0 ↔ ∀ i, y i = 0 := by
  rw [mean, Finset.sum_eq_zero_iff_of_nonneg (fun i _ => mul_nonneg (hw i).le (hy i))]
  constructor
  · intro h i
    exact (mul_eq_zero.mp (h i (Finset.mem_univ i))).resolve_left (hw i).ne'
  · intro h i _
    rw [h i, mul_zero]

theorem mean_eq_one_iff {w y : ι → α} (hw : ∀ i, 0 < w i) (hsum : ∑ i, w i = 1)
    (hy : ∀ i, y i ≤ 1) : mean w y = 1 ↔ ∀ i, y i = 1 := by
  constructor
  · intro h i
    by_contra hne
    have hlt := mean_lt_mean hw hy (lt_of_le_of_ne (hy i) hne)
    rw [mean_one hsum, h] at hlt
    exact lt_irrefl 1 hlt
  · intro h
    rw [funext h]
    exact mean_one hsum

end NodeMonitor.WeightedMeans
