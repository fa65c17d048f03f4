import Mathlib.Algebra.Order.Field.Basic
import Mathlib.Algebra.Order.Field.Rat
import Mathlib.Data.Rat.Cast.Order
import Mathlib.Tactic.Linarith
import Mathlib.Tactic.NormNum

/-!
Readings of 64-bit counters that wrap around and of a clock in nanoseconds, and
the share of a capacity that a rate leaves unused.
-/

namespace NodeMonitor.Readings

/-- A difference of unsigned counters, as the `double` it is converted to. -/
def delta (curr last : UInt64) : ℚ := (curr - last).toNat

/-- A counter that advanced by an amount shows that amount modulo its size. -/
theorem delta_add_ofNat (c : UInt64) (r : ℕ) :
    delta (c + UInt64.ofNat r) c = (r % 2 ^ 64 : ℕ) := by
  have hsub : c + UInt64.ofNat r - c = UInt64.ofNat r := by grind
  rw [delta, hsub, UInt64.toNat_ofNat']

/-- A difference exceeds the counter itself when the counter has decreased. -/
theorem delta_le_iff {curr last : UInt64} : delta curr last ≤ curr.toNat ↔ last ≤ curr := by
  rw [delta, Nat.cast_le, UInt64.le_iff_toNat_le, UInt64.toNat_sub]
  have hcurr := curr.toNat_lt
  have hlast := last.toNat_lt
  omega

/-- `std::chrono::duration<double>(now - last).count()`. -/
def secondsSince (now last : ℤ) : ℚ := ((now - last : ℤ) : ℚ) / 1000000000

theorem secondsSince_pos_iff {now last : ℤ} : 0 < secondsSince now last ↔ last < now := by
  rw [secondsSince, div_pos_iff_of_pos_right (by norm_num), Int.cast_pos, sub_pos]

theorem secondsSince_pos {now last : ℤ} (h : last < now) : 0 < secondsSince now last :=
  secondsSince_pos_iff.mpr h

/-- A part of a total is a percentage of it. -/
theorem share_bounds {part total : ℚ} (htotal : 0 < total) (hpart : 0 ≤ part)
    (hle : part ≤ total) : 0 ≤ part / total * 100 ∧ part / total * 100 ≤ 100 := by
  have hnonneg : 0 ≤ part / total := div_nonneg hpart htotal.le
  have hone : part / total ≤ 1 := (div_le_one htotal).mpr hle
  constructor
  · linarith
  · linarith

/-- The share of a capacity left unused, and zero above the capacity. -/
def unused (rate capacity : ℚ) : ℚ := max 0 (1 - rate / capacity)

theorem unused_nonneg (rate capacity : ℚ) : 0 ≤ unused rate capacity := le_max_left _ _

/-- A rate in another unit. -/
theorem unused_div (rate capacity c : ℚ) :
    unused (rate / c) capacity = unused rate (c * capacity) := by
  rw [unused, unused, div_div]

theorem unused_le_one {rate capacity : ℚ} (hcapacity : 0 < capacity) (hrate : 0 ≤ rate) :
    unused rate capacity ≤ 1 := by
  have hdiv : 0 ≤ rate / capacity := div_nonneg hrate hcapacity.le
  exact max_le (by norm_num) (by linarith)

/-- The whole capacity is left only by a rate of zero. -/
theorem unused_eq_one_iff {rate capacity : ℚ} (hcapacity : 0 < capacity) :
    unused rate capacity = 1 ↔ rate = 0 := by
  rw [unused, max_eq_iff]
  constructor
  · rintro (⟨hzero, _⟩ | ⟨hone, _⟩)
    · norm_num at hzero
    · have hdiv : rate / capacity = 0 := by linarith
      exact (div_eq_zero_iff.mp hdiv).resolve_right hcapacity.ne'
  · rintro rfl
    norm_num

theorem unused_eq_zero_iff {rate capacity : ℚ} (hcapacity : 0 < capacity) :
    unused rate capacity = 0 ↔ capacity ≤ rate := by
  rw [unused, max_eq_left_iff, sub_nonpos, one_le_div hcapacity]

theorem unused_antitone {capacity : ℚ} (hcapacity : 0 < capacity) {low high : ℚ}
    (h : low ≤ high) : unused high capacity ≤ unused low capacity := by
  have hdiv : low / capacity ≤ high / capacity := by gcongr
  exact max_le_max le_rfl (by linarith)

/-- A lower rate leaves the same share only when it is equal or also saturates. -/
theorem unused_eq_iff {capacity : ℚ} (hcapacity : 0 < capacity) {low high : ℚ}
    (h : low ≤ high) :
    unused low capacity = unused high capacity ↔ low = high ∨ capacity ≤ low := by
  have hdiv : low / capacity ≤ high / capacity := by gcongr
  constructor
  · intro heq
    by_cases hlow : capacity ≤ low
    · exact Or.inr hlow
    · left
      have hfree : low / capacity < 1 := (div_lt_one hcapacity).mpr (not_le.mp hlow)
      have hpos : unused low capacity = 1 - low / capacity := max_eq_right (by linarith)
      have hhigh : high / capacity ≤ low / capacity := by
        by_contra hlt
        have hless : unused high capacity < 1 - low / capacity :=
          max_lt (by linarith) (by linarith)
        linarith
      exact (div_left_inj' hcapacity.ne').mp (le_antisymm hdiv hhigh)
  · rintro (rfl | hlow)
    · rfl
    · have hone : 1 ≤ low / capacity := (one_le_div hcapacity).mpr hlow
      rw [unused, unused, max_eq_left (by linarith), max_eq_left (by linarith)]

theorem unused_lt_unused {capacity : ℚ} (hcapacity : 0 < capacity) {low high : ℚ}
    (hlow : low < capacity) (h : low < high) : unused high capacity < unused low capacity := by
  refine lt_of_le_of_ne (unused_antitone hcapacity h.le) ?_
  intro heq
  rcases (unused_eq_iff hcapacity h.le).mp heq.symm with hsame | hfull
  · exact h.ne hsame
  · exact not_le.mpr hlow hfull

end NodeMonitor.Readings
