import NodeMonitor.CpuStatMonitor
import NodeMonitor.FloatRounding

/-!
The CPU totals in the precision of `float`. The kernel module converts nanosecond
counters to 24 significant bits, and the agent adds eight of them with rounding
after every addition. Below `2 ^ 52` nanoseconds three seconds of progress always
change the rounded total; above, they can disappear.
-/

namespace NodeMonitor.CpuPrecision

open CpuStatMonitor FloatRounding KernelTables

/-- The numbers in the `float` fields of `struct cpu_stat`. -/
structure FloatRow where
  user : ℕ
  system : ℕ
  idle : ℕ
  nice : ℕ
  ioWait : ℕ
  irq : ℕ
  softIrq : ℕ
  steal : ℕ
  guest : ℕ
  guestNice : ℕ

/-- The assignments of `update_cpu_stats`. -/
def updateFloatRow (stat : CpuTimes) : FloatRow where
  user := toFloat stat.user
  nice := toFloat stat.nice
  system := toFloat stat.system
  idle := toFloat stat.idle
  ioWait := toFloat stat.ioWait
  irq := toFloat stat.irq
  softIrq := toFloat stat.softIrq
  steal := toFloat stat.steal
  guest := toFloat stat.guest
  guestNice := toFloat stat.guestNice

/-- An addition of two `float` values. -/
def addFloat (a b : ℕ) : ℕ := rnd significandBits (a + b)

/-- `new_cpu_total_time`, added from left to right. -/
def floatTotalTime (row : FloatRow) : ℕ :=
  let sum := addFloat row.user row.system
  let sum := addFloat sum row.idle
  let sum := addFloat sum row.nice
  let sum := addFloat sum row.ioWait
  let sum := addFloat sum row.irq
  let sum := addFloat sum row.softIrq
  addFloat sum row.steal

/-- The total the agent computes from the kernel's counters. -/
def floatTotal (stat : CpuTimes) : ℕ := floatTotalTime (updateFloatRow stat)

/-- The counters that are added to the first one, in the order of the additions. -/
def laterCounters (stat : CpuTimes) : List ℕ :=
  [stat.system, stat.idle, stat.nice, stat.ioWait, stat.irq, stat.softIrq, stat.steal].map
    UInt64.toNat

def exactTotal (stat : CpuTimes) : ℕ := stat.user.toNat + (laterCounters stat).sum

/-- None of the counters in the total decreases. -/
structure NoneDecreases (old new : CpuTimes) : Prop where
  user : old.user ≤ new.user
  system : old.system ≤ new.system
  idle : old.idle ≤ new.idle
  nice : old.nice ≤ new.nice
  ioWait : old.ioWait ≤ new.ioWait
  irq : old.irq ≤ new.irq
  softIrq : old.softIrq ≤ new.softIrq
  steal : old.steal ≤ new.steal

/-- Samples as three seconds apart as the polls, with totals below a bound. -/
structure Progress (bound : ℕ) (old new : CpuTimes) : Prop where
  noneDecreases : NoneDecreases old new
  apart : exactTotal old + 3000000000 ≤ exactTotal new
  lt_bound : exactTotal new < bound

theorem floatTotal_eq (stat : CpuTimes) :
    floatTotal stat = addAll significandBits (toFloat stat.user)
      ((laterCounters stat).map (rnd significandBits)) := rfl

theorem NoneDecreases.laterCounters {old new : CpuTimes} (h : NoneDecreases old new) :
    List.Forall₂ (· ≤ ·) (laterCounters old) (laterCounters new) := by
  simp only [CpuPrecision.laterCounters, List.map_cons, List.map_nil, List.forall₂_cons,
    ← UInt64.le_iff_toNat_le]
  exact ⟨h.system, h.idle, h.nice, h.ioWait, h.irq, h.softIrq, h.steal, List.Forall₂.nil⟩

/-- The divisor is never negative. -/
theorem floatTotal_mono {old new : CpuTimes} (h : NoneDecreases old new) :
    floatTotal old ≤ floatTotal new := by
  rw [floatTotal_eq, floatTotal_eq]
  apply addAll_mono significandBits_pos (toFloat_mono (UInt64.le_iff_toNat_le.mp h.user))
  rw [List.forall₂_map_left_iff, List.forall₂_map_right_iff]
  exact h.laterCounters.imp (fun _ _ hle => rnd_mono significandBits_pos hle)

/-! ### The error of a total -/

theorem length_laterCounters (stat : CpuTimes) :
    ((laterCounters stat).map (rnd significandBits)).length = 7 := rfl

theorem two_pow_significandBits_add (e : ℕ) : 2 ^ (significandBits + e + 1) = 2 ^ 25 * 2 ^ e := by
  rw [significandBits, Nat.add_right_comm, pow_add]

/-- The rounded counters are off by at most one last bit of the total together. -/
theorem sum_toFloat_bounds {stat : CpuTimes} {e : ℕ}
    (h : exactTotal stat < 2 ^ (significandBits + e + 1)) :
    let rounded := toFloat stat.user + ((laterCounters stat).map (rnd significandBits)).sum
    exactTotal stat ≤ rounded + 2 * 2 ^ e ∧ rounded ≤ exactTotal stat + 2 * 2 ^ e := by
  obtain ⟨hbelow, habove⟩ := sum_rnd_relative significandBits_pos
    (stat.user.toNat :: laterCounters stat)
  rw [List.map_cons, List.sum_cons, List.sum_cons, ← exactTotal, ← toFloat] at hbelow habove
  rw [two_pow_significandBits_add] at h
  generalize toFloat stat.user + _ = rounded at hbelow habove ⊢
  generalize 2 ^ e = half at h ⊢
  simp only [significandBits] at hbelow habove
  omega

/-- The rounded total falls short of the exact one by at most nine halves of its last bit. -/
theorem exactTotal_le {stat : CpuTimes} {e : ℕ}
    (h : exactTotal stat < 2 ^ (significandBits + e + 1)) :
    exactTotal stat ≤ floatTotal stat + 9 * 2 ^ e := by
  have hcounters := (sum_toFloat_bounds h).1
  have hsum := min_le_addAll significandBits_pos e (toFloat stat.user)
    ((laterCounters stat).map (rnd significandBits))
  rw [← floatTotal_eq, length_laterCounters] at hsum
  generalize toFloat stat.user + _ = rounded at hcounters hsum
  omega

/-- It exceeds the exact total by at most as much. -/
theorem floatTotal_le {stat : CpuTimes} {e : ℕ}
    (h : exactTotal stat + 9 * 2 ^ e < 2 ^ (significandBits + e + 1)) :
    floatTotal stat ≤ exactTotal stat + 9 * 2 ^ e := by
  have hsmall : exactTotal stat < 2 ^ (significandBits + e + 1) := by omega
  have hcounters := (sum_toFloat_bounds hsmall).2
  have hsum := addAll_le significandBits_pos e (toFloat stat.user)
    ((laterCounters stat).map (rnd significandBits))
  rw [← floatTotal_eq, length_laterCounters] at hsum
  generalize toFloat stat.user + _ = rounded at hcounters hsum
  omega

/-- A step of more than nine last bits of the total is not lost, at any uptime. -/
theorem floatTotal_lt {old new : CpuTimes} {e : ℕ}
    (hbound : exactTotal new < 2 ^ (significandBits + e + 1))
    (hapart : exactTotal old + 18 * 2 ^ e < exactTotal new) : floatTotal old < floatTotal new := by
  have hold : floatTotal old ≤ exactTotal old + 9 * 2 ^ e := floatTotal_le (by omega)
  have hnew := exactTotal_le hbound
  omega

/-- The total of the exact row is the sum of the counters. -/
theorem totalTime_updateCpuStatRow {online : ℕ → Bool} (kcpustat : ℕ → CpuTimes)
    (cpu : Fin maxCpu) (row : CpuStatRow) (honline : online cpu = true) :
    totalTime (updateCpuStatRow online kcpustat cpu row) = exactTotal (kcpustat cpu) := by
  simp only [updateCpuStatRow, honline, if_true, totalTime, exactTotal, laterCounters,
    List.map_cons, List.map_nil, List.sum_cons, List.sum_nil, Nat.cast_add, Nat.cast_zero]
  ring

/-- The total in `float` is near the one of the exact row. -/
theorem floatTotal_near_totalTime {online : ℕ → Bool} (kcpustat : ℕ → CpuTimes)
    (cpu : Fin maxCpu) (row : CpuStatRow) (honline : online cpu = true) {e : ℕ}
    (h : exactTotal (kcpustat cpu) + 9 * 2 ^ e < 2 ^ (significandBits + e + 1)) :
    |(floatTotal (kcpustat cpu) : ℚ) -
      totalTime (updateCpuStatRow online kcpustat cpu row)| ≤ 9 * 2 ^ e := by
  have hbelow : (exactTotal (kcpustat cpu) : ℚ) ≤ floatTotal (kcpustat cpu) + 9 * 2 ^ e := by
    exact_mod_cast exactTotal_le (by omega)
  have habove : (floatTotal (kcpustat cpu) : ℚ) ≤ exactTotal (kcpustat cpu) + 9 * 2 ^ e := by
    exact_mod_cast floatTotal_le h
  rw [totalTime_updateCpuStatRow kcpustat cpu row honline, abs_le]
  constructor
  · linarith
  · linarith

/-! ### Three seconds -/

/-- Three seconds of progress change the rounded total, as long as the exact one is below a
bound. -/
def SeenBelow (bound : ℕ) : Prop :=
  ∀ old new, Progress (2 ^ 63) old new → exactTotal new < bound →
    floatTotal old ≠ floatTotal new

theorem seenBelow_two_pow : SeenBelow (2 ^ 52) := by
  intro old new hprogress hbound
  have hapart := hprogress.apart
  exact (floatTotal_lt (e := 27) hbound (by omega)).ne

/-- A sample that is rounded upwards everywhere. -/
def roundedUp : CpuTimes where
  user := 4503600432676864
  system := 268435488
  idle := 268435488
  nice := 268435488
  ioWait := 268435488
  irq := 268435488
  softIrq := 268435488
  steal := 268435488
  guest := 0
  guestNice := 0

/-- A sample more than four seconds later that is rounded downwards everywhere. -/
def roundedDown : CpuTimes where
  user := 4503600969547776
  system := 805306304
  idle := 805306304
  nice := 805306304
  ioWait := 805306304
  irq := 805306304
  softIrq := 805306304
  steal := 805306304
  guest := 0
  guestNice := 0

theorem progress_rounded : Progress (2 ^ 63) roundedUp roundedDown := by
  refine ⟨⟨?_, ?_, ?_, ?_, ?_, ?_, ?_, ?_⟩, ?_, ?_⟩ <;> decide

theorem floatTotal_rounded : floatTotal roundedUp = floatTotal roundedDown := by
  decide

/-- No bound that admits the two samples is small enough. -/
theorem SeenBelow.bound_le {bound : ℕ} (h : SeenBelow bound) :
    bound ≤ exactTotal roundedDown := by
  by_contra hlarge
  exact h roundedUp roundedDown progress_rounded (not_le.mp hlarge) floatTotal_rounded

/-- Three seconds of progress are seen whenever the exact totals are below `2 ^ 52`; for all
samples below a power of two exactly up to that one, and below no bound seven seconds above
it. -/
theorem progress_survives_iff (old new : CpuTimes) (k bound : ℕ) :
    (Progress (2 ^ 63) old new → exactTotal new < 2 ^ 52 → floatTotal old ≠ floatTotal new) ∧
      (SeenBelow (2 ^ k) ↔ k ≤ 52) ∧ (SeenBelow bound → bound < 2 ^ 52 + 7000000000) := by
  have htotal : exactTotal roundedDown < 2 ^ 52 + 7000000000 := by decide
  refine ⟨seenBelow_two_pow old new, ⟨?_, ?_⟩, fun h => h.bound_le.trans_lt htotal⟩
  · intro h
    by_contra hlarge
    have hpow : 2 ^ 53 ≤ 2 ^ k := Nat.pow_le_pow_right (by norm_num) (by omega)
    have hbound := h.bound_le
    omega
  · intro hsmall old new hprogress hbound
    have hpow : 2 ^ k ≤ 2 ^ 52 := Nat.pow_le_pow_right (by norm_num) hsmall
    exact seenBelow_two_pow old new hprogress (hbound.trans_le hpow)

/-- Three idle seconds from the start on. -/
theorem progress_survives_at_start :
    floatTotal ⟨0, 0, 0, 0, 0, 0, 0, 0, 0, 0⟩ ≠
      floatTotal ⟨0, 0, 0, 0, 0, 3000000000, 0, 0, 0, 0⟩ := by
  apply (progress_survives_iff _ _ 52 0).1
  · refine ⟨⟨?_, ?_, ?_, ?_, ?_, ?_, ?_, ?_⟩, ?_, ?_⟩ <;> decide
  · decide

/-- After 52 days a step of more than four seconds leaves the divisor at zero. -/
theorem rounded_progress_lost :
    ¬ ∀ old new, Progress (2 ^ 63) old new → floatTotal old ≠ floatTotal new := by
  intro h
  exact h roundedUp roundedDown progress_rounded floatTotal_rounded

end NodeMonitor.CpuPrecision
