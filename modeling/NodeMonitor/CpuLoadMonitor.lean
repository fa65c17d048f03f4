import NodeMonitor.FloatRounding
import NodeMonitor.Ranking

/-!
The load averages from the kernel to the score. The kernel keeps them in units of one
2048th; every second its module converts them to `float` and stores the quotients in a
record that the agent copies. The conversion rounds to 24 bits, which no load term of the
score can show while the number of cores is far below 2 ^ 13.
-/

namespace NodeMonitor.CpuLoadMonitor

open FloatRounding Messages Ranking Readings Score

/-- `FIXED_1`. -/
def fixed1 : ℕ := 2 ^ 11

/-- `avenrun`, over one minute and the two longer periods. -/
structure Avenrun where
  load1 : UInt64
  load3 : UInt64
  load15 : UInt64

/-- `struct cpu_load`, zero after `vzalloc`. -/
structure CpuLoadRow where
  loadAvg1 : ℚ := 0
  loadAvg3 : ℚ := 0
  loadAvg15 : ℚ := 0
deriving DecidableEq

/-- `(float)n / FIXED_1`; dividing by a power of two is exact. -/
def loadFloat (n : UInt64) : ℚ := toFloat n / fixed1

def updateCpuLoad (avenrun : Avenrun) : CpuLoadRow where
  loadAvg1 := loadFloat avenrun.load1
  loadAvg3 := loadFloat avenrun.load3
  loadAvg15 := loadFloat avenrun.load15

/-- The record after the timer callbacks so far, each at a reading of `avenrun`. -/
def tableAfter (ticks : List Avenrun) : CpuLoadRow :=
  ticks.foldl (fun _ avenrun => updateCpuLoad avenrun) {}

/-- One poll; `none` stands for a device that cannot be opened or mapped. -/
def updateOnce (mapped : Option CpuLoadRow) (info : MonitorInfo) : MonitorInfo :=
  match mapped with
  | none => info
  | some row =>
    let message : CpuLoad :=
      { loadAvg1 := row.loadAvg1, loadAvg3 := row.loadAvg3, loadAvg15 := row.loadAvg15 }
    { info with cpuLoad := some message }

/-! ### Conversion -/

theorem fixed1_pos : (0 : ℚ) < fixed1 := by
  norm_num [fixed1]

theorem le_div_fixed1_iff (cores n : ℕ) : (cores : ℚ) ≤ n / fixed1 ↔ cores * fixed1 ≤ n := by
  rw [le_div_iff₀ fixed1_pos]
  exact_mod_cast Iff.rfl

/-- A load below the number of cores has at most 24 bits, and the others stay above. -/
theorem unused_loadFloat (n : UInt64) {cores : ℕ} (hpos : 0 < cores) (hcores : cores < 2 ^ 13) :
    unused (loadFloat n) cores = unused (n.toNat / fixed1) cores := by
  rcases Nat.lt_or_ge n.toNat (2 ^ significandBits) with hlt | hge
  · rw [loadFloat, toFloat, rnd_of_lt significandBits_pos hlt]
  · have hcapacity : cores * fixed1 ≤ 2 ^ significandBits := by
      simp only [fixed1, significandBits]
      omega
    have hrounded : 2 ^ significandBits ≤ toFloat n := by
      rw [← rnd_two_pow significandBits_pos significandBits]
      exact rnd_mono significandBits_pos hge
    have hexact := (le_div_fixed1_iff cores n.toNat).mpr (hcapacity.trans hge)
    have hfloat := (le_div_fixed1_iff cores (toFloat n)).mpr (hcapacity.trans hrounded)
    have hcoresPos : (0 : ℚ) < cores := by exact_mod_cast hpos
    rw [loadFloat, (unused_eq_zero_iff hcoresPos).mpr hexact,
      (unused_eq_zero_iff hcoresPos).mpr hfloat]

/-- The conversion keeps the order and is off by at most one part in `2 ^ 24`. -/
theorem loadFloat_mono {m n : UInt64} (h : m ≤ n) : loadFloat m ≤ loadFloat n := by
  have hround : toFloat m ≤ toFloat n := toFloat_mono (UInt64.le_iff_toNat_le.mp h)
  exact div_le_div_of_nonneg_right (by exact_mod_cast hround) fixed1_pos.le

theorem abs_loadFloat_sub (n : UInt64) :
    2 ^ significandBits * |loadFloat n - n.toNat / fixed1| ≤ n.toNat / fixed1 := by
  obtain ⟨hbelow, habove⟩ := rnd_relative significandBits_pos n.toNat
  have herror : 2 ^ significandBits * |(toFloat n : ℚ) - n.toNat| ≤ n.toNat := by
    have hlow : (2 ^ significandBits * n.toNat : ℚ) ≤
        2 ^ significandBits * toFloat n + n.toNat := by exact_mod_cast hbelow
    have hhigh : (2 ^ significandBits * toFloat n : ℚ) ≤
        2 ^ significandBits * n.toNat + n.toNat := by exact_mod_cast habove
    rcases abs_cases ((toFloat n : ℚ) - n.toNat) with ⟨heq, _⟩ | ⟨heq, _⟩
    · rw [heq]
      linarith
    · rw [heq]
      linarith
  have hsplit : loadFloat n - n.toNat / fixed1 = (toFloat n - n.toNat) / fixed1 := by
    rw [loadFloat, sub_div]
  rw [hsplit, abs_div, abs_of_pos fixed1_pos, ← mul_div_assoc]
  exact div_le_div_of_nonneg_right herror fixed1_pos.le

/-! ### Runs -/

/-- The last reading of the one-minute load, zero before the first callback. -/
def lastLoad (ticks : List Avenrun) : ℕ := (ticks.getLast?.map (fun a => a.load1.toNat)).getD 0

theorem loadAvg1_tableAfter (ticks : List Avenrun) :
    ∃ n : UInt64, (tableAfter ticks).loadAvg1 = loadFloat n ∧ n.toNat = lastLoad ticks := by
  induction ticks using List.reverseRecOn with
  | nil => exact ⟨0, by simp [tableAfter, loadFloat, toFloat, rnd_of_lt significandBits_pos], rfl⟩
  | append_singleton ticks last _ =>
    exact ⟨last.load1, by simp [tableAfter, updateCpuLoad], by simp [lastLoad]⟩

/-- The load term of the score is that of the kernel's own number. -/
theorem loadScore_updateOnce (n : UInt64) (row : CpuLoadRow) (hrow : row.loadAvg1 = loadFloat n)
    (info : MonitorInfo) (hcores : (metrics info).cpuCores < 2 ^ 13) :
    loadScore (metrics (updateOnce (some row) info)) =
      unused (n.toNat / fixed1) (metrics info).cpuCores := by
  rw [← unused_loadFloat n (cpuCores_pos info) hcores, ← hrow]
  exact clampBelow_eq_max _

end NodeMonitor.CpuLoadMonitor
