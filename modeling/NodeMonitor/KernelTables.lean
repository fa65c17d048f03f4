import NodeMonitor.CharBuffers
import Mathlib.Algebra.Order.Field.Rat
import Mathlib.Data.String.Basic

/-!
The per-CPU tables shared by the kernel modules and the agent. A timer update
visits every row: the row of an online CPU gets its name and the kernel's counters,
the row of an offline CPU only has the first byte of its name cleared, so its
counters stay behind. Conversions to `float` are exact.
-/

namespace NodeMonitor.KernelTables

open CharBuffers

def maxCpu : ℕ := 128

/-- `struct cpu_stat`. -/
structure CpuStatRow where
  cpuName : CharBuffer 16
  user : ℚ := 0
  system : ℚ := 0
  idle : ℚ := 0
  nice : ℚ := 0
  ioWait : ℚ := 0
  irq : ℚ := 0
  softIrq : ℚ := 0
  steal : ℚ := 0
  guest : ℚ := 0
  guestNice : ℚ := 0

/-- `struct softirq_stat`. -/
structure SoftirqRow where
  cpuName : CharBuffer 16
  hi : UInt64 := 0
  timer : UInt64 := 0
  netTx : UInt64 := 0
  netRx : UInt64 := 0
  block : UInt64 := 0
  irqPoll : UInt64 := 0
  tasklet : UInt64 := 0
  sched : UInt64 := 0
  hrtimer : UInt64 := 0
  rcu : UInt64 := 0

/-- A shared table, one row for each of the first `MAX_CPU` CPU ids. -/
abbrev Table (Row : Type) := Fin maxCpu → Row

/-- `vzalloc` leaves every byte zero. -/
def zeroName : CharBuffer 16 := fun _ => nul

/-- `cpu_name[0] == '\0'`, by which readers recognize a row without a CPU. -/
def unnamed (name : CharBuffer 16) : Bool := name 0 = nul

theorem unnamed_iff (name : CharBuffer 16) : unnamed name = true ↔ cString name = "" := by
  rw [unnamed, decide_eq_true_eq]
  exact (cString_eq_empty_iff name).symm

/-- The text of `"cpu%d"`. -/
def cpuLabel (cpu : ℕ) : List Char := ['c', 'p', 'u'] ++ Nat.toDigits 10 cpu

/-- The kernel's accounting for one CPU, `kcpustat_cpu(cpu).cpustat`. -/
structure CpuTimes where
  user : UInt64
  nice : UInt64
  system : UInt64
  softIrq : UInt64
  irq : UInt64
  idle : UInt64
  ioWait : UInt64
  steal : UInt64
  guest : UInt64
  guestNice : UInt64

/-- The kernel's soft interrupt counts for one CPU, `kstat_softirqs_cpu(.., cpu)`. -/
structure SoftirqCounts where
  hi : UInt64
  timer : UInt64
  netTx : UInt64
  netRx : UInt64
  block : UInt64
  irqPoll : UInt64
  tasklet : UInt64
  sched : UInt64
  hrtimer : UInt64
  rcu : UInt64

/-- The body of the loop in `update_cpu_stats`. -/
def updateCpuStatRow (online : ℕ → Bool) (kcpustat : ℕ → CpuTimes) (cpu : Fin maxCpu)
    (row : CpuStatRow) : CpuStatRow :=
  if online cpu then
    let stat := kcpustat cpu
    { cpuName := snprintf row.cpuName (cpuLabel cpu)
      user := stat.user.toNat
      nice := stat.nice.toNat
      system := stat.system.toNat
      idle := stat.idle.toNat
      ioWait := stat.ioWait.toNat
      irq := stat.irq.toNat
      softIrq := stat.softIrq.toNat
      steal := stat.steal.toNat
      guest := stat.guest.toNat
      guestNice := stat.guestNice.toNat }
  else { row with cpuName := clear row.cpuName }

/-- The body of the loop in `update_softirq_stats`. -/
def updateSoftirqRow (online : ℕ → Bool) (kstat : ℕ → SoftirqCounts) (cpu : Fin maxCpu)
    (row : SoftirqRow) : SoftirqRow :=
  if online cpu then
    let stat := kstat cpu
    { cpuName := snprintf row.cpuName (cpuLabel cpu)
      hi := stat.hi
      timer := stat.timer
      netTx := stat.netTx
      netRx := stat.netRx
      block := stat.block
      irqPoll := stat.irqPoll
      tasklet := stat.tasklet
      sched := stat.sched
      hrtimer := stat.hrtimer
      rcu := stat.rcu }
  else { row with cpuName := clear row.cpuName }

/-- `"cpu%d"` fits the name field for every id below `MAX_CPU`. -/
theorem cpuLabel_length_lt (cpu : Fin maxCpu) : (cpuLabel cpu).length < 16 := by
  have hdigits : (Nat.toDigits 10 cpu.val).length ≤ 3 := by
    apply (Nat.length_toDigits_le_iff (by omega) (by omega)).mpr
    have hcpu : cpu.val < 128 := cpu.isLt
    omega
  simp only [cpuLabel, List.length_append, List.length_cons, List.length_nil]
  omega

theorem nul_notMem_cpuLabel (cpu : ℕ) : nul ∉ cpuLabel cpu := by
  intro h
  rw [cpuLabel, List.mem_append] at h
  rcases h with hprefix | hdigit
  · exact absurd hprefix (by decide)
  · exact absurd (Nat.isDigit_of_mem_toDigits (by omega) (by omega) hdigit) (by decide)

theorem cpuLabel_injective : Function.Injective cpuLabel := by
  intro i j h
  have hdigits : Nat.toDigits 10 i = Nat.toDigits 10 j := List.append_cancel_left h
  calc
    i = Nat.ofDigitChars 10 (Nat.toDigits 10 i) 0 := Nat.ofDigitChars_ten_toDigits.symm
    _ = Nat.ofDigitChars 10 (Nat.toDigits 10 j) 0 := by rw [hdigits]
    _ = j := Nat.ofDigitChars_ten_toDigits

/-- The name a CPU's row carries, `cpu<id>`. -/
def cpuName (cpu : ℕ) : String := String.ofList (cpuLabel cpu)

theorem cpuName_ne_empty (cpu : ℕ) : cpuName cpu ≠ "" := by
  intro h
  have hlabel : cpuLabel cpu = [] := String.ofList_injective h
  simp [cpuLabel] at hlabel

theorem cString_label (b : CharBuffer 16) (cpu : Fin maxCpu) :
    cString (snprintf b (cpuLabel cpu)) = cpuName cpu :=
  cString_snprintf b _ (cpuLabel_length_lt cpu) (nul_notMem_cpuLabel cpu)

/-- A kernel module's table: its zeroed row, the name field of a row and the body of
the update loop, which labels the rows of exactly the CPUs that are online. -/
structure TableWriter (Row Counts : Type) where
  zeroed : Row
  name : Row → CharBuffer 16
  updateRow : (ℕ → Bool) → (ℕ → Counts) → Fin maxCpu → Row → Row
  name_zeroed : cString (name zeroed) = ""
  name_updateRow : ∀ online counts cpu row,
    cString (name (updateRow online counts cpu row)) = if online cpu then cpuName cpu else ""

/-- The update loop, which treats every row by itself. -/
def TableWriter.update {Row Counts : Type} (w : TableWriter Row Counts) (online : ℕ → Bool)
    (counts : ℕ → Counts) (table : Table Row) : Table Row :=
  fun cpu => w.updateRow online counts cpu (table cpu)

theorem cString_zeroName : cString zeroName = "" := (cString_eq_empty_iff _).mpr rfl

/-- `update_cpu_stats` and its table. -/
def cpuStats : TableWriter CpuStatRow CpuTimes where
  zeroed := { cpuName := zeroName }
  name := CpuStatRow.cpuName
  updateRow := updateCpuStatRow
  name_zeroed := cString_zeroName
  name_updateRow online kcpustat cpu row := by
    by_cases h : online cpu
    · simp only [updateCpuStatRow, h, if_true]
      exact cString_label row.cpuName cpu
    · simp only [updateCpuStatRow, h, if_false, Bool.false_eq_true]
      exact cString_clear row.cpuName

/-- `update_softirq_stats` and its table. -/
def softirqStats : TableWriter SoftirqRow SoftirqCounts where
  zeroed := { cpuName := zeroName }
  name := SoftirqRow.cpuName
  updateRow := updateSoftirqRow
  name_zeroed := cString_zeroName
  name_updateRow online kstat cpu row := by
    by_cases h : online cpu
    · simp only [updateSoftirqRow, h, if_true]
      exact cString_label row.cpuName cpu
    · simp only [updateSoftirqRow, h, if_false, Bool.false_eq_true]
      exact cString_clear row.cpuName

end NodeMonitor.KernelTables
