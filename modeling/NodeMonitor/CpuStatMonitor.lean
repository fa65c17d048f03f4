import NodeMonitor.KernelTables
import NodeMonitor.KeyedMaps
import NodeMonitor.Messages
import NodeMonitor.PrefixScans
import NodeMonitor.Runs
import Mathlib.Tactic.Linarith

/-!
The CPU monitor. A poll reads the mapped table up to the first row without a name;
a row whose name was read before is published as percentages of the time since
that earlier row, and every row read becomes the baseline of its name. The divisor
of all percentages is the advance of the row's total, which nothing checks.
-/

namespace NodeMonitor.CpuStatMonitor

open CharBuffers KernelTables KeyedMaps Messages PrefixScans Runs

def rowName (row : CpuStatRow) : String := cString row.cpuName

def totalTime (row : CpuStatRow) : ℚ :=
  row.user + row.system + row.idle + row.nice + row.ioWait + row.irq + row.softIrq + row.steal

def busyTime (row : CpuStatRow) : ℚ :=
  row.user + row.system + row.nice + row.irq + row.softIrq + row.steal

/-- `new_cpu_total_time - old_cpu_total_time`, what every percentage is divided by. -/
def totalAdvance (new old : CpuStatRow) : ℚ := totalTime new - totalTime old

/-- The published entry. Steal and guest shares are not set in the source. -/
def cpuStatMessage (new old : CpuStatRow) : CpuStat where
  cpuName := rowName new
  cpuPercent := (busyTime new - busyTime old) / totalAdvance new old * 100
  usrPercent := (new.user - old.user) / totalAdvance new old * 100
  systemPercent := (new.system - old.system) / totalAdvance new old * 100
  nicePercent := (new.nice - old.nice) / totalAdvance new old * 100
  idlePercent := (new.idle - old.idle) / totalAdvance new old * 100
  ioWaitPercent := (new.ioWait - old.ioWait) / totalAdvance new old * 100
  irqPercent := (new.irq - old.irq) / totalAdvance new old * 100
  softIrqPercent := (new.softIrq - old.softIrq) / totalAdvance new old * 100

/-- `cpu_stat_map_`, the latest row read under each name. -/
abbrev Baselines := KeyedMap String CpuStatRow

/-- The body of the loop for a row with a name. -/
def readRow (acc : Baselines × List CpuStat) (row : CpuStatRow) : Baselines × List CpuStat :=
  (assign acc.1 (rowName row) row,
    match acc.1 (rowName row) with
    | none => acc.2
    | some old => acc.2 ++ [cpuStatMessage row old])

/-- The loop over the rows, left at the first row without a name. -/
def readRows (acc : Baselines × List CpuStat) : List CpuStatRow → Baselines × List CpuStat
  | [] => acc
  | row :: rest => if unnamed row.cpuName then acc else readRows (readRow acc row) rest

/-- One poll; `none` stands for a device that cannot be opened or mapped. -/
def updateOnce (s : Baselines) (mapped : Option (Table CpuStatRow)) (info : MonitorInfo) :
    Baselines × MonitorInfo :=
  match mapped with
  | none => (s, info)
  | some stats =>
    let result := readRows (s, info.cpuStat) (List.ofFn stats)
    (result.1, { info with cpuStat := result.2 })

/-! ### The rows a run reads -/

def named (row : CpuStatRow) : Bool := !unnamed row.cpuName

/-- The rows a poll reads: those before the first row without a name. -/
def rowsRead (mapped : Option (Table CpuStatRow)) : List CpuStatRow :=
  match mapped with
  | none => []
  | some stats => (List.ofFn stats).takeWhile named

theorem readRows_eq (acc : Baselines × List CpuStat) (rows : List CpuStatRow) :
    readRows acc rows = (rows.takeWhile named).foldl readRow acc := by
  induction rows generalizing acc with
  | nil => rfl
  | cons row rest ih =>
    by_cases h : unnamed row.cpuName
    · simp [readRows, named, h]
    · simp [readRows, named, h, ih]

/-- The baselines after reading one more row. -/
def storeRow (s : Baselines) (row : CpuStatRow) : Baselines := assign s (rowName row) row

/-- An entry is emitted for a row whose name has a baseline: the row and the baseline. -/
def emission (v : Baselines × CpuStatRow) : Option (CpuStatRow × CpuStatRow) :=
  (v.1 (rowName v.2)).map (fun old => (v.2, old))

def emissions (s : Baselines) (rows : List CpuStatRow) : List (CpuStatRow × CpuStatRow) :=
  (visits storeRow s rows).filterMap emission

theorem foldl_readRow (s : Baselines) (out : List CpuStat) (rows : List CpuStatRow) :
    rows.foldl readRow (s, out) = (rows.foldl storeRow s,
      out ++ (emissions s rows).map (fun e => cpuStatMessage e.1 e.2)) := by
  induction rows generalizing s out with
  | nil => simp [emissions, visits]
  | cons row rest ih =>
    rw [List.foldl_cons, List.foldl_cons]
    cases hold : s (rowName row) with
    | none =>
      have hread : readRow (s, out) row = (storeRow s row, out) := by
        simp [readRow, storeRow, hold]
      rw [hread, ih]
      simp [emissions, visits, emission, hold]
    | some old =>
      have hread : readRow (s, out) row = (storeRow s row, out ++ [cpuStatMessage row old]) := by
        simp [readRow, storeRow, hold]
      rw [hread, ih]
      simp [emissions, visits, emission, hold]

/-- A poll adds one entry for each emission among the rows it reads, and stores
every row read. -/
theorem updateOnce_eq (s : Baselines) (mapped : Option (Table CpuStatRow)) (info : MonitorInfo) :
    updateOnce s mapped info = ((rowsRead mapped).foldl storeRow s, { info with
      cpuStat := info.cpuStat ++
        (emissions s (rowsRead mapped)).map (fun e => cpuStatMessage e.1 e.2) }) := by
  cases mapped with
  | none => simp [updateOnce, rowsRead, emissions, visits]
  | some stats =>
    simp only [updateOnce, rowsRead, readRows_eq, foldl_readRow]

/-- The baselines after a poll, whatever the message it fills. -/
def pollBaselines (s : Baselines) (mapped : Option (Table CpuStatRow)) : Baselines :=
  (updateOnce s mapped MonitorInfo.default).1

theorem pollBaselines_eq (s : Baselines) (mapped : Option (Table CpuStatRow)) :
    pollBaselines s mapped = (rowsRead mapped).foldl storeRow s := by
  rw [pollBaselines, updateOnce_eq]

/-- Everything emitted in a run of polls that starts without baselines. -/
def runEmissions (polls : List (Option (Table CpuStatRow))) : List (CpuStatRow × CpuStatRow) :=
  (visits pollBaselines empty polls).flatMap (fun v => emissions v.1 (rowsRead v.2))

/-- All rows read in a run, poll after poll. -/
def runRows (polls : List (Option (Table CpuStatRow))) : List CpuStatRow :=
  polls.flatMap rowsRead

theorem emissions_append (s : Baselines) (left right : List CpuStatRow) :
    emissions s (left ++ right) =
      emissions s left ++ emissions (left.foldl storeRow s) right := by
  simp only [emissions, visits_append, List.filterMap_append]

theorem flatMap_emissions (s : Baselines) (polls : List (Option (Table CpuStatRow))) :
    (visits pollBaselines s polls).flatMap (fun v => emissions v.1 (rowsRead v.2)) =
      emissions s (runRows polls) := by
  induction polls generalizing s with
  | nil => rfl
  | cons mapped rest ih =>
    simp only [visits, List.flatMap_cons, ih, runRows, emissions_append, pollBaselines_eq]

theorem foldl_storeRow (s : Baselines) (rows : List CpuStatRow) :
    rows.foldl storeRow s = assignAll rowName id s rows := rfl

/-- An emission compares a row with the latest earlier row of its name. -/
theorem mem_runEmissions_iff (polls : List (Option (Table CpuStatRow))) (new old : CpuStatRow) :
    (new, old) ∈ runEmissions polls ↔ ∃ pre post, runRows polls = pre ++ new :: post ∧
      latest rowName (rowName new) pre = some old := by
  rw [runEmissions, flatMap_emissions, emissions, List.mem_filterMap]
  constructor
  · intro h
    obtain ⟨v, hv, hemission⟩ := h
    obtain ⟨pre, post, hsplit, hstate⟩ := (mem_visits_iff _ _ _ _ _).mp hv
    rw [emission, Option.map_eq_some_iff] at hemission
    obtain ⟨row, hrow, heq⟩ := hemission
    obtain ⟨hnew, hold⟩ := Prod.mk.inj heq
    rw [hstate, foldl_storeRow, assignAll_empty_apply, Option.map_id, id] at hrow
    rw [← hnew, ← hold]
    exact ⟨pre, post, hsplit, hrow⟩
  · intro h
    obtain ⟨pre, post, hsplit, hlatest⟩ := h
    refine ⟨(pre.foldl storeRow empty, new), (mem_visits_iff _ _ _ _ _).mpr
      ⟨pre, post, hsplit, rfl⟩, ?_⟩
    have hstate : pre.foldl storeRow empty (rowName new) = some old := by
      rw [foldl_storeRow, assignAll_empty_apply, Option.map_id, id, hlatest]
    simp only [emission, hstate, Option.map_some]

/-! ### The divisor -/

/-- No counter of the total is smaller than in the older row. -/
def NotBelow (new old : CpuStatRow) : Prop :=
  old.user ≤ new.user ∧ old.system ≤ new.system ∧ old.idle ≤ new.idle ∧
    old.nice ≤ new.nice ∧ old.ioWait ≤ new.ioWait ∧ old.irq ≤ new.irq ∧
    old.softIrq ≤ new.softIrq ∧ old.steal ≤ new.steal

/-- Some counter of the total is larger than in the older row. -/
def Moved (new old : CpuStatRow) : Prop :=
  old.user < new.user ∨ old.system < new.system ∨ old.idle < new.idle ∨
    old.nice < new.nice ∨ old.ioWait < new.ioWait ∨ old.irq < new.irq ∨
    old.softIrq < new.softIrq ∨ old.steal < new.steal

theorem totalAdvance_pos_of_moved (new old : CpuStatRow) (h : NotBelow new old)
    (hmoved : Moved new old) : 0 < totalAdvance new old := by
  obtain ⟨h1, h2, h3, h4, h5, h6, h7, h8⟩ := h
  unfold totalAdvance totalTime
  rcases hmoved with hm | hm | hm | hm | hm | hm | hm | hm <;> linarith

theorem totalAdvance_eq_zero_of_not_moved (new old : CpuStatRow) (h : NotBelow new old)
    (hmoved : ¬ Moved new old) : totalAdvance new old = 0 := by
  obtain ⟨h1, h2, h3, h4, h5, h6, h7, h8⟩ := h
  simp only [Moved, not_or, not_lt] at hmoved
  obtain ⟨m1, m2, m3, m4, m5, m6, m7, m8⟩ := hmoved
  unfold totalAdvance totalTime
  linarith

theorem totalAdvance_ne_zero_iff (new old : CpuStatRow) (h : NotBelow new old) :
    totalAdvance new old ≠ 0 ↔ Moved new old := by
  constructor
  · intro hne
    by_contra hmoved
    exact hne (totalAdvance_eq_zero_of_not_moved new old h hmoved)
  · intro hmoved
    exact (totalAdvance_pos_of_moved new old h hmoved).ne'

/-- A relation between every row read and the latest earlier row of its name. -/
def AcrossPolls (R : CpuStatRow → CpuStatRow → Prop)
    (polls : List (Option (Table CpuStatRow))) : Prop :=
  ∀ pre new post old, runRows polls = pre ++ new :: post →
    latest rowName (rowName new) pre = some old → R new old

/-- When no CPU's counters decrease, every percentage of a run is divided by a
nonzero number exactly when at least one counter of a CPU moves between any two
consecutive readings of its row. -/
theorem percentages_defined_iff (polls : List (Option (Table CpuStatRow)))
    (hmono : AcrossPolls NotBelow polls) :
    (∀ e ∈ runEmissions polls, totalAdvance e.1 e.2 ≠ 0) ↔ AcrossPolls Moved polls := by
  constructor
  · intro hdefined pre new post old hsplit hlatest
    have hmem := (mem_runEmissions_iff polls new old).mpr ⟨pre, post, hsplit, hlatest⟩
    have hbelow := hmono pre new post old hsplit hlatest
    exact (totalAdvance_ne_zero_iff new old hbelow).mp (hdefined _ hmem)
  · intro hmoved e he
    obtain ⟨pre, post, hsplit, hlatest⟩ := (mem_runEmissions_iff polls e.1 e.2).mp he
    have hbelow := hmono pre e.1 post e.2 hsplit hlatest
    exact (totalAdvance_ne_zero_iff e.1 e.2 hbelow).mpr (hmoved pre e.1 post e.2 hsplit hlatest)

/-- A machine with one CPU, whose counters all read `t`. -/
def singleCpu (t : ℚ) : Table CpuStatRow := fun cpu =>
  if cpu.val = 0 then
    { cpuName := snprintf zeroName (cpuLabel 0)
      user := t, system := t, idle := t, nice := t, ioWait := t, irq := t, softIrq := t,
      steal := t }
  else { cpuName := zeroName }

theorem rowsRead_singleCpu (t : ℚ) :
    rowsRead (some (singleCpu t)) = [singleCpu t ⟨0, by decide⟩] := by
  have hlabel : unnamed (snprintf zeroName (cpuLabel 0)) = false := by decide
  have hzero : unnamed zeroName = true := by decide
  apply takeWhile_ofFn_one (singleCpu t : Fin (126 + 2) → CpuStatRow) named
  · simp [named, singleCpu, hlabel]
  · simp [named, singleCpu, hzero]

theorem runRows_singleCpu (t u : ℚ) :
    runRows [some (singleCpu t), some (singleCpu u)] =
      [singleCpu t ⟨0, by decide⟩, singleCpu u ⟨0, by decide⟩] := by
  simp only [runRows, List.flatMap_cons, List.flatMap_nil, rowsRead_singleCpu, List.append_nil,
    List.singleton_append]

/-- In a run of two polls of the single CPU the second reading follows the first. -/
theorem acrossPolls_singleCpu (R : CpuStatRow → CpuStatRow → Prop) (t u : ℚ)
    (h : R (singleCpu u ⟨0, by decide⟩) (singleCpu t ⟨0, by decide⟩)) :
    AcrossPolls R [some (singleCpu t), some (singleCpu u)] := by
  intro pre new post old hsplit hlatest
  rw [runRows_singleCpu] at hsplit
  rcases pre with _ | ⟨first, _ | ⟨second, pre⟩⟩
  · simp at hlatest
  · simp only [List.cons_append, List.nil_append, List.cons.injEq] at hsplit
    obtain ⟨hfirst, hnew, _⟩ := hsplit
    have hold := List.mem_singleton.mp (latest_mem rowName hlatest).1
    rw [hold, ← hfirst, ← hnew]
    exact h
  · have hlength := congrArg List.length hsplit
    simp only [List.length_cons, List.length_nil, List.length_append] at hlength
    omega

/-- The second reading is emitted against the first. -/
theorem mem_runEmissions_singleCpu (t u : ℚ) :
    (singleCpu u ⟨0, by decide⟩, singleCpu t ⟨0, by decide⟩) ∈
      runEmissions [some (singleCpu t), some (singleCpu u)] := by
  have hname : rowName (singleCpu t ⟨0, by decide⟩) = rowName (singleCpu u ⟨0, by decide⟩) := rfl
  refine (mem_runEmissions_iff _ _ _).mpr
    ⟨[singleCpu t ⟨0, by decide⟩], [], runRows_singleCpu t u, ?_⟩
  simp [latest, hname]

/-- Two polls of a CPU that has moved emit one entry, with a nonzero divisor. -/
theorem percentages_defined_single :
    (singleCpu 2 ⟨0, by decide⟩, singleCpu 1 ⟨0, by decide⟩) ∈
        runEmissions [some (singleCpu 1), some (singleCpu 2)] ∧
      ∀ e ∈ runEmissions [some (singleCpu 1), some (singleCpu 2)],
        totalAdvance e.1 e.2 ≠ 0 := by
  refine ⟨mem_runEmissions_singleCpu 1 2, ?_⟩
  apply (percentages_defined_iff _ (acrossPolls_singleCpu NotBelow 1 2 ?_)).mpr
  · apply acrossPolls_singleCpu Moved 1 2
    norm_num [Moved, singleCpu]
  · norm_num [NotBelow, singleCpu]

/-- Two polls between which nothing moved, such as two polls within one tick of the
kernel timer, divide by zero. -/
theorem unmoved_table_divides_by_zero :
    ¬ ∀ polls : List (Option (Table CpuStatRow)), AcrossPolls NotBelow polls →
      ∀ e ∈ runEmissions polls, totalAdvance e.1 e.2 ≠ 0 := by
  intro h
  have hmono : AcrossPolls NotBelow [some (singleCpu 1), some (singleCpu 1)] :=
    acrossPolls_singleCpu NotBelow 1 1 (by norm_num [NotBelow])
  exact h _ hmono _ (mem_runEmissions_singleCpu 1 1) (sub_self _)

end NodeMonitor.CpuStatMonitor
