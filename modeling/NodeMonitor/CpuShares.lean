import NodeMonitor.Baselines
import NodeMonitor.CpuStatMonitor
import NodeMonitor.Readings
import Mathlib.Tactic.Ring

/-!
The shares of time a CPU entry publishes. An entry compares a row with the row of its
name in the most recent earlier poll that read one; busy, idle and waiting time make
up all of the time in between. The steal share is part of the busy time and of the
total, but the entry has no value for it.
-/

namespace NodeMonitor.CpuShares

open Baselines CpuStatMonitor KernelTables KeyedMaps Messages Runs

/-- What a poll maps. -/
abbrev Mapped := Option (Table CpuStatRow)

/-- No two rows with a name have the same one. -/
def DistinctNames (mapped : Mapped) : Prop :=
  ∀ stats, mapped = some stats → ∀ i j, rowName (stats i) = rowName (stats j) →
    rowName (stats i) ≠ "" → i = j

/-- The row of a name a poll reads. -/
def rowOf (name : String) (mapped : Mapped) : Option CpuStatRow :=
  latest rowName name (rowsRead mapped)

/-- The rows read under a name, poll after poll. -/
def readings (name : String) (polls : List Mapped) : List CpuStatRow :=
  polls.filterMap (rowOf name)

/-- The row of a name in the most recent poll that read one. -/
def lastRead (polls : List Mapped) (name : String) : Option CpuStatRow :=
  (readings name polls).getLast?

/-- The entries a poll publishes into a fresh message. -/
def published (before : List Mapped) (mapped : Mapped) : List CpuStat :=
  (updateOnce (before.foldl pollBaselines empty) mapped MonitorInfo.default).2.cpuStat

theorem nodup_rowsRead {mapped : Mapped} (h : DistinctNames mapped) :
    ((rowsRead mapped).map rowName).Nodup := by
  cases mapped with
  | none => exact List.nodup_nil
  | some stats =>
    rw [rowsRead, List.ofFn_eq_map, List.takeWhile_map, List.map_map]
    have hrows := (List.takeWhile_sublist (named ∘ stats)).nodup (List.nodup_finRange maxCpu)
    refine hrows.map_on ?_
    intro i hi j _ hname
    apply h stats rfl i j hname
    have hnamed : (named ∘ stats) i = true := List.mem_takeWhile_imp hi
    intro hempty
    have hunnamed := (unnamed_iff (stats i).cpuName).mpr hempty
    simp [named, hunnamed] at hnamed

/-- A poll replaces the baselines of the names it reads. -/
theorem pollBaselines_apply (name : String) (s : Baselines) (mapped : Mapped) :
    pollBaselines s mapped name = ((rowOf name mapped).map id).or (s name) := by
  rw [pollBaselines_eq, foldl_storeRow, assignAll_apply]
  rfl

theorem baselines_run (before : List Mapped) (name : String) :
    before.foldl pollBaselines empty name = lastRead before name := by
  have hview := view_foldl pollBaselines (fun s : Baselines => s name) (rowOf name) id
    (fun s mapped => pollBaselines_apply name s mapped) none empty rfl before
  simpa [lastRead, readings] using hview

/-- A pass over rows with distinct names compares each with the baseline before the pass. -/
theorem emissions_of_nodup (s : Baselines) (rows : List CpuStatRow)
    (hnodup : (rows.map rowName).Nodup) :
    emissions s rows =
      rows.filterMap (fun row => (s (rowName row)).map (fun old => (row, old))) := by
  have hvisits := visits_assign_of_nodup rowName id s rows hnodup
  have hfilter := congrArg (List.filterMap (fun p : Option CpuStatRow × CpuStatRow =>
    p.1.map (fun old => (p.2, old)))) hvisits
  rw [List.filterMap_map, List.filterMap_map] at hfilter
  exact hfilter

/-- Every row read is compared with the most recent row read under its name. -/
theorem published_eq (before : List Mapped) {mapped : Mapped} (h : DistinctNames mapped) :
    published before mapped = (rowsRead mapped).filterMap (fun row =>
      (lastRead before (rowName row)).map (cpuStatMessage row)) := by
  rw [published, updateOnce_eq, emissions_of_nodup _ _ (nodup_rowsRead h), MonitorInfo.default,
    List.nil_append, List.map_filterMap]
  simp only [Option.map_map, baselines_run]
  rfl

theorem rowOf_isSome_iff (name : String) (mapped : Mapped) :
    (rowOf name mapped).isSome ↔ ∃ row ∈ rowsRead mapped, rowName row = name := by
  simp only [rowOf, Option.isSome_iff_ne_none, ne_eq, latest_eq_none_iff, not_forall, not_not,
    exists_prop]

theorem lastRead_isSome_iff (before : List Mapped) (name : String) :
    (lastRead before name).isSome ↔
      ∃ earlier ∈ before, ∃ row ∈ rowsRead earlier, rowName row = name := by
  rw [lastRead, List.getLast?_isSome, readings, Ne, List.filterMap_eq_nil_iff]
  simp only [← rowOf_isSome_iff, not_forall, exists_prop, Option.isSome_iff_ne_none, ne_eq]

/-! ### Shares -/

/-- Everything an entry publishes besides the name. -/
def percents (entry : CpuStat) : List ℚ :=
  [entry.cpuPercent, entry.usrPercent, entry.systemPercent, entry.nicePercent,
    entry.idlePercent, entry.ioWaitPercent, entry.irqPercent, entry.softIrqPercent,
    entry.stealPercent, entry.guestPercent, entry.guestNicePercent]

/-- The part of the time between two rows that was stolen, in percent. -/
def stealShare (new old : CpuStatRow) : ℚ := (new.steal - old.steal) / totalAdvance new old * 100

/-- Busy, idle and waiting time make up the whole, all shares are shares, and the busy
time exceeds the sum of its published parts by the stolen time. -/
structure Partition (entry : CpuStat) (new old : CpuStatRow) : Prop where
  whole : entry.cpuPercent + entry.idlePercent + entry.ioWaitPercent = 100
  bounded : ∀ percent ∈ percents entry, 0 ≤ percent ∧ percent ≤ 100
  stolen : entry.cpuPercent - (entry.usrPercent + entry.systemPercent + entry.nicePercent +
    entry.irqPercent + entry.softIrqPercent) = stealShare new old

/-- A row follows an older one of the same CPU that had less time in total. -/
def Follows (new old : CpuStatRow) : Prop := NotBelow new old ∧ totalTime old < totalTime new

theorem Follows.totalAdvance_pos {new old : CpuStatRow} (h : Follows new old) :
    0 < totalAdvance new old := sub_pos.mpr h.2

theorem cpu_add_idle_add_ioWait {new old : CpuStatRow} (h : totalAdvance new old ≠ 0) :
    (cpuStatMessage new old).cpuPercent + (cpuStatMessage new old).idlePercent +
      (cpuStatMessage new old).ioWaitPercent = 100 := by
  have hparts : busyTime new - busyTime old + (new.idle - old.idle) + (new.ioWait - old.ioWait) =
      totalAdvance new old := by
    unfold busyTime totalAdvance totalTime
    ring
  simp only [cpuStatMessage]
  rw [← add_mul, ← add_mul, ← add_div, ← add_div, hparts, div_self h, one_mul]

theorem cpu_sub_parts (new old : CpuStatRow) :
    (cpuStatMessage new old).cpuPercent - ((cpuStatMessage new old).usrPercent +
      (cpuStatMessage new old).systemPercent + (cpuStatMessage new old).nicePercent +
      (cpuStatMessage new old).irqPercent + (cpuStatMessage new old).softIrqPercent) =
        stealShare new old := by
  simp only [cpuStatMessage, stealShare, busyTime]
  ring

theorem percents_bounded {new old : CpuStatRow} (h : Follows new old) :
    ∀ percent ∈ percents (cpuStatMessage new old), 0 ≤ percent ∧ percent ≤ 100 := by
  have hpos := h.totalAdvance_pos
  obtain ⟨⟨huser, hsystem, hidle, hnice, hioWait, hirq, hsoftIrq, hsteal⟩, _⟩ := h
  have hbound : ∀ part, 0 ≤ part → part ≤ totalAdvance new old →
      0 ≤ part / totalAdvance new old * 100 ∧ part / totalAdvance new old * 100 ≤ 100 :=
    fun part => Readings.share_bounds hpos
  intro percent hpercent
  simp only [percents, cpuStatMessage, List.mem_cons, List.not_mem_nil, or_false] at hpercent
  unfold totalAdvance totalTime busyTime at *
  rcases hpercent with rfl | rfl | rfl | rfl | rfl | rfl | rfl | rfl | rfl | rfl | rfl
  all_goals first
    | exact hbound _ (by linarith) (by linarith)
    | norm_num

theorem Follows.partition {new old : CpuStatRow} (h : Follows new old) :
    Partition (cpuStatMessage new old) new old where
  whole := cpu_add_idle_add_ioWait h.totalAdvance_pos.ne'
  bounded := percents_bounded h
  stolen := cpu_sub_parts new old

/-- A row and the row it is compared with are read one after the other under their name. -/
theorem mem_steps_readings {before : List Mapped} {mapped : Mapped} (after : List Mapped)
    (h : DistinctNames mapped) {row old : CpuStatRow} (hrow : row ∈ rowsRead mapped)
    (hold : lastRead before (rowName row) = some old) :
    (old, row) ∈ steps (readings (rowName row) (before ++ mapped :: after)) := by
  have hcurrent : rowOf (rowName row) mapped = some row :=
    latest_of_nodup rowName (nodup_rowsRead h) hrow
  obtain ⟨pre, hpre⟩ := List.getLast?_eq_some_iff.mp hold
  have hall : readings (rowName row) (before ++ mapped :: after) =
      pre ++ old :: row :: readings (rowName row) after := by
    rw [readings, List.filterMap_append, List.filterMap_cons_some hcurrent]
    change readings (rowName row) before ++ _ = _
    rw [hpre, List.append_assoc]
    rfl
  exact (mem_steps_iff _ old row).mpr ⟨pre, _, hall⟩

/-- In any run over tables with distinct names in which the counters of every CPU advance
from one reading to the next, a row read is published exactly when an earlier poll read
one of its name, against the most recent of these, and its percentages partition the time
in between. -/
theorem cpu_shares_partition (polls : List Mapped)
    (hdistinct : ∀ mapped ∈ polls, DistinctNames mapped)
    (hfollows : ∀ name, ∀ p ∈ steps (readings name polls), Follows p.2 p.1)
    (before : List Mapped) (mapped : Mapped) (after : List Mapped)
    (hsplit : polls = before ++ mapped :: after) :
    published before mapped = (rowsRead mapped).filterMap (fun row =>
        (lastRead before (rowName row)).map (cpuStatMessage row)) ∧
      (∀ name, (lastRead before name).isSome ↔
        ∃ earlier ∈ before, ∃ row ∈ rowsRead earlier, rowName row = name) ∧
      ∀ row ∈ rowsRead mapped, ∀ old, lastRead before (rowName row) = some old →
        Partition (cpuStatMessage row old) row old := by
  have hmapped : DistinctNames mapped := hdistinct mapped (by simp [hsplit])
  refine ⟨published_eq before hmapped, lastRead_isSome_iff before, ?_⟩
  intro row hrow old hold
  have hpair := mem_steps_readings after hmapped hrow hold
  rw [← hsplit] at hpair
  exact (hfollows _ _ hpair).partition

/-! ### A single CPU -/

theorem maxCpu_pos : 0 < maxCpu := by decide

def firstCpu : Fin maxCpu := ⟨0, maxCpu_pos⟩

theorem distinctNames_singleCpu (t : ℚ) : DistinctNames (some (singleCpu t)) := by
  have hname : ∀ i : Fin maxCpu, rowName (singleCpu t i) ≠ "" → i.val = 0 := by
    intro i hne
    by_contra hi
    apply hne
    simp only [singleCpu, hi, if_false]
    rfl
  intro stats hstats i j heq hi
  obtain rfl := Option.some.inj hstats
  have hj : rowName (singleCpu t j) ≠ "" := heq ▸ hi
  exact Fin.ext ((hname i hi).trans (hname j hj).symm)

theorem rowOf_singleCpu (name : String) (t : ℚ) :
    rowOf name (some (singleCpu t)) =
      if rowName (singleCpu t firstCpu) = name then some (singleCpu t firstCpu) else none := by
  rw [rowOf, rowsRead_singleCpu]
  exact latest_concat rowName name [] _

theorem follows_singleCpu : Follows (singleCpu 2 firstCpu) (singleCpu 1 firstCpu) := by
  norm_num [Follows, NotBelow, totalTime, singleCpu, firstCpu]

/-- A CPU that was busy, idle and waiting between two polls. -/
theorem cpu_shares_partition_single :
    Partition (cpuStatMessage (singleCpu 2 firstCpu) (singleCpu 1 firstCpu))
      (singleCpu 2 firstCpu) (singleCpu 1 firstCpu) := by
  have hname : rowName (singleCpu 1 firstCpu) = rowName (singleCpu 2 firstCpu) := rfl
  refine (cpu_shares_partition [some (singleCpu 1), some (singleCpu 2)] ?_ ?_
    [some (singleCpu 1)] (some (singleCpu 2)) [] rfl).2.2 (singleCpu 2 firstCpu) ?_
    (singleCpu 1 firstCpu) ?_
  · intro mapped hmapped
    rcases List.mem_pair.mp hmapped with rfl | rfl
    · exact distinctNames_singleCpu 1
    · exact distinctNames_singleCpu 2
  · intro name p hp
    by_cases h : rowName (singleCpu 2 firstCpu) = name
    · simp only [readings, List.filterMap_cons, List.filterMap_nil, rowOf_singleCpu, hname, h,
        if_true] at hp
      rw [List.mem_singleton.mp hp]
      exact follows_singleCpu
    · simp [readings, rowOf_singleCpu, hname, h, steps] at hp
  · rw [rowsRead_singleCpu]
    exact List.mem_singleton.mpr rfl
  · simp [lastRead, readings, rowOf_singleCpu, hname]

/-! ### Completeness of the breakdown -/

/-- The published components make up the whole, and those of them that are neither idle nor
waiting make up the busy time. -/
structure Complete (entry : CpuStat) : Prop where
  whole : entry.usrPercent + entry.systemPercent + entry.nicePercent + entry.idlePercent +
    entry.ioWaitPercent + entry.irqPercent + entry.softIrqPercent + entry.stealPercent = 100
  busy : entry.cpuPercent = entry.usrPercent + entry.systemPercent + entry.nicePercent +
    entry.irqPercent + entry.softIrqPercent + entry.stealPercent

theorem complete_iff {new old : CpuStatRow} (h : totalAdvance new old ≠ 0) :
    Complete (cpuStatMessage new old) ↔ new.steal = old.steal := by
  have hwhole := cpu_add_idle_add_ioWait h
  have hparts := cpu_sub_parts new old
  have hsteal : (cpuStatMessage new old).stealPercent = 0 := rfl
  have hshare : stealShare new old = 0 ↔ new.steal = old.steal := by
    simp [stealShare, h, sub_eq_zero]
  rw [← hshare]
  constructor
  · intro hcomplete
    have hbusy := hcomplete.busy
    linarith
  · intro hzero
    constructor
    · linarith
    · linarith

/-- An entry of a run, whose CPU has advanced, has a complete breakdown exactly when no time
was stolen. -/
theorem breakdown_complete_iff (polls : List Mapped) :
    ∀ e ∈ runEmissions polls, Follows e.1 e.2 →
      (Complete (cpuStatMessage e.1 e.2) ↔ e.1.steal = e.2.steal) :=
  fun _ _ hfollows => complete_iff hfollows.totalAdvance_pos.ne'

/-- An eighth of the time was stolen from a single CPU. -/
theorem breakdown_complete_iff_single :
    ¬ Complete (cpuStatMessage (singleCpu 2 firstCpu) (singleCpu 1 firstCpu)) := by
  have hcomplete := breakdown_complete_iff [some (singleCpu 1), some (singleCpu 2)] _
    (mem_runEmissions_singleCpu 1 2) follows_singleCpu
  refine mt hcomplete.mp ?_
  norm_num [singleCpu]

/-- All counters advance by one, and the components make up seven eighths. -/
theorem stolen_time_unpublished :
    ¬ ∀ (polls : List Mapped), ∀ e ∈ runEmissions polls, Follows e.1 e.2 →
      Complete (cpuStatMessage e.1 e.2) := by
  intro h
  have hcomplete := h [some (singleCpu 1), some (singleCpu 2)] _
    (mem_runEmissions_singleCpu 1 2) follows_singleCpu
  have hwhole := hcomplete.whole
  norm_num [cpuStatMessage, totalAdvance, totalTime, singleCpu] at hwhole

end NodeMonitor.CpuShares
