import NodeMonitor.Messages
import Mathlib.Algebra.Order.Field.Rat
import Mathlib.Tactic.Linarith
import Mathlib.Tactic.NormNum

/-!
The health score of one `MonitorInfo`, as `AgentManager::CalcScore` computes it.
The five metrics are read from the optional sections, normalized to at most one
and clamped from below, weighted, scaled to a hundred and clamped again.
-/

namespace NodeMonitor.Score

open Messages

def cpuWeight : ℚ := 4 / 10
def loadWeight : ℚ := 3 / 10
def memWeight : ℚ := 2 / 10
def netRecvWeight : ℚ := 5 / 100
def netSendWeight : ℚ := 5 / 100

/-- The bandwidth of an assumed 1 Gbps link, in bytes per second. -/
def maxBandwidth : ℚ := 125000000

/-- The metrics the score is computed from. -/
structure Metrics where
  cpuPercent : ℚ := 0
  loadAvg1 : ℚ := 0
  memPercent : ℚ := 0
  netRecvRate : ℚ := 0
  netSendRate : ℚ := 0
  cpuCores : ℕ := 1

/-- The first CPU entry and the first interface stand for the whole machine. The
receive and send rates are read from each other's field, as in the source. -/
def metrics (info : MonitorInfo) : Metrics where
  cpuPercent := match info.cpuStat with
    | [] => 0
    | cpu :: _ => cpu.cpuPercent
  cpuCores := match info.cpuStat with
    | [] => 1
    | _ :: _ => info.cpuStat.length
  loadAvg1 := match info.cpuLoad with
    | none => 0
    | some load => load.loadAvg1
  memPercent := match info.memInfo with
    | none => 0
    | some mem => mem.usedPercent
  netRecvRate := match info.netInfo with
    | [] => 0
    | net :: _ => net.sendRate
  netSendRate := match info.netInfo with
    | [] => 0
    | net :: _ => net.rcvRate

/-- `if (x < 0) x = 0`. -/
def clampBelow (x : ℚ) : ℚ := if x < 0 then 0 else x

/-- `if (x > 100) x = 100`. -/
def clampAbove (x : ℚ) : ℚ := if x > 100 then 100 else x

theorem clampBelow_eq_max (x : ℚ) : clampBelow x = max 0 x := by
  unfold clampBelow
  split
  · rename_i h
    exact (max_eq_left h.le).symm
  · rename_i h
    exact (max_eq_right (not_lt.mp h)).symm

theorem clampAbove_eq_min (x : ℚ) : clampAbove x = min 100 x := by
  unfold clampAbove
  split
  · rename_i h
    exact (min_eq_left h.le).symm
  · rename_i h
    exact (min_eq_right (not_lt.mp h)).symm

def cpuScore (m : Metrics) : ℚ := clampBelow (1 - m.cpuPercent / 100)

def loadScore (m : Metrics) : ℚ := clampBelow (1 - m.loadAvg1 / m.cpuCores)

def memScore (m : Metrics) : ℚ := clampBelow (1 - m.memPercent / 100)

def netRecvScore (m : Metrics) : ℚ := clampBelow (1 - m.netRecvRate / maxBandwidth)

def netSendScore (m : Metrics) : ℚ := clampBelow (1 - m.netSendRate / maxBandwidth)

def weightedScore (m : Metrics) : ℚ :=
  cpuScore m * cpuWeight + loadScore m * loadWeight + memScore m * memWeight +
    netRecvScore m * netRecvWeight + netSendScore m * netSendWeight

def calcScore (info : MonitorInfo) : ℚ :=
  clampAbove (clampBelow (weightedScore (metrics info) * 100))

/-- A message without any section gets full marks. -/
theorem calcScore_default : calcScore MonitorInfo.default = 100 := by
  norm_num [calcScore, weightedScore, metrics, MonitorInfo.default, cpuScore, loadScore,
    memScore, netRecvScore, netSendScore, clampBelow, clampAbove, cpuWeight, loadWeight,
    memWeight, netRecvWeight, netSendWeight]

end NodeMonitor.Score
