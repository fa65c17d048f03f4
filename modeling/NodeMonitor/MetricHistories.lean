import NodeMonitor.Baselines
import NodeMonitor.ChangeRates

/-!
The rows of a server in the order in which they are handed to `WriteToMysql`, whatever else
is polled in between and whichever calls fail. A row has the metrics of its message and their
change rates against the row of the server before it; what can be told of the metrics from
their rates depends on the zeroes among them.
-/

namespace NodeMonitor.MetricHistories

open AgentManager AgentScores Baselines ChangeRates KeyedMaps Runs

/-- The rows for a server. -/
def rowsUnder (name : String) (rows : List MysqlRow) : List MysqlRow :=
  rows.filter (fun row => row.serverName = name)

/-- The metrics a row comes with: its message, its score and its network rates. -/
def sampleIn (row : MysqlRow) : PerfSample :=
  perfSample row.agentScore.info (row.netInRate, row.netOutRate) row.agentScore.score

/-! ### The calls of a run -/

def storeSample (samples : KeyedMap String PerfSample) (p : Poll) : KeyedMap String PerfSample :=
  assign samples (serverName p) (recorded p)

/-- The call for a message, given the sample stored under its name. -/
def sampleRow (last : Option PerfSample) (p : Poll) : MysqlRow :=
  mysqlRow (serverName p) (scoreEntry p) (0, 0) (recorded p) (last.getD {})

theorem mysqlRows_pollAgent {s : State} (hs : ZeroBytes s) (p : Poll) :
    (pollAgent s p).mysqlRows =
      s.mysqlRows ++ [sampleRow (s.lastPerfSamples (serverName p)) p] := by
  simp only [pollAgent, netRates_of_zeroBytes hs]
  rfl

theorem mysqlRows_foldl {s : State} (hs : ZeroBytes s) (polls : List Poll) :
    (polls.foldl pollAgent s).mysqlRows = s.mysqlRows ++
      (visits storeSample s.lastPerfSamples polls).map
        (fun v => sampleRow (v.1 (serverName v.2)) v.2) := by
  induction polls generalizing s with
  | nil => simp [visits]
  | cons p rest ih =>
    rw [List.foldl_cons, ih (hs.pollAgent p), mysqlRows_pollAgent hs,
      lastPerfSamples_pollAgent hs, visits, List.map_cons, List.append_assoc,
      List.singleton_append]
    rfl

/-- The poll, if it came back under the name. -/
def under (name : String) (p : Poll) : Option Poll :=
  if serverName p = name then some p else none

theorem storeSample_apply (name : String) (samples : KeyedMap String PerfSample) (p : Poll) :
    storeSample samples p name = ((under name p).map recorded).or (samples name) := by
  rw [storeSample, assign_apply]
  unfold under
  by_cases h : serverName p = name
  · rw [if_pos h.symm, if_pos h]
    rfl
  · rw [if_neg (Ne.symm h), if_neg h]
    rfl

/-- The rows of a server compare its samples in a chain. -/
theorem rowsUnder_foldl (name : String) (polls : List Poll) :
    rowsUnder name (polls.foldl pollAgent initial).mysqlRows =
      (chain none (polls.filterMap (under name))).map
        (fun p => sampleRow (p.1.map recorded) p.2) := by
  have hfilter : rowsUnder name ((visits storeSample empty polls).map
      (fun v => sampleRow (v.1 (serverName v.2)) v.2)) =
        (visits storeSample empty polls).filterMap
          (fun v => (under name v.2).map (sampleRow (v.1 name))) := by
    rw [rowsUnder, ← List.filterMap_eq_filter, List.filterMap_map]
    congr 1
    funext v
    rw [Function.comp_apply, Option.guard]
    unfold under
    by_cases h : serverName v.2 = name
    · subst h
      simp [sampleRow, mysqlRow]
    · simp [sampleRow, mysqlRow, h]
  have hrows := mysqlRows_foldl zeroBytes_initial polls
  rw [hrows]
  change rowsUnder name ([] ++ (visits storeSample empty polls).map _) = _
  rw [List.nil_append, hfilter]
  exact filterMap_visits storeSample (fun samples => samples name) (under name) recorded
    (fun samples p => storeSample_apply name samples p) sampleRow none empty rfl polls

/-! ### Metrics and their rates -/

theorem changeRate_eq_relativeChange (last : Option ℚ) (now : ℚ) :
    changeRate last now = relativeChange last now := by
  cases last with
  | none => rfl
  | some last => rfl

theorem rateOf_sampleRow (last : Option PerfSample) (p : Poll) (metric : Metric) :
    rateOf (sampleRow last p) metric =
      relativeChange (last.map (fun sample => value sample metric))
        (value (recorded p) metric) := by
  rw [sampleRow, rateOf_mysqlRow, rate_getD, changeRate_eq_relativeChange]

/-- What a server's rows say of a metric. -/
def values (name : String) (metric : Metric) (s : State) : List ℚ :=
  (rowsUnder name s.mysqlRows).map (fun row => value (sampleIn row) metric)

def rates (name : String) (metric : Metric) (s : State) : List ℚ :=
  (rowsUnder name s.mysqlRows).map (fun row => rateOf row metric)

theorem values_foldl (name : String) (metric : Metric) (polls : List Poll) :
    values name metric (polls.foldl pollAgent initial) =
      (polls.filterMap (under name)).map (fun p => value (recorded p) metric) := by
  rw [values, rowsUnder_foldl, List.map_map]
  conv_rhs => rw [← map_snd_chain none (polls.filterMap (under name)), List.map_map]
  rfl

theorem rates_foldl (name : String) (metric : Metric) (polls : List Poll) :
    rates name metric (polls.foldl pollAgent initial) =
      (chain none (values name metric (polls.foldl pollAgent initial))).map
        (fun p => relativeChange p.1 p.2) := by
  have hchain := chain_map (fun p => value (recorded p) metric) none
    (polls.filterMap (under name))
  rw [Option.map_none, ← values_foldl] at hchain
  rw [hchain, rates, rowsUnder_foldl, List.map_map, List.map_map]
  apply List.map_congr_left
  intro p _
  rw [Function.comp_apply, Function.comp_apply, rateOf_sampleRow, Option.map_map]
  rfl

/-- In every run of the loop, broken off after any poll, the rates in a server's rows lead
from the first value of a metric to all later ones exactly if the metric, once zero, has
stayed zero. -/
theorem values_compounded_iff (polls : List Poll) (name : String) (metric : Metric) :
    let s := polls.foldl pollAgent initial
    compounded ((values name metric s).headD 0) (rates name metric s) = values name metric s ↔
      (values name metric s).Pairwise (fun v w => v = 0 → w = 0) := by
  intro s
  have hrates : rates name metric s =
      (chain none (values name metric s)).map (fun p => relativeChange p.1 p.2) :=
    rates_foldl name metric polls
  rw [hrates]
  exact compounded_chain_iff _

end NodeMonitor.MetricHistories
