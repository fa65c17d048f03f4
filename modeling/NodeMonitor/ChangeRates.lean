import NodeMonitor.AgentScores

/-!
The change rates handed to `WriteToMysql`. An iteration compares the sample of its
message with the sample stored under the same name. When all agents answer under
names of their own, that is the same agent's sample of the pass before.
-/

namespace NodeMonitor.ChangeRates

open AgentManager AgentScores KeyedMaps Messages Readings Score

/-- The metrics that have a change rate. -/
inductive Metric
  | cpuPercent | usrPercent | systemPercent | nicePercent | idlePercent | ioWaitPercent
  | irqPercent | softIrqPercent | stealPercent | guestPercent | guestNicePercent
  | loadAvg1 | loadAvg3 | loadAvg15 | memUsedPercent | memTotal | memFree | memAvail
  | netInRate | netOutRate | netInPeak | netOutPeak | netInDropRate | netOutDropRate | score
  deriving DecidableEq

def value (sample : PerfSample) : Metric → ℚ
  | .cpuPercent => sample.cpuPercent
  | .usrPercent => sample.usrPercent
  | .systemPercent => sample.systemPercent
  | .nicePercent => sample.nicePercent
  | .idlePercent => sample.idlePercent
  | .ioWaitPercent => sample.ioWaitPercent
  | .irqPercent => sample.irqPercent
  | .softIrqPercent => sample.softIrqPercent
  | .stealPercent => sample.stealPercent
  | .guestPercent => sample.guestPercent
  | .guestNicePercent => sample.guestNicePercent
  | .loadAvg1 => sample.loadAvg1
  | .loadAvg3 => sample.loadAvg3
  | .loadAvg15 => sample.loadAvg15
  | .memUsedPercent => sample.memUsedPercent
  | .memTotal => sample.memTotal
  | .memFree => sample.memFree
  | .memAvail => sample.memAvail
  | .netInRate => sample.netInRate
  | .netOutRate => sample.netOutRate
  | .netInPeak => sample.netInPeak
  | .netOutPeak => sample.netOutPeak
  | .netInDropRate => sample.netInDropRate
  | .netOutDropRate => sample.netOutDropRate
  | .score => sample.score

/-- The parameter of `WriteToMysql` that is named after the metric. -/
def rateOf (row : MysqlRow) : Metric → ℚ
  | .cpuPercent => row.cpuPercentRate
  | .usrPercent => row.usrPercentRate
  | .systemPercent => row.systemPercentRate
  | .nicePercent => row.nicePercentRate
  | .idlePercent => row.idlePercentRate
  | .ioWaitPercent => row.ioWaitPercentRate
  | .irqPercent => row.irqPercentRate
  | .softIrqPercent => row.softIrqPercentRate
  | .stealPercent => row.stealPercentRate
  | .guestPercent => row.guestPercentRate
  | .guestNicePercent => row.guestNicePercentRate
  | .loadAvg1 => row.loadAvg1Rate
  | .loadAvg3 => row.loadAvg3Rate
  | .loadAvg15 => row.loadAvg15Rate
  | .memUsedPercent => row.memUsedPercentRate
  | .memTotal => row.memTotalRate
  | .memFree => row.memFreeRate
  | .memAvail => row.memAvailRate
  | .netInRate => row.netInRateRate
  | .netOutRate => row.netOutRateRate
  | .netInPeak => row.netInPeakRate
  | .netOutPeak => row.netOutPeakRate
  | .netInDropRate => row.netInDropRateRate
  | .netOutDropRate => row.netOutDropRateRate
  | .score => row.scoreRate

/-- The change against a previous value; zero if there is none or it is zero. -/
def changeRate (previous : Option ℚ) (current : ℚ) : ℚ :=
  match previous with
  | none => 0
  | some previous => if previous = 0 then 0 else (current - previous) / previous

/-- Every argument of the call lines up with its metric in both samples. -/
theorem rateOf_mysqlRow (name : String) (entry : AgentScore) (net : ℚ × ℚ)
    (curr last : PerfSample) (metric : Metric) :
    rateOf (mysqlRow name entry net curr last) metric =
      rate (value curr metric) (value last metric) := by
  cases metric <;> rfl

theorem value_default (metric : Metric) : value {} metric = 0 := by
  cases metric <;> rfl

/-- A missing sample counts as one of zeroes. -/
theorem rate_getD (curr : PerfSample) (last : Option PerfSample) (metric : Metric) :
    rate (value curr metric) (value (last.getD {}) metric) =
      changeRate (last.map (fun sample => value sample metric)) (value curr metric) := by
  cases last with
  | none =>
    rw [Option.getD_none, value_default]
    exact if_pos rfl
  | some last => rfl

/-! ### Recorded samples -/

/-- The sample of a message; the network rates are placeholders. -/
def recorded (p : Poll) : PerfSample :=
  perfSample p.reply.received (0, 0) (calcScore p.reply.received)

/-- No byte count was ever stored. -/
def ZeroBytes (s : State) : Prop :=
  ∀ name last, s.netSamples name = some last → last.lastInBytes = 0 ∧ last.lastOutBytes = 0

theorem netRates_of_zeroBytes {s : State} (hs : ZeroBytes s) (info : MonitorInfo) (now : ℤ) :
    netRates s.netSamples info now = (0, 0) := by
  unfold netRates
  cases hlast : s.netSamples info.name with
  | none => simp
  | some last =>
    obtain ⟨hin, hout⟩ := hs info.name last hlast
    simp [hin, hout, clampBelow]

theorem zeroBytes_initial : ZeroBytes initial := by
  intro name last h
  simp [initial] at h

theorem ZeroBytes.pollAgent {s : State} (hs : ZeroBytes s) (p : Poll) :
    ZeroBytes (pollAgent s p) := by
  intro name last h
  simp only [AgentManager.pollAgent, nextNetSamples] at h
  split at h
  · rw [assign_apply] at h
    split at h
    · rw [← Option.some.inj h]
      exact ⟨rfl, rfl⟩
    · exact hs name last h
  · exact hs name last h

theorem lastPerfSamples_pollAgent {s : State} (hs : ZeroBytes s) (p : Poll) :
    (pollAgent s p).lastPerfSamples = assign s.lastPerfSamples (serverName p) (recorded p) := by
  simp only [pollAgent, netRates_of_zeroBytes hs]
  rfl

/-- The stored samples are those of the messages received so far. -/
theorem lastPerfSamples_foldl {s : State} (hs : ZeroBytes s) (polls : List Poll) :
    (polls.foldl pollAgent s).lastPerfSamples =
      assignAll serverName recorded s.lastPerfSamples polls := by
  induction polls generalizing s with
  | nil => rfl
  | cons p rest ih =>
    rw [List.foldl_cons, ih (hs.pollAgent p), lastPerfSamples_pollAgent hs]
    rfl

theorem length_mysqlRows_foldl (s : State) (polls : List Poll) :
    (polls.foldl pollAgent s).mysqlRows.length = s.mysqlRows.length + polls.length := by
  induction polls generalizing s with
  | nil => rfl
  | cons p rest ih =>
    rw [List.foldl_cons, ih, pollAgent, List.length_append, List.length_cons, List.length_cons,
      List.length_nil]
    omega

/-- A call once made stays in its place. -/
theorem mysqlRows_foldl_prefix (s : State) (polls : List Poll) :
    s.mysqlRows <+: (polls.foldl pollAgent s).mysqlRows := by
  induction polls generalizing s with
  | nil => exact List.prefix_rfl
  | cons p rest ih => exact (List.prefix_append _ _).trans (ih (pollAgent s p))

/-! ### Agents with names of their own -/

/-- The sample of the agent in the last pass, if there was one. -/
def previous {addrs : List String} (before : List (Pass addrs)) (i : Fin addrs.length) :
    Option PerfSample :=
  before.getLast?.map (fun pass => recorded (pass i))

/-- Every call of the pass succeeds, and every agent answers under its own name. -/
def AnswersAs {addrs : List String} (name : Fin addrs.length → String) (pass : Pass addrs) :
    Prop :=
  ∀ i, ∃ info, (pass i).reply = .ok info ∧ info.name = name i

section Named

variable {addrs : List String} {name : Fin addrs.length → String}
  (hname : Function.Injective name)

theorem AnswersAs.serverName {pass : Pass addrs} (h : AnswersAs name pass)
    (i : Fin addrs.length) : serverName (pass i) = name i := by
  obtain ⟨info, hreply, hinfo⟩ := h i
  rw [AgentManager.serverName, hreply]
  exact hinfo

theorem zeroBytes_foldl (s : State) (hs : ZeroBytes s) (polls : List Poll) :
    ZeroBytes (polls.foldl pollAgent s) :=
  Runs.foldl_invariant pollAgent ZeroBytes (fun _ p h => h.pollAgent p) s polls hs

theorem zeroBytes_loop (passes : List (Pass addrs)) : ZeroBytes (fetchAndScoreLoop passes) := by
  rw [fetchAndScoreLoop_eq]
  exact zeroBytes_foldl initial zeroBytes_initial _

include hname

/-- After a pass the sample of every agent is stored under its name. -/
theorem lastPerfSamples_pass {s : State} (hs : ZeroBytes s) {pass : Pass addrs}
    (hpass : AnswersAs name pass) (i : Fin addrs.length) :
    (fetchAndScorePass s pass).lastPerfSamples (name i) = some (recorded (pass i)) := by
  have hinjective : Function.Injective (fun i => serverName (pass i)) := by
    rw [funext hpass.serverName]
    exact hname
  have hlatest := latest_polls pass hinjective i
  rw [hpass.serverName i] at hlatest
  rw [fetchAndScorePass, lastPerfSamples_foldl hs, assignAll_apply, hlatest]
  rfl

omit hname in
theorem fetchAndScoreLoop_concat (before : List (Pass addrs)) (pass : Pass addrs) :
    fetchAndScoreLoop (before ++ [pass]) = fetchAndScorePass (fetchAndScoreLoop before) pass := by
  rw [fetchAndScoreLoop, List.foldl_append]
  rfl

theorem lastPerfSamples_loop (before : List (Pass addrs))
    (hbefore : ∀ pass ∈ before, AnswersAs name pass) (i : Fin addrs.length) :
    (fetchAndScoreLoop before).lastPerfSamples (name i) = previous before i := by
  cases before using List.reverseRecOn with
  | nil => rfl
  | append_singleton earlier pass =>
    rw [fetchAndScoreLoop_concat,
      lastPerfSamples_pass hname (zeroBytes_loop earlier) (hbefore pass (by simp)),
      previous, List.getLast?_concat, Option.map_some]

/-- The earlier polls of a pass leave the sample of an agent alone. -/
theorem lastPerfSamples_take {s : State} (hs : ZeroBytes s) {pass : Pass addrs}
    (hpass : AnswersAs name pass) (i : Fin addrs.length) :
    ((pass.polls.take i).foldl pollAgent s).lastPerfSamples (name i) =
      s.lastPerfSamples (name i) := by
  have hothers : latest serverName (name i) (pass.polls.take i) = none := by
    rw [latest_eq_none_iff]
    intro p hp heq
    obtain ⟨j, hj, rfl⟩ := List.mem_take_iff_getElem.mp hp
    simp only [Pass.polls, List.getElem_ofFn, hpass.serverName] at heq
    have hindex : j = i := congrArg Fin.val (hname heq)
    omega
  rw [lastPerfSamples_foldl hs, assignAll_apply, hothers]
  rfl

end Named

/-! ### The call for one agent -/

section Call

variable {addrs : List String}

/-- The state in which a pass comes to an agent. -/
def stateAt (before : List (Pass addrs)) (pass : Pass addrs) (i : Fin addrs.length) : State :=
  (pass.polls.take i).foldl pollAgent (fetchAndScoreLoop before)

theorem polls_split (pass : Pass addrs) (i : Fin addrs.length) :
    pass.polls = pass.polls.take i ++ pass i :: pass.polls.drop (i + 1) := by
  have hi : i.val < pass.polls.length := by
    rw [Pass.polls, List.length_ofFn]
    exact i.isLt
  have hget : pass.polls[i.val] = pass i := List.getElem_ofFn hi
  rw [← hget, List.getElem_cons_drop, List.take_append_drop]

theorem fetchAndScoreLoop_split (before : List (Pass addrs)) (pass : Pass addrs)
    (after : List (Pass addrs)) (i : Fin addrs.length) :
    fetchAndScoreLoop (before ++ pass :: after) =
      (pass.polls.drop (i + 1) ++ runPolls after).foldl pollAgent
        (pollAgent (stateAt before pass i) (pass i)) := by
  have hpolls : runPolls (before ++ pass :: after) = runPolls before ++ (pass.polls.take i ++
      pass i :: (pass.polls.drop (i + 1) ++ runPolls after)) := by
    rw [runPolls, runPolls, List.flatMap_append, List.flatMap_cons]
    conv_lhs => rw [polls_split pass i]
    rw [List.append_assoc, List.cons_append]
    rfl
  rw [stateAt, fetchAndScoreLoop_eq, fetchAndScoreLoop_eq, hpolls, List.foldl_append,
    List.foldl_append, List.foldl_cons]

theorem length_runPolls (passes : List (Pass addrs)) :
    (runPolls passes).length = passes.length * addrs.length := by
  induction passes with
  | nil => simp [runPolls]
  | cons pass rest ih =>
    rw [runPolls, List.flatMap_cons, List.length_append, Pass.polls, List.length_ofFn,
      List.length_cons, Nat.succ_mul, Nat.add_comm]
    exact congrArg (· + addrs.length) ih

/-- The calls made before a pass comes to an agent. -/
theorem length_mysqlRows_stateAt (before : List (Pass addrs)) (pass : Pass addrs)
    (i : Fin addrs.length) :
    (stateAt before pass i).mysqlRows.length = before.length * addrs.length + i := by
  have htake : (pass.polls.take i).length = i := by
    rw [List.length_take, Pass.polls, List.length_ofFn]
    omega
  have hinitial : initial.mysqlRows.length = 0 := rfl
  rw [stateAt, length_mysqlRows_foldl, htake, fetchAndScoreLoop_eq, length_mysqlRows_foldl,
    length_runPolls, hinitial, Nat.zero_add]

theorem getElem_mysqlRows (before : List (Pass addrs)) (pass : Pass addrs)
    (after : List (Pass addrs)) (i : Fin addrs.length) {row : MysqlRow}
    (hrow : (pollAgent (stateAt before pass i) (pass i)).mysqlRows =
      (stateAt before pass i).mysqlRows ++ [row]) :
    (fetchAndScoreLoop (before ++ pass :: after)).mysqlRows[before.length * addrs.length + i]? =
      some row := by
  obtain ⟨later, hlater⟩ := mysqlRows_foldl_prefix
    (pollAgent (stateAt before pass i) (pass i)) (pass.polls.drop (i + 1) ++ runPolls after)
  rw [fetchAndScoreLoop_split before pass after i, ← hlater, hrow,
    ← length_mysqlRows_stateAt before pass i]
  simp

end Call

/-- All agents answer under their addresses, with the same CPU use. -/
def answers (addrs : List String) (percent : ℚ) : Pass addrs :=
  fun i => ⟨.ok { name := addrs.get i, cpuStat := [{ cpuPercent := percent }] }, 0⟩

theorem answersAs_get (addrs : List String) (percent : ℚ) :
    AnswersAs addrs.get (answers addrs percent) :=
  fun _ => ⟨_, rfl, rfl⟩

end NodeMonitor.ChangeRates
