import NodeMonitor.Runs
import NodeMonitor.KeyedMaps
import NodeMonitor.Readings
import NodeMonitor.Score

/-!
The manager's polling loop. One iteration asks an agent for its message, scores
it, derives network and change rates and stores the result under the name the
message carries; a pass makes one iteration for every configured address. The
rows handed to `WriteToMysql` are kept in the state in the order of the calls.
-/

namespace NodeMonitor.AgentManager

open Messages Score KeyedMaps Readings Runs

/-- What one `GetMonitorInfo` call comes back with. -/
inductive RpcReply
  | ok (info : MonitorInfo)
  | failed
deriving DecidableEq

/-- The caller's message after `RpcClient::GetMonitorInfo`, which returns nothing
and only prints a status that is not OK; a failed call leaves the message as it was. -/
def RpcReply.received : RpcReply → MonitorInfo
  | .ok info => info
  | .failed => MonitorInfo.default

/-- One iteration's surroundings: the reply and the clock reading in nanoseconds. -/
structure Poll where
  reply : RpcReply
  now : ℤ

structure NetSample where
  lastInBytes : ℚ := 0
  lastOutBytes : ℚ := 0
  lastTime : ℤ
deriving DecidableEq

structure PerfSample where
  cpuPercent : ℚ := 0
  usrPercent : ℚ := 0
  systemPercent : ℚ := 0
  nicePercent : ℚ := 0
  idlePercent : ℚ := 0
  ioWaitPercent : ℚ := 0
  irqPercent : ℚ := 0
  softIrqPercent : ℚ := 0
  stealPercent : ℚ := 0
  guestPercent : ℚ := 0
  guestNicePercent : ℚ := 0
  loadAvg1 : ℚ := 0
  loadAvg3 : ℚ := 0
  loadAvg15 : ℚ := 0
  memUsedPercent : ℚ := 0
  memTotal : ℚ := 0
  memFree : ℚ := 0
  memAvail : ℚ := 0
  memSwapUsed : ℚ := 0
  memSwapTotal : ℚ := 0
  memCommit : ℚ := 0
  memCommitLimit : ℚ := 0
  netInRate : ℚ := 0
  netOutRate : ℚ := 0
  netInPeak : ℚ := 0
  netOutPeak : ℚ := 0
  netInDropRate : ℚ := 0
  netOutDropRate : ℚ := 0
  score : ℚ := 0
deriving DecidableEq

structure AgentScore where
  info : MonitorInfo
  score : ℚ
  timestamp : ℤ
deriving DecidableEq

/-- The arguments of one `WriteToMysql` call. -/
structure MysqlRow where
  serverName : String
  agentScore : AgentScore
  netInRate : ℚ
  netOutRate : ℚ
  cpuPercentRate : ℚ
  usrPercentRate : ℚ
  systemPercentRate : ℚ
  nicePercentRate : ℚ
  idlePercentRate : ℚ
  ioWaitPercentRate : ℚ
  irqPercentRate : ℚ
  softIrqPercentRate : ℚ
  stealPercentRate : ℚ
  guestPercentRate : ℚ
  guestNicePercentRate : ℚ
  loadAvg1Rate : ℚ
  loadAvg3Rate : ℚ
  loadAvg15Rate : ℚ
  memUsedPercentRate : ℚ
  memTotalRate : ℚ
  memFreeRate : ℚ
  memAvailRate : ℚ
  netInRateRate : ℚ
  netOutRateRate : ℚ
  netInPeakRate : ℚ
  netOutPeakRate : ℚ
  netInDropRateRate : ℚ
  netOutDropRateRate : ℚ
  scoreRate : ℚ
deriving DecidableEq

/-- The manager's score table, the sample tables of its source file and the calls made. -/
structure State where
  agentScores : KeyedMap String AgentScore
  lastPerfSamples : KeyedMap String PerfSample
  netSamples : KeyedMap String NetSample
  mysqlRows : List MysqlRow

def initial : State := ⟨empty, empty, empty, []⟩

/-- The byte totals are placeholders in the source: both samples are zero. -/
def netRates (netSamples : KeyedMap String NetSample) (info : MonitorInfo) (now : ℤ) : ℚ × ℚ :=
  if 0 < info.netInfo.length then
    let inBytes : ℚ := 0
    let outBytes : ℚ := 0
    match netSamples info.name with
    | none => (0, 0)
    | some last =>
      let seconds := secondsSince now last.lastTime
      if 0 < seconds then
        (clampBelow ((inBytes - last.lastInBytes) / (1024 * 1024) / seconds),
          clampBelow ((outBytes - last.lastOutBytes) / (1024 * 1024) / seconds))
      else (0, 0)
  else (0, 0)

def nextNetSamples (netSamples : KeyedMap String NetSample) (info : MonitorInfo) (now : ℤ) :
    KeyedMap String NetSample :=
  if 0 < info.netInfo.length then assign netSamples info.name { lastTime := now }
  else netSamples

/-- The current sample; sections the message lacks stay at zero. -/
def perfSample (info : MonitorInfo) (net : ℚ × ℚ) (score : ℚ) : PerfSample :=
  let cpu := info.cpuStat.headD {}
  let load := info.cpuLoad.getD {}
  let mem := info.memInfo.getD {}
  { cpuPercent := cpu.cpuPercent
    usrPercent := cpu.usrPercent
    systemPercent := cpu.systemPercent
    nicePercent := cpu.nicePercent
    idlePercent := cpu.idlePercent
    ioWaitPercent := cpu.ioWaitPercent
    irqPercent := cpu.irqPercent
    softIrqPercent := cpu.softIrqPercent
    stealPercent := cpu.stealPercent
    guestPercent := cpu.guestPercent
    guestNicePercent := cpu.guestNicePercent
    loadAvg1 := load.loadAvg1
    loadAvg3 := load.loadAvg3
    loadAvg15 := load.loadAvg15
    memUsedPercent := mem.usedPercent
    memTotal := mem.total
    memFree := mem.free
    memAvail := mem.avail
    memSwapUsed := mem.swapUsed
    memSwapTotal := mem.swapTotal
    memCommit := mem.commit
    memCommitLimit := mem.commitLimit
    netInRate := net.1
    netOutRate := net.2
    netInPeak := 0
    netOutPeak := 0
    netInDropRate := 0
    netOutDropRate := 0
    score := score }

def rate (now last : ℚ) : ℚ := if last = 0 then 0 else (now - last) / last

/-- The positional arguments of the `WriteToMysql` call, from both samples. -/
def mysqlRow (serverName : String) (agentScore : AgentScore) (net : ℚ × ℚ)
    (curr last : PerfSample) : MysqlRow where
  serverName := serverName
  agentScore := agentScore
  netInRate := net.1
  netOutRate := net.2
  cpuPercentRate := rate curr.cpuPercent last.cpuPercent
  usrPercentRate := rate curr.usrPercent last.usrPercent
  systemPercentRate := rate curr.systemPercent last.systemPercent
  nicePercentRate := rate curr.nicePercent last.nicePercent
  idlePercentRate := rate curr.idlePercent last.idlePercent
  ioWaitPercentRate := rate curr.ioWaitPercent last.ioWaitPercent
  irqPercentRate := rate curr.irqPercent last.irqPercent
  softIrqPercentRate := rate curr.softIrqPercent last.softIrqPercent
  stealPercentRate := rate curr.stealPercent last.stealPercent
  guestPercentRate := rate curr.guestPercent last.guestPercent
  guestNicePercentRate := rate curr.guestNicePercent last.guestNicePercent
  loadAvg1Rate := rate curr.loadAvg1 last.loadAvg1
  loadAvg3Rate := rate curr.loadAvg3 last.loadAvg3
  loadAvg15Rate := rate curr.loadAvg15 last.loadAvg15
  memUsedPercentRate := rate curr.memUsedPercent last.memUsedPercent
  memTotalRate := rate curr.memTotal last.memTotal
  memFreeRate := rate curr.memFree last.memFree
  memAvailRate := rate curr.memAvail last.memAvail
  netInRateRate := rate curr.netInRate last.netInRate
  netOutRateRate := rate curr.netOutRate last.netOutRate
  netInPeakRate := rate curr.netInPeak last.netInPeak
  netOutPeakRate := rate curr.netOutPeak last.netOutPeak
  netInDropRateRate := rate curr.netInDropRate last.netInDropRate
  netOutDropRateRate := rate curr.netOutDropRate last.netOutDropRate
  scoreRate := rate curr.score last.score

/-- The name and the entry of `agent_scores_[server_name] = AgentScore{info, score, now}`. -/
def serverName (p : Poll) : String := p.reply.received.name

def scoreEntry (p : Poll) : AgentScore where
  info := p.reply.received
  score := calcScore p.reply.received
  timestamp := p.now

/-- The body of the loop in `FetchAndScoreLoop`, for one agent. -/
def pollAgent (s : State) (p : Poll) : State :=
  let info := p.reply.received
  let net := netRates s.netSamples info p.now
  let curr := perfSample info net (calcScore info)
  let last := (s.lastPerfSamples (serverName p)).getD {}
  { agentScores := assign s.agentScores (serverName p) (scoreEntry p)
    lastPerfSamples := assign s.lastPerfSamples (serverName p) curr
    netSamples := nextNetSamples s.netSamples info p.now
    mysqlRows := s.mysqlRows ++ [mysqlRow (serverName p) (scoreEntry p) net curr last] }

/-- One execution of the `for` loop: a poll for every configured address. -/
abbrev Pass (addrs : List String) := Fin addrs.length → Poll

def Pass.polls {addrs : List String} (pass : Pass addrs) : List Poll := List.ofFn pass

def fetchAndScorePass {addrs : List String} (s : State) (pass : Pass addrs) : State :=
  pass.polls.foldl pollAgent s

def fetchAndScoreLoop {addrs : List String} (passes : List (Pass addrs)) : State :=
  passes.foldl fetchAndScorePass initial

end NodeMonitor.AgentManager
