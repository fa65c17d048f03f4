import Mathlib.Data.Rat.Defs

/-!
The protobuf messages exchanged by agents, relays and the manager. A repeated
field is a list, a submessage is optional, and an unset scalar has its proto3
default. The `float` and `double` fields hold rationals; where rounding to them matters,
it is made where they are set.
-/

namespace NodeMonitor.Messages

structure SoftIrq where
  cpu : String := ""
  hi : ℚ := 0
  timer : ℚ := 0
  netTx : ℚ := 0
  netRx : ℚ := 0
  block : ℚ := 0
  irqPoll : ℚ := 0
  tasklet : ℚ := 0
  sched : ℚ := 0
  hrtimer : ℚ := 0
  rcu : ℚ := 0
deriving DecidableEq

structure CpuLoad where
  loadAvg1 : ℚ := 0
  loadAvg3 : ℚ := 0
  loadAvg15 : ℚ := 0
deriving DecidableEq

structure CpuStat where
  cpuName : String := ""
  cpuPercent : ℚ := 0
  usrPercent : ℚ := 0
  systemPercent : ℚ := 0
  nicePercent : ℚ := 0
  idlePercent : ℚ := 0
  ioWaitPercent : ℚ := 0
  irqPercent : ℚ := 0
  softIrqPercent : ℚ := 0
  stealPercent : ℚ := 0
  guestPercent : ℚ := 0
  guestNicePercent : ℚ := 0
deriving DecidableEq

structure MemInfo where
  total : ℚ := 0
  free : ℚ := 0
  avail : ℚ := 0
  buffers : ℚ := 0
  cached : ℚ := 0
  swapCached : ℚ := 0
  active : ℚ := 0
  inactive : ℚ := 0
  activeAnon : ℚ := 0
  inactiveAnon : ℚ := 0
  activeFile : ℚ := 0
  inactiveFile : ℚ := 0
  dirty : ℚ := 0
  writeback : ℚ := 0
  anonPages : ℚ := 0
  mapped : ℚ := 0
  kReclaimable : ℚ := 0
  sReclaimable : ℚ := 0
  sUnreclaim : ℚ := 0
  usedPercent : ℚ := 0
  swapUsed : ℚ := 0
  swapTotal : ℚ := 0
  commit : ℚ := 0
  commitLimit : ℚ := 0
deriving DecidableEq

structure NetInfo where
  name : String := ""
  sendRate : ℚ := 0
  rcvRate : ℚ := 0
  sendPacketsRate : ℚ := 0
  rcvPacketsRate : ℚ := 0
  errInRate : ℚ := 0
  errOutRate : ℚ := 0
  dropInRate : ℚ := 0
  dropOutRate : ℚ := 0
deriving DecidableEq

structure DiskInfo where
  name : String := ""
  reads : UInt64 := 0
  writes : UInt64 := 0
  sectorsRead : UInt64 := 0
  sectorsWritten : UInt64 := 0
  readTimeMs : UInt64 := 0
  writeTimeMs : UInt64 := 0
  ioInProgress : UInt64 := 0
  ioTimeMs : UInt64 := 0
  weightedIoTimeMs : UInt64 := 0
  readBytesPerSec : ℚ := 0
  writeBytesPerSec : ℚ := 0
  readIops : ℚ := 0
  writeIops : ℚ := 0
  avgReadLatencyMs : ℚ := 0
  avgWriteLatencyMs : ℚ := 0
  utilPercent : ℚ := 0
deriving DecidableEq

structure MonitorInfo where
  name : String := ""
  softIrq : List SoftIrq := []
  cpuLoad : Option CpuLoad := none
  cpuStat : List CpuStat := []
  memInfo : Option MemInfo := none
  netInfo : List NetInfo := []
  diskInfo : List DiskInfo := []
deriving DecidableEq

/-- The message of a freshly declared `MonitorInfo`. -/
def MonitorInfo.default : MonitorInfo := {}

end NodeMonitor.Messages
