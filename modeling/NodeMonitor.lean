import NodeMonitor.Runs
import NodeMonitor.KeyedMaps
import NodeMonitor.UnorderedMaps
import NodeMonitor.PrefixScans
import NodeMonitor.Baselines
import NodeMonitor.WeightedMeans
import NodeMonitor.FloatRounding
import NodeMonitor.CharBuffers
import NodeMonitor.InputStreams
import NodeMonitor.TextWords
import NodeMonitor.MemoryViews
import NodeMonitor.StructLayouts
import NodeMonitor.ProcessSums
import NodeMonitor.AtomicObjects
import NodeMonitor.LockedObjects
import NodeMonitor.Readings
import NodeMonitor.Messages
import NodeMonitor.Score
import NodeMonitor.Ranking
import NodeMonitor.AgentManager
import NodeMonitor.AgentScores
import NodeMonitor.ChangeRates
import NodeMonitor.MetricHistories
import NodeMonitor.ManagerThreads
import NodeMonitor.Relay
import NodeMonitor.RelayThreads
import NodeMonitor.Deployment
import NodeMonitor.DiskMonitor
import NodeMonitor.DiskIsolation
import NodeMonitor.DiskAccounts
import NodeMonitor.DiskBounds
import NodeMonitor.ReadFile
import NodeMonitor.MemMonitor
import NodeMonitor.MemFigures
import NodeMonitor.KernelTables
import NodeMonitor.Hotplug
import NodeMonitor.CpuStatMonitor
import NodeMonitor.CpuShares
import NodeMonitor.CpuPrecision
import NodeMonitor.CoreCounts
import NodeMonitor.SoftirqMonitor
import NodeMonitor.CpuLoadMonitor
import NodeMonitor.PageMapping
import NodeMonitor.ModuleLifecycle
import NodeMonitor.SharedRecords
import NodeMonitor.MappedPolls
import NodeMonitor.TornReads
import NodeMonitor.NetCounters
import NodeMonitor.PacketCounts
import NodeMonitor.NetMonitor
import NodeMonitor.NetAccounts
import NodeMonitor.NetOrder
import NodeMonitor.Traffic
import NodeMonitor.Agent
import NodeMonitor.Fleet
import NodeMonitor.Registers
import NodeMonitor.FleetThreads
import NodeMonitor.FleetSimulation
import NodeMonitor.Freshness
