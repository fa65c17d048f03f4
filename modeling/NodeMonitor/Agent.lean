import NodeMonitor.CpuLoadMonitor
import NodeMonitor.CpuStatMonitor
import NodeMonitor.DiskIsolation
import NodeMonitor.MemMonitor
import NodeMonitor.NetMonitor
import NodeMonitor.SoftirqMonitor

/-!
The agent's sampling loop. Every three seconds a fresh message with the user's name goes
through the six monitors in turn and is handed to the relay's client, whose failures are
only printed. A monitor keeps its own state and fills its own section, so the loop is the
product of the monitors; only the memory monitor can end it.
-/

namespace NodeMonitor.Agent

open DiskIsolation KernelTables KeyedMaps MemMonitor Messages Ranking Readings Runs Score

inductive Runner
  | cpuLoad | cpuSoftIrq | cpuStat | disk | mem | net
  deriving DecidableEq

/-- `runners_`, in the order in which `main` adds them. -/
def runners : List Runner := [.cpuLoad, .cpuSoftIrq, .cpuStat, .disk, .mem, .net]

/-- What the monitors find in one round; `memInfo` is what the record left uninitialized
by the memory monitor happens to hold. -/
structure Sample where
  load : Option CpuLoadMonitor.CpuLoadRow
  softirqs : Option (Table SoftirqRow)
  stats : Option (Table CpuStatRow)
  disks : DiskPoll
  meminfo : Option (List Char)
  memInfo : MenInfo
  clock : ℤ
  netStats : NetMonitor.StatsTable

/-- What the monitors remember from round to round. -/
structure State where
  cpuStatMap : CpuStatMonitor.Baselines
  disks : DiskMonitor.State
  lastNetInfo : NetMonitor.State

def start : State := ⟨empty, DiskMonitor.initial, empty⟩

/-- `runner->UpdateOnce(&monitor_info)`. -/
def updateOnce (x : Sample) (acc : State × MonitorInfo) :
    Runner → Except Fault (State × MonitorInfo)
  | .cpuLoad => .ok (acc.1, CpuLoadMonitor.updateOnce x.load acc.2)
  | .cpuSoftIrq => .ok (acc.1, SoftirqMonitor.updateOnce x.softirqs acc.2)
  | .cpuStat =>
    let result := CpuStatMonitor.updateOnce acc.1.cpuStatMap x.stats acc.2
    .ok ({ acc.1 with cpuStatMap := result.1 }, result.2)
  | .disk =>
    let result := DiskMonitor.updateOnce acc.1.disks x.disks.now x.disks.content acc.2
    .ok ({ acc.1 with disks := result.1 }, result.2)
  | .mem => (fun info => (acc.1, info)) <$> MemMonitor.updateOnce x.meminfo x.memInfo acc.2
  | .net =>
    let result := NetMonitor.updateOnce acc.1.lastNetInfo x.clock x.netStats acc.2
    .ok ({ acc.1 with lastNetInfo := result.1 }, result.2)

/-- One round of the loop, up to the message handed to `SetMonitorInfo`. -/
def pollOnce (order : List Runner) (username : String) (s : State) (x : Sample) :
    Except Fault (State × MonitorInfo) :=
  order.foldlM (updateOnce x) (s, { name := username })

/-- The sampling thread: in its loop, or ended by a fault it has no handler for. -/
inductive Process
  | running (s : State)
  | stopped (fault : Fault)

def step (order : List Runner) (username : String) (p : Process) (x : Sample) : Process :=
  match p with
  | .stopped fault => .stopped fault
  | .running s =>
    match pollOnce order username s x with
    | .ok (next, _) => .running next
    | .error fault => .stopped fault

/-- The message handed to the client in a round. -/
def pushed (order : List Runner) (username : String) (p : Process) (x : Sample) :
    Option MonitorInfo :=
  match p with
  | .stopped _ => none
  | .running s =>
    match pollOnce order username s x with
    | .ok (_, info) => some info
    | .error _ => none

def run (order : List Runner) (username : String) (samples : List Sample) : Process :=
  samples.foldl (step order username) (.running start)

/-- The messages of a run. -/
def pushes (order : List Runner) (username : String) (samples : List Sample) :
    List MonitorInfo :=
  (visits (step order username) (.running start) samples).filterMap
    (fun v => pushed order username v.1 v.2)

/-! ### What a monitor touches -/

/-- What a runner does to the state and the message, unless it faults. -/
def effect (x : Sample) : Runner → Except Fault (State × MonitorInfo → State × MonitorInfo)
  | .cpuLoad => .ok (fun acc => (acc.1, { acc.2 with
      cpuLoad := (CpuLoadMonitor.updateOnce x.load { cpuLoad := acc.2.cpuLoad }).cpuLoad }))
  | .cpuSoftIrq => .ok (fun acc => (acc.1, { acc.2 with
      softIrq := (SoftirqMonitor.updateOnce x.softirqs { softIrq := acc.2.softIrq }).softIrq }))
  | .cpuStat => .ok (fun acc =>
      let result := CpuStatMonitor.updateOnce acc.1.cpuStatMap x.stats { cpuStat := acc.2.cpuStat }
      ({ acc.1 with cpuStatMap := result.1 }, { acc.2 with cpuStat := result.2.cpuStat }))
  | .disk => .ok (fun acc =>
      let result := DiskMonitor.updateOnce acc.1.disks x.disks.now x.disks.content
        { diskInfo := acc.2.diskInfo }
      ({ acc.1 with disks := result.1 }, { acc.2 with diskInfo := result.2.diskInfo }))
  | .mem => (fun m acc => (acc.1, MemMonitor.publish acc.2 m)) <$> readMeminfo (openFile x.meminfo) x.memInfo
  | .net => .ok (fun acc =>
      let result := NetMonitor.updateOnce acc.1.lastNetInfo x.clock x.netStats
        { netInfo := acc.2.netInfo }
      ({ acc.1 with lastNetInfo := result.1 }, { acc.2 with netInfo := result.2.netInfo }))

theorem net_updateOnce (s : NetMonitor.State) (now : ℤ) (table : NetMonitor.StatsTable)
    (info : MonitorInfo) :
    NetMonitor.updateOnce s now table info =
      ((NetMonitor.updateOnce s now table { netInfo := info.netInfo }).1, { info with
        netInfo := (NetMonitor.updateOnce s now table { netInfo := info.netInfo }).2.netInfo }) := by
  refine Prod.ext ?_ ?_
  · simp only [NetMonitor.updateOnce, (NetMonitor.foldl_updateStat now _ _).1]
  · have hframe := NetMonitor.foldl_updateStat_frame now (s, info)
      (NetMonitor.ebpfGetNetStats table) (NetMonitor.updateOnce s now table info).2.netInfo
    rw [NetMonitor.netInfo_updateOnce_eq s now table { netInfo := info.netInfo },
      ← NetMonitor.netInfo_updateOnce_eq s now table info]
    exact hframe

/-- A runner changes its own part of the state and its own section, by these alone. -/
theorem updateOnce_eq (x : Sample) (acc : State × MonitorInfo) (r : Runner) :
    updateOnce x acc r = (fun change => change acc) <$> effect x r := by
  cases r with
  | cpuLoad =>
    cases hload : x.load with
    | none => simp [updateOnce, effect, hload, CpuLoadMonitor.updateOnce]
    | some row => simp [updateOnce, effect, hload, CpuLoadMonitor.updateOnce]
  | cpuSoftIrq =>
    cases hmapped : x.softirqs with
    | none => simp [updateOnce, effect, hmapped, SoftirqMonitor.updateOnce]
    | some table => simp [updateOnce, effect, hmapped, SoftirqMonitor.updateOnce]
  | cpuStat =>
    cases hmapped : x.stats with
    | none => simp [updateOnce, effect, hmapped, CpuStatMonitor.updateOnce]
    | some table => simp [updateOnce, effect, hmapped, CpuStatMonitor.updateOnce]
  | disk => rfl
  | mem =>
    rw [updateOnce, effect, MemMonitor.updateOnce]
    cases readMeminfo (openFile x.meminfo) x.memInfo with
    | error fault => rfl
    | ok m => rfl
  | net =>
    rw [updateOnce, effect, net_updateOnce]
    rfl

/-! ### The loop as a product -/

/-- Runners do not disturb each other. -/
theorem updateOnce_comm (x : Sample) (r q : Runner) (acc : State × MonitorInfo) :
    (updateOnce x acc r >>= fun mid => updateOnce x mid q) =
      updateOnce x acc q >>= fun mid => updateOnce x mid r := by
  simp only [updateOnce_eq]
  cases hread : readMeminfo (openFile x.meminfo) x.memInfo with
  | error fault => cases r <;> cases q <;> simp [effect, hread] <;> rfl
  | ok m => cases r <;> cases q <;> simp [effect, hread] <;> rfl

theorem pollOnce_perm {order : List Runner} (h : order.Perm runners) (username : String)
    (s : State) (x : Sample) : pollOnce order username s x = pollOnce runners username s x :=
  foldlM_perm h (updateOnce_comm x) _

/-- The monitors' states after a round. -/
def next (s : State) (x : Sample) : State where
  cpuStatMap := CpuStatMonitor.pollBaselines s.cpuStatMap x.stats
  disks := DiskIsolation.step s.disks x.disks
  lastNetInfo := (NetMonitor.updateOnce s.lastNetInfo x.clock x.netStats MonitorInfo.default).1

/-- The message of a round whose memory record ends up as `m`. -/
def message (username : String) (s : State) (x : Sample) (m : MenInfo) : MonitorInfo where
  name := username
  softIrq := (SoftirqMonitor.updateOnce x.softirqs MonitorInfo.default).softIrq
  cpuLoad := (CpuLoadMonitor.updateOnce x.load MonitorInfo.default).cpuLoad
  cpuStat := (CpuStatMonitor.updateOnce s.cpuStatMap x.stats MonitorInfo.default).2.cpuStat
  memInfo := some (memDetail m {})
  netInfo := (NetMonitor.updateOnce s.lastNetInfo x.clock x.netStats MonitorInfo.default).2.netInfo
  diskInfo := (DiskIsolation.publish s.disks x.disks).2.diskInfo

theorem pollOnce_runners (username : String) (s : State) (x : Sample) :
    pollOnce runners username s x = (fun m => (next s x, message username s x m)) <$>
      readMeminfo (openFile x.meminfo) x.memInfo := by
  rw [pollOnce, runners]
  simp only [List.foldlM_cons, List.foldlM_nil, updateOnce_eq]
  cases hread : readMeminfo (openFile x.meminfo) x.memInfo with
  | error fault => simp [effect, hread]; rfl
  | ok m => simp [effect, hread]; rfl

/-! ### Runs -/

/-- The memory monitor returns to the loop. -/
def returns (x : Sample) : Bool :=
  (MemMonitor.updateOnce x.meminfo x.memInfo MonitorInfo.default).isOk

/-- The memory record of a round that returns. -/
def record (x : Sample) : MenInfo :=
  match readMeminfo (openFile x.meminfo) x.memInfo with
  | .ok m => m
  | .error _ => x.memInfo

/-- The rounds before the first fault. -/
def rounds (samples : List Sample) : List Sample := samples.takeWhile returns

/-- What a monitor publishes when it runs by itself, each time into a fresh message. -/
def alone {S I B : Type*} (poll : S → I → S × MonitorInfo) (read : MonitorInfo → B) (s : S)
    (inputs : List I) : List B :=
  (visits (fun s i => (poll s i).1) s inputs).map (fun v => read (poll v.1 v.2).2)

theorem pollOnce_returns (username : String) (s : State) {x : Sample} (h : returns x = true) :
    pollOnce runners username s x = .ok (next s x, message username s x (record x)) ∧
      MemMonitor.updateOnce x.meminfo x.memInfo MonitorInfo.default =
        .ok (MemMonitor.publish MonitorInfo.default (record x)) := by
  rw [pollOnce_runners, record]
  rw [returns, MemMonitor.updateOnce] at h
  rw [MemMonitor.updateOnce]
  cases hread : readMeminfo (openFile x.meminfo) x.memInfo with
  | error fault =>
    rw [hread] at h
    exact absurd h (by simp [Bind.bind, Except.bind, Except.isOk, Except.toBool])
  | ok m => exact ⟨rfl, rfl⟩

theorem pollOnce_faults (username : String) (s : State) {x : Sample} (h : returns x = false) :
    ∃ fault, pollOnce runners username s x = .error fault := by
  rw [pollOnce_runners]
  rw [returns, MemMonitor.updateOnce] at h
  cases hread : readMeminfo (openFile x.meminfo) x.memInfo with
  | error fault => exact ⟨fault, rfl⟩
  | ok m =>
    rw [hread] at h
    exact absurd h (by simp [Bind.bind, Except.bind, Except.isOk, Except.toBool, pure, Except.pure])

theorem pushes_stopped (username : String) (fault : Fault) (samples : List Sample) :
    (visits (step runners username) (.stopped fault) samples).filterMap
      (fun v => pushed runners username v.1 v.2) = [] := by
  induction samples with
  | nil => rfl
  | cons x rest ih => exact ih

/-- A run goes through its rounds and hands over a message in each. -/
theorem pushes_running (username : String) (s : State) (samples : List Sample) :
    (visits (step runners username) (.running s) samples).filterMap
        (fun v => pushed runners username v.1 v.2) =
      (visits next s (rounds samples)).map (fun v => message username v.1 v.2 (record v.2)) := by
  induction samples generalizing s with
  | nil => rfl
  | cons x rest ih =>
    cases hreturns : returns x with
    | true =>
      obtain ⟨hpoll, _⟩ := pollOnce_returns username s hreturns
      have hstep : step runners username (.running s) x = .running (next s x) := by
        simp only [step, hpoll]
      have hpushed : pushed runners username (.running s) x =
          some (message username s x (record x)) := by
        simp only [pushed, hpoll]
      rw [rounds, List.takeWhile_cons_of_pos hreturns, ← rounds]
      simp only [visits, List.filterMap_cons, List.map_cons, hstep, hpushed, ih]
    | false =>
      obtain ⟨fault, hpoll⟩ := pollOnce_faults username s hreturns
      have hstep : step runners username (.running s) x = .stopped fault := by
        simp only [step, hpoll]
      have hpushed : pushed runners username (.running s) x = none := by
        simp only [pushed, hpoll]
      rw [rounds, List.takeWhile_cons_of_neg (by simp [hreturns])]
      simp only [visits, List.filterMap_cons, hstep, hpushed, pushes_stopped, List.map_nil]

theorem pushes_eq (username : String) (samples : List Sample) :
    pushes runners username samples = (visits next start (rounds samples)).map
      (fun v => message username v.1 v.2 (record v.2)) :=
  pushes_running username start samples

theorem running_iff (username : String) (p : Process) (samples : List Sample) :
    (∃ s, samples.foldl (step runners username) p = .running s) ↔
      (∃ s, p = .running s) ∧ rounds samples = samples := by
  induction samples generalizing p with
  | nil => simp [rounds]
  | cons x rest ih =>
    rw [List.foldl_cons, ih]
    cases p with
    | stopped fault => simp [step]
    | running s =>
      cases hreturns : returns x with
      | true =>
        obtain ⟨hpoll, _⟩ := pollOnce_returns username s hreturns
        simp [step, hpoll, rounds, hreturns]
      | false =>
        obtain ⟨fault, hpoll⟩ := pollOnce_faults username s hreturns
        simp [step, hpoll, rounds, hreturns]

/-- A section that depends on one monitor's part of the state and its own input. -/
theorem section_eq {S I B : Type*} (poll : S → I → S × MonitorInfo) (read : MonitorInfo → B)
    (part : State → S) (input : Sample → I) (username : String)
    (hnext : ∀ s x, part (next s x) = (poll (part s) (input x)).1)
    (hread : ∀ s x m, read (message username s x m) = read (poll (part s) (input x)).2)
    (samples : List Sample) :
    (pushes runners username samples).map read =
      alone poll read (part start) ((rounds samples).map input) := by
  have hlockstep := lockstep next (fun t i => (poll t i).1) input
    (fun s x => read (message username s x (record x))) (fun t i => read (poll t i).2)
    (fun s t => part s = t) (fun s t x hst => by
      subst hst
      exact ⟨hnext s x, hread s x (record x)⟩) start (part start) rfl (rounds samples)
  rw [pushes_eq, List.map_map, alone]
  exact hlockstep.2

/-- A section that depends on the round alone. -/
theorem section_eq_map {B : Type*} (read : MonitorInfo → B) (found : Sample → B)
    (username : String) (samples : List Sample)
    (hread : ∀ s, ∀ x ∈ rounds samples, read (message username s x (record x)) = found x) :
    (pushes runners username samples).map read = (rounds samples).map found := by
  rw [pushes_eq, List.map_map]
  conv_rhs => rw [← map_snd_visits next start (rounds samples), List.map_map]
  apply List.map_congr_left
  intro v hv
  exact hread v.1 v.2 (mem_of_mem_visits next hv)

/-- Every section of the messages is what its monitor alone makes of its own inputs, in
the rounds before the first fault of the memory monitor; there the loop ends. -/
structure Separate (username : String) (samples : List Sample) (sent : List MonitorInfo) :
    Prop where
  names : sent.map MonitorInfo.name = List.replicate (rounds samples).length username
  cpuLoad : sent.map MonitorInfo.cpuLoad = (rounds samples).map
    (fun x => (CpuLoadMonitor.updateOnce x.load MonitorInfo.default).cpuLoad)
  softIrq : sent.map MonitorInfo.softIrq = (rounds samples).map
    (fun x => (SoftirqMonitor.updateOnce x.softirqs MonitorInfo.default).softIrq)
  cpuStat : sent.map MonitorInfo.cpuStat =
    alone (fun s mapped => CpuStatMonitor.updateOnce s mapped MonitorInfo.default)
      MonitorInfo.cpuStat empty ((rounds samples).map Sample.stats)
  diskInfo : sent.map MonitorInfo.diskInfo =
    alone DiskIsolation.publish MonitorInfo.diskInfo DiskMonitor.initial
      ((rounds samples).map Sample.disks)
  memInfo : sent.map (fun info => (.ok info.memInfo : Except Fault (Option MemInfo))) =
    (rounds samples).map (fun x => MonitorInfo.memInfo <$>
      MemMonitor.updateOnce x.meminfo x.memInfo MonitorInfo.default)
  netInfo : sent.map MonitorInfo.netInfo =
    alone (fun s poll => NetMonitor.updateOnce s poll.1 poll.2 MonitorInfo.default)
      MonitorInfo.netInfo empty ((rounds samples).map (fun x => (x.clock, x.netStats)))
  ending : (∃ s, run runners username samples = .running s) ↔ rounds samples = samples

theorem agent_separates (username : String) (samples : List Sample) :
    Separate username samples (pushes runners username samples) where
  names := by
    rw [section_eq_map MonitorInfo.name (fun _ => username) username samples (fun _ _ _ => rfl),
      List.map_const']
  cpuLoad := section_eq_map _ _ username samples (fun _ _ _ => rfl)
  softIrq := section_eq_map _ _ username samples (fun _ _ _ => rfl)
  cpuStat := section_eq (fun s mapped => CpuStatMonitor.updateOnce s mapped MonitorInfo.default)
    MonitorInfo.cpuStat State.cpuStatMap Sample.stats username (fun _ _ => rfl)
    (fun _ _ _ => rfl) samples
  diskInfo := section_eq DiskIsolation.publish MonitorInfo.diskInfo State.disks Sample.disks
    username (fun _ _ => rfl) (fun _ _ _ => rfl) samples
  memInfo := by
    apply section_eq_map
    intro s x hx
    obtain ⟨_, hmem⟩ := pollOnce_returns username s (List.mem_takeWhile_imp hx)
    rw [hmem]
    rfl
  netInfo := section_eq (fun s poll => NetMonitor.updateOnce s poll.1 poll.2 MonitorInfo.default)
    MonitorInfo.netInfo State.lastNetInfo (fun x => (x.clock, x.netStats)) username
    (fun _ _ => rfl) (fun _ _ _ => rfl) samples
  ending := by
    rw [run, running_iff]
    simp

/-- Whatever the order in which the monitors are run, they hand over the same messages and
end in the same state. -/
theorem order_irrelevant {order : List Runner} (h : order.Perm runners) (username : String)
    (samples : List Sample) :
    pushes order username samples = pushes runners username samples ∧
      run order username samples = run runners username samples := by
  have hpoll : pollOnce order username = pollOnce runners username := by
    funext s x
    exact pollOnce_perm h username s x
  have hstep : step order username = step runners username := by
    funext p x
    simp only [step, hpoll]
  have hpushed : pushed order username = pushed runners username := by
    funext p x
    simp only [pushed, hpoll]
  rw [pushes, pushes, run, run, hstep, hpushed]
  exact ⟨rfl, rfl⟩

/-! ### The load term -/

theorem length_cpuStat_updateOnce (s : CpuStatMonitor.Baselines)
    (mapped : Option (Table CpuStatRow)) :
    (CpuStatMonitor.updateOnce s mapped MonitorInfo.default).2.cpuStat.length ≤ maxCpu := by
  have hrows : (CpuStatMonitor.rowsRead mapped).length ≤ maxCpu := by
    cases mapped with
    | none => exact Nat.zero_le _
    | some stats =>
      have hprefix := (List.takeWhile_sublist CpuStatMonitor.named (l := List.ofFn stats)).length_le
      rwa [List.length_ofFn] at hprefix
  rw [CpuStatMonitor.updateOnce_eq]
  simp only [MonitorInfo.default, List.nil_append, List.length_map]
  refine (List.length_filterMap_le _ _).trans ?_
  rw [← List.length_map Prod.snd, map_snd_visits]
  exact hrows

theorem cpuCores_message (username : String) (s : State) (x : Sample) (m : MenInfo) :
    (metrics (message username s x m)).cpuCores < 2 ^ 13 := by
  have hlength : (message username s x m).cpuStat.length ≤ maxCpu :=
    length_cpuStat_updateOnce s.cpuStatMap x.stats
  have hcores := cpuCores_metrics (message username s x m)
  have hmax : maxCpu < 2 ^ 13 := by decide
  omega

/-- In every message of every run the load term of the score is that of the kernel's own
fixed-point number, for the number of CPU entries in the message. -/
theorem load_term_exact (username : String) (samples : List Sample) :
    ∀ p ∈ (rounds samples).zip (pushes runners username samples), ∀ ticks,
      p.1.load = some (CpuLoadMonitor.tableAfter ticks) →
        loadScore (metrics p.2) =
          unused (CpuLoadMonitor.lastLoad ticks / CpuLoadMonitor.fixed1)
            (metrics p.2).cpuCores := by
  intro p hp ticks hload
  rw [pushes_eq] at hp
  nth_rewrite 1 [← map_snd_visits next start (rounds samples)] at hp
  rw [List.zip_map', List.mem_map] at hp
  obtain ⟨v, _, rfl⟩ := hp
  obtain ⟨n, hn, hlast⟩ := CpuLoadMonitor.loadAvg1_tableAfter ticks
  have hsame : CpuLoadMonitor.updateOnce (some (CpuLoadMonitor.tableAfter ticks))
      (message username v.1 v.2 (record v.2)) = message username v.1 v.2 (record v.2) := by
    simp only [message, show v.2.load = _ from hload, CpuLoadMonitor.updateOnce]
  have hterm := CpuLoadMonitor.loadScore_updateOnce n (CpuLoadMonitor.tableAfter ticks) hn
    (message username v.1 v.2 (record v.2)) (cpuCores_message username v.1 v.2 (record v.2))
  rw [hsame, hlast] at hterm
  exact hterm

/-- A host without devices and without readable files. -/
def bareHost : Sample where
  load := none
  softirqs := none
  stats := none
  disks := ⟨0, []⟩
  meminfo := none
  memInfo := ⟨0, 0, 0, 0, 0, 0, 0, 0, 0, 0, 0, 0, 0, 0, 0, 0, 0, 0, 0⟩
  clock := 0
  netStats := ⟨[], List.nodup_nil⟩

theorem returns_bareHost (row : CpuLoadMonitor.CpuLoadRow) :
    returns { bareHost with load := some row } = true := by
  rw [returns, MemMonitor.updateOnce_eq]
  rfl

/-- A load of two, in the units of the kernel, on a host that shows no CPU. -/
theorem load_term_exact_two :
    ∃ info ∈ pushes runners "root"
        [{ bareHost with load := some (CpuLoadMonitor.tableAfter [⟨4096, 0, 0⟩]) }],
      loadScore (metrics info) = unused (4096 / CpuLoadMonitor.fixed1) (metrics info).cpuCores := by
  let x : Sample := { bareHost with load := some (CpuLoadMonitor.tableAfter [⟨4096, 0, 0⟩]) }
  have hrounds : rounds [x] = [x] := by
    rw [rounds, List.takeWhile_cons_of_pos (returns_bareHost _), List.takeWhile_nil]
  have hpushes : pushes runners "root" [x] = [message "root" start x (record x)] := by
    rw [pushes_eq, hrounds]
    rfl
  have hzip : (x, message "root" start x (record x)) ∈
      (rounds [x]).zip (pushes runners "root" [x]) := by
    rw [hrounds, hpushes]
    exact List.mem_singleton.mpr rfl
  have hterm := load_term_exact "root" [x] _ hzip [⟨4096, 0, 0⟩] rfl
  refine ⟨_, by rw [hpushes]; exact List.mem_singleton.mpr rfl, ?_⟩
  simpa [CpuLoadMonitor.lastLoad] using hterm

theorem order_irrelevant_reverse :
    pushes runners.reverse "root" [bareHost, bareHost] =
        pushes runners "root" [bareHost, bareHost] ∧
      run runners.reverse "root" [bareHost, bareHost] =
        run runners "root" [bareHost, bareHost] :=
  order_irrelevant (by decide) "root" [bareHost, bareHost]

end NodeMonitor.Agent
