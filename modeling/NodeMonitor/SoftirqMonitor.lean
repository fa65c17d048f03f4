import NodeMonitor.FloatRounding
import NodeMonitor.Hotplug
import NodeMonitor.Messages
import NodeMonitor.PrefixScans
import Mathlib.Tactic.MkIffOfInductiveProp

/-!
The soft interrupt table between its writer and its reader. The kernel's timer
empties the name of every offline CPU's row in place; the agent takes the first
row with an empty name for the end of the table. The two conventions agree exactly
when the CPUs online at the last update form an initial segment of the ids; and the
counters, integers of 64 bits in the table, are `float` fields of the message.
-/

namespace NodeMonitor.SoftirqMonitor

open CharBuffers FloatRounding KernelTables Hotplug Messages PrefixScans

/-- The message of a row; its setters take `float`. -/
def softIrqMessage (row : SoftirqRow) : SoftIrq where
  cpu := cString row.cpuName
  hi := toFloat row.hi
  timer := toFloat row.timer
  netTx := toFloat row.netTx
  netRx := toFloat row.netRx
  block := toFloat row.block
  irqPoll := toFloat row.irqPoll
  tasklet := toFloat row.tasklet
  sched := toFloat row.sched
  hrtimer := toFloat row.hrtimer
  rcu := toFloat row.rcu

/-- The loop over the rows, left at the first row without a name. -/
def readRows (out : List SoftIrq) : List SoftirqRow → List SoftIrq
  | [] => out
  | row :: rest =>
    if unnamed row.cpuName then out else readRows (out ++ [softIrqMessage row]) rest

/-- One poll; `none` stands for a device that cannot be opened or mapped. -/
def updateOnce (mapped : Option (Table SoftirqRow)) (info : MonitorInfo) : MonitorInfo :=
  match mapped with
  | none => info
  | some stats => { info with softIrq := readRows info.softIrq (List.ofFn stats) }

/-! ### What a poll reads -/

theorem readRows_eq (out : List SoftIrq) (rows : List SoftirqRow) :
    readRows out rows =
      out ++ (rows.takeWhile (fun row => !unnamed row.cpuName)).map softIrqMessage := by
  induction rows generalizing out with
  | nil => simp [readRows]
  | cons row rest ih =>
    by_cases h : unnamed row.cpuName
    · simp [readRows, h]
    · simp [readRows, h, ih]

/-- A poll of a labelled table reads the CPUs up to the first one not in the set. -/
theorem softIrq_updateOnce (table : Table SoftirqRow) (last : ℕ → Bool)
    (h : Labelled softirqStats table last) (info : MonitorInfo) :
    (updateOnce (some table) info).softIrq = info.softIrq ++
      ((List.finRange maxCpu).takeWhile (fun cpu : Fin maxCpu => last cpu)).map
        (fun cpu => softIrqMessage (table cpu)) := by
  have hrows : (List.ofFn table).takeWhile (fun row => !unnamed row.cpuName) = _ :=
    takeWhile_named softirqStats table last h
  rw [updateOnce, readRows_eq, hrows, List.map_map]
  rfl

/-- The entry that belongs to a CPU with the given row; `value` says what stands for a
counter. -/
def entryFor (value : UInt64 → ℕ) (cpu : Fin maxCpu) (row : SoftirqRow) : SoftIrq where
  cpu := cpuName cpu
  hi := value row.hi
  timer := value row.timer
  netTx := value row.netTx
  netRx := value row.netRx
  block := value row.block
  irqPoll := value row.irqPoll
  tasklet := value row.tasklet
  sched := value row.sched
  hrtimer := value row.hrtimer
  rcu := value row.rcu

/-- One entry for each CPU of the set, in increasing id, from the CPU's own row. -/
def entriesFor (value : UInt64 → ℕ) (last : ℕ → Bool) (table : Table SoftirqRow) :
    List SoftIrq :=
  ((List.finRange maxCpu).filter (fun cpu : Fin maxCpu => last cpu)).map
    (fun cpu => entryFor value cpu (table cpu))

/-- A poll after the events appends the entries of the CPUs online at the last update. -/
def PollAgrees (value : UInt64 → ℕ) (online : ℕ → Bool) (events : List (Event SoftirqCounts))
    (info : MonitorInfo) : Prop :=
  (updateOnce (some (run softirqStats online events).table) info).softIrq = info.softIrq ++
    entriesFor value (lastOnline online events) (run softirqStats online events).table

/-- No counter of the row has more significant bits than a `float`. -/
@[mk_iff]
structure FitsFloat (row : SoftirqRow) : Prop where
  hi : Representable significandBits row.hi.toNat
  timer : Representable significandBits row.timer.toNat
  netTx : Representable significandBits row.netTx.toNat
  netRx : Representable significandBits row.netRx.toNat
  block : Representable significandBits row.block.toNat
  irqPoll : Representable significandBits row.irqPoll.toNat
  tasklet : Representable significandBits row.tasklet.toNat
  sched : Representable significandBits row.sched.toNat
  hrtimer : Representable significandBits row.hrtimer.toNat
  rcu : Representable significandBits row.rcu.toNat

theorem softIrqMessage_eq_entryFor (table : Table SoftirqRow) (last : ℕ → Bool)
    (h : Labelled softirqStats table last) (cpu : Fin maxCpu) (hcpu : last cpu = true) :
    softIrqMessage (table cpu) = entryFor toFloat cpu (table cpu) := by
  have hname := h cpu
  rw [if_pos hcpu] at hname
  rw [entryFor, ← hname]
  rfl

theorem entryFor_toFloat_iff (cpu : Fin maxCpu) (row : SoftirqRow) :
    entryFor toFloat cpu row = entryFor UInt64.toNat cpu row ↔ FitsFloat row := by
  simp only [entryFor, SoftIrq.mk.injEq, Nat.cast_inj, toFloat_eq_iff, true_and, fitsFloat_iff]

theorem noGap_of_pollAgrees (value : UInt64 → ℕ) (online : ℕ → Bool)
    (events : List (Event SoftirqCounts)) (info : MonitorInfo)
    (h : PollAgrees value online events info) : NoGap (lastOnline online events) := by
  rw [PollAgrees, softIrq_updateOnce _ _ (run_labelled softirqStats online events)] at h
  have hlength := congrArg List.length (List.append_cancel_left h)
  rw [entriesFor, List.length_map, List.length_map] at hlength
  exact (takeWhile_finRange_iff _).mp ((takeWhile_sublist_filter _ _).eq_of_length hlength)

/-- Without a gap the entries agree one by one. -/
theorem pollAgrees_iff_of_noGap (value : UInt64 → ℕ) (online : ℕ → Bool)
    (events : List (Event SoftirqCounts)) (info : MonitorInfo)
    (h : NoGap (lastOnline online events)) :
    PollAgrees value online events info ↔
      ∀ cpu : Fin maxCpu, lastOnline online events cpu = true →
        entryFor toFloat cpu ((run softirqStats online events).table cpu) =
          entryFor value cpu ((run softirqStats online events).table cpu) := by
  have hlabelled := run_labelled softirqStats online events
  rw [PollAgrees, softIrq_updateOnce _ _ hlabelled, (takeWhile_finRange_iff _).mpr h, entriesFor,
    List.append_cancel_left_eq, List.map_inj_left]
  simp only [List.mem_filter, List.mem_finRange, true_and]
  apply forall_congr'
  intro cpu
  apply imp_congr_right
  intro hcpu
  rw [softIrqMessage_eq_entryFor _ _ hlabelled cpu hcpu]

theorem pollAgrees_iff (value : UInt64 → ℕ) (online : ℕ → Bool)
    (events : List (Event SoftirqCounts)) (info : MonitorInfo) :
    PollAgrees value online events info ↔ NoGap (lastOnline online events) ∧
      ∀ cpu : Fin maxCpu, lastOnline online events cpu = true →
        entryFor toFloat cpu ((run softirqStats online events).table cpu) =
          entryFor value cpu ((run softirqStats online events).table cpu) := by
  constructor
  · intro h
    have hgap := noGap_of_pollAgrees value online events info h
    exact ⟨hgap, (pollAgrees_iff_of_noGap value online events info hgap).mp h⟩
  · rintro ⟨hgap, hentries⟩
    exact (pollAgrees_iff_of_noGap value online events info hgap).mpr hentries

/-- After every history of hotplug events, timer updates and polls, a poll reports exactly the
CPUs online at the last update, with the counters stored in their rows, precisely when these
have no gap and their counters fit a `float`; with the counters rounded, precisely when they
have no gap. -/
theorem softirq_poll_agrees_iff (online : ℕ → Bool) (events : List (Event SoftirqCounts))
    (info : MonitorInfo) :
    (PollAgrees UInt64.toNat online events info ↔ NoGap (lastOnline online events) ∧
      ∀ cpu : Fin maxCpu, lastOnline online events cpu = true →
        FitsFloat ((run softirqStats online events).table cpu)) ∧
    (PollAgrees toFloat online events info ↔ NoGap (lastOnline online events)) := by
  constructor
  · simp only [pollAgrees_iff, entryFor_toFloat_iff]
  · simp only [pollAgrees_iff, implies_true, and_true]

/-- On a machine with four CPUs of which the second goes offline, the poll after the
next update misses the third and the fourth. -/
theorem offline_cpu_hides_later_ones :
    ¬ ∀ (online : ℕ → Bool) (events : List (Event SoftirqCounts)) (info : MonitorInfo),
      PollAgrees UInt64.toNat online events info := by
  intro h
  let counts : SoftirqCounts := ⟨0, 0, 0, 0, 0, 0, 0, 0, 0, 0⟩
  have hgap := noGap_of_pollAgrees _ _ _ _
    (h (fun cpu => decide (cpu < 4)) [.hotplug 1 false, .timer (fun _ => counts)]
      MonitorInfo.default)
  have hlow := hgap ⟨1, by decide⟩ ⟨2, by decide⟩ (by decide) (by decide)
  exact absurd hlow (by decide)

end NodeMonitor.SoftirqMonitor
