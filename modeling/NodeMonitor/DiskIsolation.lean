import NodeMonitor.DiskMonitor
import NodeMonitor.Runs

/-!
Runs of the disk monitor, device by device. The two maps are shared by all lines of
all polls, but what is published under a name depends on that name's lines alone: the
monitor simulates one that is fed nothing else.
-/

namespace NodeMonitor.DiskIsolation

open DiskMonitor InputStreams KeyedMaps Messages Runs

/-- A reading of `time(nullptr)` and the contents of `/proc/diskstats`. -/
structure DiskPoll where
  now : ℤ
  content : List Char

/-- A poll publishes into a fresh message. -/
def publish (s : State) (poll : DiskPoll) : State × MonitorInfo :=
  updateOnce s poll.now poll.content MonitorInfo.default

def step (s : State) (poll : DiskPoll) : State := (publish s poll).1

def run (polls : List DiskPoll) : State := polls.foldl step initial

/-- The records published by each poll of a run. -/
def published (polls : List DiskPoll) : List (List DiskInfo) :=
  (visits step initial polls).map (fun v => (publish v.1 v.2).2.diskInfo)

/-- The poll of a machine with no other device. -/
def onlyDevice (name : String) (poll : DiskPoll) : DiskPoll where
  now := poll.now
  content := unlines ((splitLines poll.content).filter (fun line => (parseLine line).1 = name))

/-! ### One line -/

def store (s : State) (now : ℚ) (parsed : String × DiskSample) : State where
  lastSamples := assign s.lastSamples parsed.1 parsed.2
  lastTime := assign s.lastTime parsed.1 now

def record (s : State) (now : ℚ) (parsed : String × DiskSample) : DiskInfo :=
  diskInfo parsed.1 parsed.2 (s.lastSamples parsed.1) (now - lastTimeOf s parsed.1)

theorem processLine_virtual (now : ℚ) (acc : State × List DiskInfo) {line : List Char}
    (h : isVirtual (parseLine line).1 = true) : processLine now acc line = acc := by
  simp [processLine, h]

/-- The line of a physical device is published and stored. -/
theorem processLine_physical (now : ℚ) (acc : State × List DiskInfo) {line : List Char}
    (h : isVirtual (parseLine line).1 = false) :
    processLine now acc line =
      (store acc.1 now (parseLine line), acc.2 ++ [record acc.1 now (parseLine line)]) := by
  simp [processLine, h, store, record]

/-- The name and the counters of a published record. -/
def counters (disk : DiskInfo) : String × DiskSample :=
  (disk.name,
    { reads := disk.reads
      writes := disk.writes
      sectorsRead := disk.sectorsRead
      sectorsWritten := disk.sectorsWritten
      readTimeMs := disk.readTimeMs
      writeTimeMs := disk.writeTimeMs
      ioInProgress := disk.ioInProgress
      ioTimeMs := disk.ioTimeMs
      weightedIoTimeMs := disk.weightedIoTimeMs })

theorem counters_record (s : State) (now : ℚ) (parsed : String × DiskSample) :
    counters (record s now parsed) = parsed := by
  obtain ⟨hname, hreads, hwrites, hsr, hsw, hrt, hwt, hio, hiot, hw⟩ :=
    diskInfo_counters parsed.1 parsed.2 (s.lastSamples parsed.1) (now - lastTimeOf s parsed.1)
  rw [counters, record, hname, hreads, hwrites, hsr, hsw, hrt, hwt, hio, hiot, hw]

theorem name_record (s : State) (now : ℚ) (parsed : String × DiskSample) :
    (record s now parsed).name = parsed.1 :=
  congrArg Prod.fst (counters_record s now parsed)

/-- Every line of a physical device adds one record, in order, and no other line does. -/
theorem counters_foldl_processLine (now : ℚ) (acc : State × List DiskInfo)
    (lines : List (List Char)) :
    (lines.foldl (processLine now) acc).2.map counters =
      acc.2.map counters ++
        (lines.map parseLine).filter (fun parsed => !isVirtual parsed.1) := by
  induction lines generalizing acc with
  | nil => simp
  | cons line rest ih =>
    rw [List.foldl_cons, ih, List.map_cons]
    cases hvirtual : isVirtual (parseLine line).1 with
    | true => rw [processLine_virtual now acc hvirtual, List.filter_cons_of_neg (by simp [hvirtual])]
    | false =>
      rw [processLine_physical now acc hvirtual, List.filter_cons_of_pos (by simp [hvirtual]),
        List.map_append, List.map_singleton, counters_record, List.append_assoc,
        List.singleton_append]

/-! ### One device -/

/-- Two states keep the same baseline and time for a name. -/
def Agree (name : String) (s t : State) : Prop :=
  s.lastSamples name = t.lastSamples name ∧ s.lastTime name = t.lastTime name

theorem Agree.record {s t : State} {parsed : String × DiskSample} (h : Agree parsed.1 s t)
    (now : ℚ) : record s now parsed = record t now parsed := by
  rw [DiskIsolation.record, DiskIsolation.record, lastTimeOf, lastTimeOf, h.1, h.2]

theorem Agree.store {name : String} {s t : State} (h : Agree name s t) (now : ℚ)
    (parsed : String × DiskSample) : Agree name (store s now parsed) (store t now parsed) := by
  constructor
  · simp only [DiskIsolation.store, assign_apply, h.1]
  · simp only [DiskIsolation.store, assign_apply, h.2]

theorem Agree.store_other {name : String} {s t : State} (h : Agree name s t) (now : ℚ)
    {parsed : String × DiskSample} (hname : parsed.1 ≠ name) :
    Agree name (DiskIsolation.store s now parsed) t := by
  constructor
  · simp only [DiskIsolation.store, assign_of_ne _ _ hname.symm, h.1]
  · simp only [DiskIsolation.store, assign_of_ne _ _ hname.symm, h.2]

/-- The lines of other devices can be left out. -/
theorem foldl_processLine_only (name : String) (now : ℚ) (acc acc' : State × List DiskInfo)
    (hagree : Agree name acc.1 acc'.1)
    (hrecords : acc.2.filter (fun disk => disk.name = name) = acc'.2)
    (lines : List (List Char)) :
    let result := lines.foldl (processLine now) acc
    let result' := (lines.filter (fun line => (parseLine line).1 = name)).foldl
      (processLine now) acc'
    Agree name result.1 result'.1 ∧
      result.2.filter (fun disk => disk.name = name) = result'.2 := by
  induction lines generalizing acc acc' with
  | nil => exact ⟨hagree, hrecords⟩
  | cons line rest ih =>
    by_cases hname : (parseLine line).1 = name
    · subst hname
      rw [List.filter_cons_of_pos (by simp), List.foldl_cons, List.foldl_cons]
      cases hvirtual : isVirtual (parseLine line).1 with
      | true =>
        rw [processLine_virtual now acc hvirtual, processLine_virtual now acc' hvirtual]
        exact ih acc acc' hagree hrecords
      | false =>
        rw [processLine_physical now acc hvirtual, processLine_physical now acc' hvirtual]
        apply ih
        · exact hagree.store now _
        · rw [List.filter_append, hrecords, List.filter_singleton, name_record,
            hagree.record now]
          simp
    · rw [List.filter_cons_of_neg (by simpa using hname), List.foldl_cons]
      cases hvirtual : isVirtual (parseLine line).1 with
      | true =>
        rw [processLine_virtual now acc hvirtual]
        exact ih acc acc' hagree hrecords
      | false =>
        rw [processLine_physical now acc hvirtual]
        apply ih
        · exact hagree.store_other now hname
        · rw [List.filter_append, hrecords, List.filter_singleton, name_record]
          simp [hname]

theorem splitLines_onlyDevice (name : String) (poll : DiskPoll) :
    splitLines (onlyDevice name poll).content =
      (splitLines poll.content).filter (fun line => (parseLine line).1 = name) := by
  apply splitLines_unlines
  intro line hline
  exact newline_notMem_splitLines poll.content line (List.mem_filter.mp hline).1

/-- A poll and the poll of the device alone stay in lockstep. -/
theorem publish_onlyDevice (name : String) (s t : State) (poll : DiskPoll)
    (hagree : Agree name s t) :
    Agree name (step s poll) (step t (onlyDevice name poll)) ∧
      (publish s poll).2.diskInfo.filter (fun disk => disk.name = name) =
        (publish t (onlyDevice name poll)).2.diskInfo := by
  have hscan := foldl_processLine_only name poll.now (s, []) (t, []) hagree rfl
    (splitLines poll.content)
  rw [← splitLines_onlyDevice] at hscan
  exact hscan

/-! ### Line boundaries -/

/-- Both maps have the same keys, and no virtual device is among them. -/
def KeysMatch (s : State) : Prop :=
  ∀ name, ((s.lastSamples name).isSome ↔ (s.lastTime name).isSome) ∧
    ((s.lastSamples name).isSome → isVirtual name = false)

/-- A state between two lines of a poll of a run. -/
def LineBoundary (polls : List DiskPoll) (s : State) : Prop :=
  ∃ before poll after pre post, polls = before ++ poll :: after ∧
    splitLines poll.content = pre ++ post ∧
    s = (pre.foldl (processLine poll.now) (run before, [])).1

theorem keysMatch_initial : KeysMatch initial := by
  intro name
  simp [initial]

theorem KeysMatch.processLine {acc : State × List DiskInfo} (h : KeysMatch acc.1) (now : ℚ)
    (line : List Char) : KeysMatch (DiskMonitor.processLine now acc line).1 := by
  cases hvirtual : isVirtual (parseLine line).1 with
  | true =>
    rw [processLine_virtual now acc hvirtual]
    exact h
  | false =>
    rw [processLine_physical now acc hvirtual]
    intro name
    by_cases hname : name = (parseLine line).1
    · subst hname
      simp [DiskIsolation.store, hvirtual]
    · simpa [DiskIsolation.store, assign_of_ne _ _ hname] using h name

theorem KeysMatch.foldl {acc : State × List DiskInfo} (h : KeysMatch acc.1) (now : ℚ)
    (lines : List (List Char)) :
    KeysMatch (lines.foldl (DiskMonitor.processLine now) acc).1 :=
  foldl_invariant (DiskMonitor.processLine now) (fun acc => KeysMatch acc.1)
    (fun _ line hacc => hacc.processLine now line) acc lines h

theorem keysMatch_run (polls : List DiskPoll) : KeysMatch (run polls) :=
  foldl_invariant step KeysMatch (fun _ poll h => h.foldl poll.now _) initial polls
    keysMatch_initial

/-- Over any run, the records under a name and what is kept for it are those of a run fed
only the lines of that name; the lines of physical devices are published one by one in
order; and between two lines both maps have the same keys, all of physical devices. -/
theorem disks_isolated (polls : List DiskPoll) :
    (∀ name,
      (published polls).map (List.filter (fun disk => disk.name = name)) =
          published (polls.map (onlyDevice name)) ∧
        (run polls).lastSamples name = (run (polls.map (onlyDevice name))).lastSamples name ∧
        (run polls).lastTime name = (run (polls.map (onlyDevice name))).lastTime name) ∧
      (published polls).map (List.map counters) = polls.map (fun poll =>
        ((splitLines poll.content).map parseLine).filter (fun parsed => !isVirtual parsed.1)) ∧
      ∀ s, LineBoundary polls s → KeysMatch s := by
  refine ⟨?_, ?_, ?_⟩
  · intro name
    obtain ⟨hagree, hpublished⟩ := lockstep step step (onlyDevice name)
      (fun s poll => (publish s poll).2.diskInfo.filter (fun disk => disk.name = name))
      (fun s poll => (publish s poll).2.diskInfo) (Agree name)
      (fun s t poll h => publish_onlyDevice name s t poll h) initial initial ⟨rfl, rfl⟩ polls
    refine ⟨?_, hagree⟩
    rw [published, List.map_map]
    exact hpublished
  · have hpolls := map_snd_visits step initial polls
    rw [published, List.map_map]
    conv_rhs => rw [← hpolls, List.map_map]
    apply List.map_congr_left
    intro v _
    exact counters_foldl_processLine v.2.now (v.1, []) (splitLines v.2.content)
  · rintro s ⟨before, poll, _, pre, _, _, _, rfl⟩
    exact (keysMatch_run before).foldl poll.now pre

end NodeMonitor.DiskIsolation
