import NodeMonitor.InputStreams
import NodeMonitor.KeyedMaps
import NodeMonitor.Messages
import NodeMonitor.Readings

/-!
The disk monitor. Every line of `/proc/diskstats` is parsed into a name and nine
counters; unless the device is virtual, a record with the counters and the rates
since the stored baseline of that name is published and the baseline replaced.
-/

namespace NodeMonitor.DiskMonitor

open InputStreams KeyedMaps Messages Readings

structure DiskSample where
  reads : UInt64 := 0
  writes : UInt64 := 0
  sectorsRead : UInt64 := 0
  sectorsWritten : UInt64 := 0
  readTimeMs : UInt64 := 0
  writeTimeMs : UInt64 := 0
  ioInProgress : UInt64 := 0
  ioTimeMs : UInt64 := 0
  weightedIoTimeMs : UInt64 := 0
deriving DecidableEq

/-- The two file-level maps shared by all devices. -/
structure State where
  lastSamples : KeyedMap String DiskSample
  lastTime : KeyedMap String ℚ

def initial : State := ⟨empty, empty⟩

/-- The extractions of one line, in the order of the source: the counters follow
each other immediately, from the fourth column on. -/
def parseLine (line : List Char) : String × DiskSample :=
  let major := extractInteger int32Type { rest := line } 0
  let minor := extractInteger int32Type major.1 0
  let name := extractWord minor.1 []
  let reads := extractInteger uint64Type name.1 0
  let writes := extractInteger uint64Type reads.1 0
  let sectorsRead := extractInteger uint64Type writes.1 0
  let sectorsWritten := extractInteger uint64Type sectorsRead.1 0
  let readTimeMs := extractInteger uint64Type sectorsWritten.1 0
  let writeTimeMs := extractInteger uint64Type readTimeMs.1 0
  let ioInProgress := extractInteger uint64Type writeTimeMs.1 0
  let ioTimeMs := extractInteger uint64Type ioInProgress.1 0
  let weightedIoTimeMs := extractInteger uint64Type ioTimeMs.1 0
  (String.ofList name.2,
    { reads := reads.2
      writes := writes.2
      sectorsRead := sectorsRead.2
      sectorsWritten := sectorsWritten.2
      readTimeMs := readTimeMs.2
      writeTimeMs := writeTimeMs.2
      ioInProgress := ioInProgress.2
      ioTimeMs := ioTimeMs.2
      weightedIoTimeMs := weightedIoTimeMs.2 })

/-- Loop and RAM disks are skipped. -/
def isVirtual (name : String) : Bool :=
  "loop".toList.isPrefixOf name.toList || "ram".toList.isPrefixOf name.toList

/-- The published record: the counters, and rates when there is a baseline and
the clock has advanced. -/
def diskInfo (name : String) (curr : DiskSample) (last : Option DiskSample) (dt : ℚ) :
    DiskInfo :=
  let counters : DiskInfo :=
    { name := name
      reads := curr.reads
      writes := curr.writes
      sectorsRead := curr.sectorsRead
      sectorsWritten := curr.sectorsWritten
      readTimeMs := curr.readTimeMs
      writeTimeMs := curr.writeTimeMs
      ioInProgress := curr.ioInProgress
      ioTimeMs := curr.ioTimeMs
      weightedIoTimeMs := curr.weightedIoTimeMs }
  match last with
  | none => counters
  | some last =>
    if 0 < dt then
      let readIos := delta curr.reads last.reads
      let writeIos := delta curr.writes last.writes
      let readBytes := delta curr.sectorsRead last.sectorsRead * 512
      let writeBytes := delta curr.sectorsWritten last.sectorsWritten * 512
      let readTime := delta curr.readTimeMs last.readTimeMs
      let writeTime := delta curr.writeTimeMs last.writeTimeMs
      let ioTime := delta curr.ioTimeMs last.ioTimeMs
      { counters with
        readBytesPerSec := readBytes / dt
        writeBytesPerSec := writeBytes / dt
        readIops := readIos / dt
        writeIops := writeIos / dt
        avgReadLatencyMs := if 0 < readIos then readTime / readIos else 0
        avgWriteLatencyMs := if 0 < writeIos then writeTime / writeIos else 0
        utilPercent := ioTime / (dt * 10) }
    else counters

/-- The time of the last poll; `last_time[name]` reads zero for a new name. -/
def lastTimeOf (s : State) (name : String) : ℚ := (s.lastTime name).getD 0

/-- The body of the loop over the lines. -/
def processLine (now : ℚ) (acc : State × List DiskInfo) (line : List Char) :
    State × List DiskInfo :=
  let s := acc.1
  let (name, curr) := parseLine line
  if isVirtual name then acc
  else
    let disk := diskInfo name curr (s.lastSamples name) (now - lastTimeOf s name)
    ({ lastSamples := assign s.lastSamples name curr
       lastTime := assign s.lastTime name now }, acc.2 ++ [disk])

/-- One poll over the contents of the file, at a reading of `time(nullptr)`. -/
def updateOnce (s : State) (now : ℤ) (content : List Char) (info : MonitorInfo) :
    State × MonitorInfo :=
  let result := (splitLines content).foldl (processLine now) (s, info.diskInfo)
  (result.1, { info with diskInfo := result.2 })

/-! ### Reading back a device line -/

/-- A device as the kernel documents it for `/proc/diskstats`. -/
structure DeviceRecord where
  major : ℤ
  minor : ℤ
  name : String
  readsCompleted : UInt64
  readsMerged : UInt64
  sectorsRead : UInt64
  msReading : UInt64
  writesCompleted : UInt64
  writesMerged : UInt64
  sectorsWritten : UInt64
  msWriting : UInt64
  iosInProgress : UInt64
  msDoingIo : UInt64
  weightedMs : UInt64
  further : List UInt64
  major_range : -2 ^ 31 ≤ major ∧ major < 2 ^ 31
  minor_range : -2 ^ 31 ≤ minor ∧ minor < 2 ^ 31
  name_word : Word name.toList
  name_physical : isVirtual name = false

/-- The blanks of one printed line: before each column, and after the last. -/
structure Spacing where
  before : ℕ → List Char
  after : List Char
  before_blank : ∀ i, Blank (before i)
  before_ne_nil : ∀ i, before (i + 1) ≠ []
  after_blank : Blank after

/-- The columns from the `i`-th on, each behind its blanks. -/
def Spacing.layout (sp : Spacing) : ℕ → List (List Char) → List Char
  | _, [] => sp.after
  | i, w :: ws => sp.before i ++ (w ++ sp.layout (i + 1) ws)

namespace DeviceRecord

/-- The counters in the documented order. -/
def counters (r : DeviceRecord) : List UInt64 :=
  [r.readsCompleted, r.readsMerged, r.sectorsRead, r.msReading, r.writesCompleted,
    r.writesMerged, r.sectorsWritten, r.msWriting, r.iosInProgress, r.msDoingIo, r.weightedMs]

def columns (r : DeviceRecord) : List (List Char) :=
  signed r.major :: signed r.minor :: r.name.toList ::
    (r.counters ++ r.further).map (fun v => decimal v.toNat)

def print (r : DeviceRecord) (sp : Spacing) : List Char := sp.layout 0 r.columns

/-- The record a faithful reading of the line would publish. -/
def Published (r : DeviceRecord) (d : DiskInfo) : Prop :=
  d.name = r.name ∧ d.reads = r.readsCompleted ∧ d.writes = r.writesCompleted ∧
    d.sectorsRead = r.sectorsRead ∧ d.sectorsWritten = r.sectorsWritten ∧
    d.readTimeMs = r.msReading ∧ d.writeTimeMs = r.msWriting ∧
    d.ioInProgress = r.iosInProgress ∧ d.ioTimeMs = r.msDoingIo ∧
    d.weightedIoTimeMs = r.weightedMs

/-- The sample the parser takes from the line: nine consecutive columns. -/
def parsed (r : DeviceRecord) : DiskSample where
  reads := r.readsCompleted
  writes := r.readsMerged
  sectorsRead := r.sectorsRead
  sectorsWritten := r.msReading
  readTimeMs := r.writesCompleted
  writeTimeMs := r.writesMerged
  ioInProgress := r.sectorsWritten
  ioTimeMs := r.msWriting
  weightedIoTimeMs := r.iosInProgress

end DeviceRecord

theorem layout_separated (sp : Spacing) (i : ℕ) (ws : List (List Char)) :
    Separated (sp.layout (i + 1) ws) := by
  intro c cs h
  cases ws with
  | nil =>
    have hmem : c ∈ sp.after := by
      change sp.after = c :: cs at h
      rw [h]
      exact List.mem_cons_self ..
    exact isSpace_of_blank sp.after_blank c hmem
  | cons w ws =>
    rw [Spacing.layout] at h
    cases hbefore : sp.before (i + 1) with
    | nil => exact absurd hbefore (sp.before_ne_nil i)
    | cons b bs =>
      rw [hbefore, List.cons_append] at h
      have hblank := sp.before_blank (i + 1)
      rw [hbefore] at hblank
      rw [← (List.cons.inj h).1]
      exact isSpace_of_blank hblank b (List.mem_cons_self ..)

theorem layout_cons_isEmpty (sp : Spacing) (i : ℕ) (w : List Char) (ws : List (List Char)) :
    (sp.layout (i + 1) (w :: ws)).isEmpty = false := by
  rw [Spacing.layout]
  cases hbefore : sp.before (i + 1) with
  | nil => exact absurd hbefore (sp.before_ne_nil i)
  | cons b bs => rfl

/-- A counter column followed by another column is read and leaves a good stream. -/
theorem extract_column (sp : Spacing) (i : ℕ) (v x : UInt64) (w : List Char)
    (ws : List (List Char)) :
    extractInteger uint64Type { rest := sp.layout i (decimal v.toNat :: w :: ws) } x =
      ({ rest := sp.layout (i + 1) (w :: ws) }, v) := by
  rw [Spacing.layout, extractUInt64_decimal _ _ x v (sp.before_blank i) (layout_separated sp i _),
    layout_cons_isEmpty]

theorem extract_signed_column (sp : Spacing) (i : ℕ) (z x : ℤ) (w : List Char)
    (ws : List (List Char)) (hz : -2 ^ 31 ≤ z ∧ z < 2 ^ 31) :
    extractInteger int32Type { rest := sp.layout i (signed z :: w :: ws) } x =
      ({ rest := sp.layout (i + 1) (w :: ws) }, z) := by
  rw [Spacing.layout, extractInt32_signed _ _ x z (sp.before_blank i) (layout_separated sp i _) hz,
    layout_cons_isEmpty]

theorem extract_word_column (sp : Spacing) (i : ℕ) (name x w : List Char)
    (ws : List (List Char)) (hname : Word name) :
    extractWord { rest := sp.layout i (name :: w :: ws) } x =
      ({ rest := sp.layout (i + 1) (w :: ws) }, name) := by
  rw [Spacing.layout,
    extractWord_word _ name _ x (isSpace_of_blank (sp.before_blank i)) hname
      (layout_separated sp i _),
    layout_cons_isEmpty]

/-- What the parser makes of a printed line: after the name it assigns consecutive
columns, so from the second counter on the fields get a neighbour's value. -/
theorem parseLine_print (r : DeviceRecord) (sp : Spacing) :
    parseLine (r.print sp) = (r.name, r.parsed) := by
  have hcolumns : r.columns = signed r.major :: signed r.minor :: r.name.toList ::
      decimal r.readsCompleted.toNat :: decimal r.readsMerged.toNat ::
      decimal r.sectorsRead.toNat :: decimal r.msReading.toNat ::
      decimal r.writesCompleted.toNat :: decimal r.writesMerged.toNat ::
      decimal r.sectorsWritten.toNat :: decimal r.msWriting.toNat ::
      decimal r.iosInProgress.toNat :: decimal r.msDoingIo.toNat ::
      decimal r.weightedMs.toNat :: r.further.map (fun v => decimal v.toNat) := rfl
  unfold parseLine
  simp only [DeviceRecord.print, hcolumns, extract_signed_column sp _ _ _ _ _ r.major_range,
    extract_signed_column sp _ _ _ _ _ r.minor_range,
    extract_word_column sp _ _ _ _ _ r.name_word, extract_column, String.ofList_toList]
  rfl

theorem layout_no_newline (sp : Spacing) (i : ℕ) (ws : List (List Char))
    (hws : ∀ w ∈ ws, Word w) : '\n' ∉ sp.layout i ws := by
  have hblank : ∀ cs, Blank cs → '\n' ∉ cs := by
    intro cs hcs hmem
    rcases hcs '\n' hmem with h | h <;> exact absurd h (by decide)
  induction ws generalizing i with
  | nil => exact hblank _ sp.after_blank
  | cons w ws ih =>
    rw [Spacing.layout, List.mem_append, List.mem_append]
    intro hmem
    rcases hmem with hbefore | hw | hrest
    · exact hblank _ (sp.before_blank i) hbefore
    · have hspace : isSpace '\n' = false := (hws w (List.mem_cons_self ..)).2 '\n' hw
      exact absurd hspace (by decide)
    · exact ih (i + 1) (fun v hv => hws v (List.mem_cons_of_mem _ hv)) hrest

theorem columns_word (r : DeviceRecord) : ∀ w ∈ r.columns, Word w := by
  intro w hw
  rcases List.mem_cons.mp hw with rfl | hw
  · exact signed_word _
  rcases List.mem_cons.mp hw with rfl | hw
  · exact signed_word _
  rcases List.mem_cons.mp hw with rfl | hw
  · exact r.name_word
  · obtain ⟨v, _, rfl⟩ := List.mem_map.mp hw
    exact decimal_word _

/-- Whatever the baseline, the published counters are those of the sample. -/
theorem diskInfo_counters (name : String) (curr : DiskSample) (last : Option DiskSample) (dt : ℚ) :
    (diskInfo name curr last dt).name = name ∧
      (diskInfo name curr last dt).reads = curr.reads ∧
      (diskInfo name curr last dt).writes = curr.writes ∧
      (diskInfo name curr last dt).sectorsRead = curr.sectorsRead ∧
      (diskInfo name curr last dt).sectorsWritten = curr.sectorsWritten ∧
      (diskInfo name curr last dt).readTimeMs = curr.readTimeMs ∧
      (diskInfo name curr last dt).writeTimeMs = curr.writeTimeMs ∧
      (diskInfo name curr last dt).ioInProgress = curr.ioInProgress ∧
      (diskInfo name curr last dt).ioTimeMs = curr.ioTimeMs ∧
      (diskInfo name curr last dt).weightedIoTimeMs = curr.weightedIoTimeMs := by
  cases last with
  | none => simp [diskInfo]
  | some last =>
    by_cases hdt : 0 < dt
    · simp [diskInfo, hdt]
    · simp [diskInfo, hdt]

/-- One printed device line adds one record, with the parsed sample. -/
theorem updateOnce_print (r : DeviceRecord) (sp : Spacing) (s : State) (now : ℤ)
    (info : MonitorInfo) :
    (updateOnce s now (r.print sp ++ ['\n']) info).2.diskInfo = info.diskInfo ++
      [diskInfo r.name r.parsed (s.lastSamples r.name) (now - lastTimeOf s r.name)] := by
  have hlines : splitLines (r.print sp ++ ['\n']) = [r.print sp] :=
    splitLines_append_newline _ [] (layout_no_newline sp 0 _ (columns_word r))
  simp only [updateOnce, hlines, List.foldl_cons, List.foldl_nil, processLine,
    parseLine_print, r.name_physical, Bool.false_eq_true, if_false]

/-- The condition under which the shifted columns carry the right values. -/
def DeviceRecord.ColumnsCoincide (r : DeviceRecord) : Prop :=
  r.readsMerged = r.writesCompleted ∧ r.msReading = r.sectorsWritten ∧
    r.writesCompleted = r.msReading ∧ r.writesMerged = r.msWriting ∧
    r.sectorsWritten = r.iosInProgress ∧ r.msWriting = r.msDoingIo ∧
    r.iosInProgress = r.weightedMs

theorem published_parsed_iff (r : DeviceRecord) (last : Option DiskSample) (dt : ℚ) :
    r.Published (diskInfo r.name r.parsed last dt) ↔ r.ColumnsCoincide := by
  obtain ⟨hname, hreads, hwrites, hsr, hsw, hrt, hwt, hio, hiot, hw⟩ :=
    diskInfo_counters r.name r.parsed last dt
  rw [DeviceRecord.Published, hname, hreads, hwrites, hsr, hsw, hrt, hwt, hio, hiot, hw]
  simp only [DeviceRecord.parsed, true_and]
  rfl

/-- A printed device line adds exactly its own record precisely when the columns
that the parser shifts happen to agree. -/
theorem disk_line_published_iff (r : DeviceRecord) (sp : Spacing) (s : State) (now : ℤ)
    (info : MonitorInfo) :
    (∃ d, (updateOnce s now (r.print sp ++ ['\n']) info).2.diskInfo = info.diskInfo ++ [d] ∧
        r.Published d) ↔ r.ColumnsCoincide := by
  rw [updateOnce_print]
  constructor
  · intro h
    obtain ⟨d, hd, hpublished⟩ := h
    have hlast := List.singleton_inj.mp (List.append_cancel_left hd)
    rw [← hlast] at hpublished
    exact (published_parsed_iff r _ _).mp hpublished
  · intro h
    exact ⟨_, rfl, (published_parsed_iff r _ _).mpr h⟩

/-- Columns behind single blanks. -/
def Spacing.single : Spacing where
  before i := if i = 0 then [] else [' ']
  after := []
  before_blank i c hc := by
    by_cases hi : i = 0
    · simp [hi] at hc
    · simp only [hi, if_false, List.mem_singleton] at hc
      exact Or.inl hc
  before_ne_nil i := by simp
  after_blank c hc := absurd hc List.not_mem_nil

def sda : DeviceRecord where
  major := 8
  minor := 0
  name := "sda"
  readsCompleted := 100
  readsMerged := 5
  sectorsRead := 2000
  msReading := 30
  writesCompleted := 50
  writesMerged := 2
  sectorsWritten := 800
  msWriting := 40
  iosInProgress := 0
  msDoingIo := 60
  weightedMs := 70
  further := []
  major_range := by decide
  minor_range := by decide
  name_word := by
    constructor
    · simp
    · intro c hc
      have hletter : c = 's' ∨ c = 'd' ∨ c = 'a' := by simpa using hc
      rcases hletter with rfl | rfl | rfl <;> rfl
  name_physical := by decide

/-- The line "8 0 sda 100 5 2000 30 50 2 800 40 0 60 70" is published with five
completed writes, the number of its merged reads. -/
theorem sda_line_misread :
    ¬ ∀ (r : DeviceRecord) (sp : Spacing) (s : State) (now : ℤ) (info : MonitorInfo),
      ∃ d, (updateOnce s now (r.print sp ++ ['\n']) info).2.diskInfo = info.diskInfo ++ [d] ∧
        r.Published d := by
  intro h
  obtain ⟨d, hd, hpublished⟩ := h sda Spacing.single initial 0 MonitorInfo.default
  rw [updateOnce_print] at hd
  have hlast := List.singleton_inj.mp (List.append_cancel_left hd)
  have hwrites : d.writes = 5 := by
    rw [← hlast]
    exact (diskInfo_counters _ _ _ _).2.2.1
  have hexpected : d.writes = 50 := hpublished.2.2.1
  rw [hwrites] at hexpected
  exact absurd hexpected (by decide)

end NodeMonitor.DiskMonitor
