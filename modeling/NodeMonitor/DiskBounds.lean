import NodeMonitor.DiskAccounts

/-!
Bounds of the published disk figures. A rate stands for more than the device has
ever done when a counter is smaller than in the baseline, which outlives the
device; the utilisation exceeds a hundred percent when the whole seconds between
two readings of the clock fall short of the busy time.
-/

namespace NodeMonitor.DiskBounds

open Baselines DiskAccounts DiskIsolation DiskMonitor InputStreams Messages Readings

/-! ### Rates within the counters -/

/-- The interval of a record, `now - last_time[name]`, where a new name reads zero. -/
def interval (o : Observation) : ℚ := o.dt.getD o.now

/-- What the rates stand for does not exceed the counters of the same record. -/
structure WithinCounters (disk : DiskInfo) (dt : ℚ) : Prop where
  reads : disk.readIops * dt ≤ disk.reads.toNat
  writes : disk.writeIops * dt ≤ disk.writes.toNat
  readBytes : disk.readBytesPerSec * dt ≤ 512 * disk.sectorsRead.toNat
  writeBytes : disk.writeBytesPerSec * dt ≤ 512 * disk.sectorsWritten.toNat
  ioTime : disk.utilPercent * dt * 10 ≤ disk.ioTimeMs.toNat

/-- None of the counters behind these rates is smaller than in the baseline. -/
structure Grown (last curr : DiskSample) : Prop where
  reads : last.reads ≤ curr.reads
  writes : last.writes ≤ curr.writes
  sectorsRead : last.sectorsRead ≤ curr.sectorsRead
  sectorsWritten : last.sectorsWritten ≤ curr.sectorsWritten
  ioTime : last.ioTimeMs ≤ curr.ioTimeMs

section Interval

variable {dt : ℚ} (hdt : 0 < dt)

include hdt

theorem iops_le_iff (curr last : UInt64) :
    delta curr last / dt * dt ≤ curr.toNat ↔ last ≤ curr := by
  rw [div_mul_cancel₀ _ hdt.ne', delta_le_iff]

theorem bytes_le_iff (curr last : UInt64) :
    delta curr last * 512 / dt * dt ≤ 512 * curr.toNat ↔ last ≤ curr := by
  rw [div_mul_cancel₀ _ hdt.ne', mul_comm, mul_le_mul_iff_right₀ (by norm_num), delta_le_iff]

theorem busy_le_iff (curr last : UInt64) :
    delta curr last / (dt * 10) * dt * 10 ≤ curr.toNat ↔ last ≤ curr := by
  rw [mul_assoc, div_mul_cancel₀ _ (by positivity), delta_le_iff]

theorem withinCounters_diskInfo_iff (name : String) (curr last : DiskSample) :
    WithinCounters (diskInfo name curr (some last) dt) dt ↔ Grown last curr := by
  have hwithin : WithinCounters (diskInfo name curr (some last) dt) dt ↔
      delta curr.reads last.reads / dt * dt ≤ curr.reads.toNat ∧
        delta curr.writes last.writes / dt * dt ≤ curr.writes.toNat ∧
        delta curr.sectorsRead last.sectorsRead * 512 / dt * dt ≤ 512 * curr.sectorsRead.toNat ∧
        delta curr.sectorsWritten last.sectorsWritten * 512 / dt * dt ≤
          512 * curr.sectorsWritten.toNat ∧
        delta curr.ioTimeMs last.ioTimeMs / (dt * 10) * dt * 10 ≤ curr.ioTimeMs.toNat := by
    simp only [diskInfo, hdt, if_true]
    constructor
    · rintro ⟨hreads, hwrites, hreadBytes, hwriteBytes, hioTime⟩
      exact ⟨hreads, hwrites, hreadBytes, hwriteBytes, hioTime⟩
    · rintro ⟨hreads, hwrites, hreadBytes, hwriteBytes, hioTime⟩
      exact ⟨hreads, hwrites, hreadBytes, hwriteBytes, hioTime⟩
  rw [hwithin, iops_le_iff hdt, iops_le_iff hdt, bytes_le_iff hdt, bytes_le_iff hdt,
    busy_le_iff hdt]
  constructor
  · rintro ⟨hreads, hwrites, hread, hwritten, hioTime⟩
    exact ⟨hreads, hwrites, hread, hwritten, hioTime⟩
  · rintro ⟨hreads, hwrites, hread, hwritten, hioTime⟩
    exact ⟨hreads, hwrites, hread, hwritten, hioTime⟩

end Interval

/-- The record of a new name has no rates. -/
theorem withinCounters_first (name : String) (seen : DiskReading) (dt : ℚ) :
    WithinCounters (comparison name none seen).published dt := by
  constructor <;> simp [comparison, diskInfo]

theorem interval_comparison (name : String) (p : DiskReading × DiskReading) :
    interval (comparison name (some p.1.record) p.2) = p.2.now - p.1.now := rfl

theorem withinCounters_comparison_iff (name : String) (p : DiskReading × DiskReading) :
    (0 < interval (comparison name (some p.1.record) p.2) →
        WithinCounters (comparison name (some p.1.record) p.2).published
          (interval (comparison name (some p.1.record) p.2))) ↔
      (p.1.now < p.2.now → Grown p.1.sample p.2.sample) := by
  have hclock : 0 < interval (comparison name (some p.1.record) p.2) ↔ p.1.now < p.2.now := by
    rw [interval_comparison, sub_pos, Int.cast_lt]
  rw [hclock]
  apply imp_congr_right
  intro hlt
  exact withinCounters_diskInfo_iff (hclock.mpr hlt) name p.2.sample p.1.sample

theorem withinCounters_iff (polls : List DiskPoll) (name : String) :
    (∀ o ∈ observations name polls, 0 < interval o → WithinCounters o.published (interval o)) ↔
      ∀ p ∈ steps (readings name polls), p.1.now < p.2.now → Grown p.1.sample p.2.sample := by
  cases hseen : readings name polls with
  | nil => simp [observations_eq, hseen, chain, steps]
  | cons first rest =>
    rw [observations_eq, hseen, chain, List.map_cons, List.forall_mem_cons, chain_some]
    simp only [List.map_map, List.forall_mem_map]
    constructor
    · rintro ⟨_, hlater⟩ p hp
      exact (withinCounters_comparison_iff name p).mp (hlater p hp)
    · intro hgrown
      refine ⟨fun _ => withinCounters_first name first _, ?_⟩
      intro p hp
      exact (withinCounters_comparison_iff name p).mpr (hgrown p hp)

/-- In every run, what the published rates stand for stays within the counters exactly
when at every poll that finds the clock advanced no counter of a device is smaller than
at the poll before that saw the device. -/
theorem no_phantom_activity_iff (polls : List DiskPoll) :
    (∀ name, (observations name polls).map Observation.published =
        (published polls).flatten.filter (fun disk => disk.name = name)) ∧
      ((∀ name, ∀ o ∈ observations name polls, 0 < interval o →
          WithinCounters o.published (interval o)) ↔
        ∀ name, ∀ p ∈ steps (readings name polls), p.1.now < p.2.now →
          Grown p.1.sample p.2.sample) :=
  ⟨fun name => published_observations name polls,
    forall_congr' (fun name => withinCounters_iff polls name)⟩

/-- The device `sda` after it was taken out and its counters started again. -/
def sdaRestarted : DeviceRecord :=
  { sda with
    readsCompleted := 1
    readsMerged := 0
    sectorsRead := 8
    msReading := 1
    writesCompleted := 1
    writesMerged := 0
    sectorsWritten := 8
    msWriting := 1
    msDoingIo := 2
    weightedMs := 2 }

/-- The first read of the returned device is published as nearly `2 ^ 64` reads. -/
theorem sdaRestarted_not_within :
    ¬ ∀ (polls : List DiskPoll) (name : String), ∀ o ∈ observations name polls,
      0 < interval o → WithinCounters o.published (interval o) := by
  intro h
  let polls := [devicePoll 100 sda, { now := 103, content := [] }, devicePoll 106 sdaRestarted]
  have hseen : readings "sda" polls = [⟨100, sda.parsed⟩, ⟨106, sdaRestarted.parsed⟩] := by
    rw [readings_sda]
    exact congrArg (List.cons _) (readings_devicePoll 106 sdaRestarted [])
  have hgrown := (withinCounters_iff polls "sda").mp (h polls "sda")
    (⟨100, sda.parsed⟩, ⟨106, sdaRestarted.parsed⟩) (by rw [hseen]; exact List.mem_cons_self ..)
    (by norm_num)
  exact absurd hgrown.reads (by decide)

/-! ### Utilisation -/

/-- A poll at a time in milliseconds. -/
structure TimedPoll where
  time : ℤ
  content : List Char

/-- `time(nullptr)` reads whole seconds. -/
def TimedPoll.poll (timed : TimedPoll) : DiskPoll where
  now := timed.time / 1000
  content := timed.content

/-- What a line tells about a device, with the time of its poll. -/
structure TimedReading where
  time : ℤ
  sample : DiskSample

def TimedReading.reading (seen : TimedReading) : DiskReading where
  now := seen.time / 1000
  sample := seen.sample

def timedReadings (name : String) (polls : List TimedPoll) : List TimedReading :=
  polls.flatMap (fun timed =>
    (readings name [timed.poll]).map (fun seen => { time := timed.time, sample := seen.sample }))

/-- The readings of a device in a run, each with the record published for it. -/
def timedRecords (name : String) (polls : List TimedPoll) : List (TimedReading × DiskInfo) :=
  (timedReadings name polls).zip
    ((observations name (polls.map TimedPoll.poll)).map Observation.published)

/-- The milliseconds by which `io_time_ms` advanced. -/
def busy (last curr : TimedReading) : ℕ := (curr.sample.ioTimeMs - last.sample.ioTimeMs).toNat

/-- The idle milliseconds make up for what the whole seconds between the two readings of
the clock leave out. -/
def IdleEnough (last curr : TimedReading) : Prop :=
  curr.time % 1000 - last.time % 1000 ≤ curr.time - last.time - busy last curr

theorem readings_cons (name : String) (poll : DiskPoll) (rest : List DiskPoll) :
    readings name (poll :: rest) = readings name [poll] ++ readings name rest := by
  simp only [readings, lineReads, List.flatMap_cons, List.flatMap_nil, List.append_nil,
    List.filterMap_append]

theorem now_of_mem_readings {name : String} {poll : DiskPoll} {seen : DiskReading}
    (h : seen ∈ readings name [poll]) : seen.now = poll.now := by
  simp only [readings, lineReads, List.flatMap_cons, List.flatMap_nil, List.append_nil,
    List.mem_filterMap, pollReads, List.mem_map] at h
  obtain ⟨_, ⟨line, _, rfl⟩, hread⟩ := h
  obtain ⟨_, rfl⟩ := (reading_eq_some_iff name _ seen).mp hread
  rfl

/-- The times of the readings determine what the clock shows. -/
theorem map_reading_timedReadings (name : String) (polls : List TimedPoll) :
    (timedReadings name polls).map TimedReading.reading =
      readings name (polls.map TimedPoll.poll) := by
  induction polls with
  | nil => rfl
  | cons timed rest ih =>
    have hfirst : (readings name [timed.poll]).map
        (TimedReading.reading ∘ fun seen => { time := timed.time, sample := seen.sample }) =
          readings name [timed.poll] := by
      rw [List.map_congr_left, List.map_id]
      intro seen hseen
      have hnow : seen.now = timed.time / 1000 := now_of_mem_readings hseen
      rw [Function.comp_apply, TimedReading.reading, ← hnow]
      rfl
    rw [List.map_cons, readings_cons, ← ih, timedReadings, List.flatMap_cons, List.map_append,
      List.map_map, hfirst]
    rfl

/-- The record of a reading that is compared with an earlier one. -/
def comparedRecord (name : String) (q : Option TimedReading × TimedReading) : DiskInfo :=
  (comparison name (q.1.map (fun seen => seen.reading.record)) q.2.reading).published

/-- The records of a device compare its readings in a chain. -/
theorem observations_timed (name : String) (polls : List TimedPoll) :
    (observations name (polls.map TimedPoll.poll)).map Observation.published =
      (chain none (timedReadings name polls)).map (comparedRecord name) := by
  have hchain := chain_map TimedReading.reading none (timedReadings name polls)
  rw [Option.map_none, map_reading_timedReadings] at hchain
  rw [observations_eq, hchain, List.map_map, List.map_map]
  apply List.map_congr_left
  intro q _
  rw [Function.comp_apply, Function.comp_apply, Option.map_map]
  rfl

theorem timedRecords_eq (name : String) (polls : List TimedPoll) :
    timedRecords name polls =
      (chain none (timedReadings name polls)).map (fun q => (q.2, comparedRecord name q)) := by
  have hreadings := map_snd_chain none (timedReadings name polls)
  rw [timedRecords, observations_timed]
  nth_rewrite 1 [← hreadings]
  exact List.zip_map'

theorem map_fst_timedRecords (name : String) (polls : List TimedPoll) :
    (timedRecords name polls).map Prod.fst = timedReadings name polls := by
  rw [timedRecords_eq, List.map_map]
  exact map_snd_chain none (timedReadings name polls)

/-- A record after the first compares its reading with the one before it. -/
theorem published_of_mem_steps {name : String} {polls : List TimedPoll}
    {p : (TimedReading × DiskInfo) × (TimedReading × DiskInfo)}
    (hp : p ∈ steps (timedRecords name polls)) :
    p.2.2 = (comparison name (some p.1.1.reading.record) p.2.1.reading).published := by
  rw [timedRecords_eq] at hp
  obtain ⟨before, last, curr, rfl⟩ := of_mem_steps_map_chain hp
  rfl

/-- The seconds between two readings of the clock. -/
theorem interval_pos {last curr : TimedReading} (h : last.time + 3000 ≤ curr.time) :
    0 < (curr.reading.now : ℚ) - last.reading.now := by
  have hseconds : last.time / 1000 < curr.time / 1000 := by omega
  rw [sub_pos]
  exact_mod_cast hseconds

theorem utilPercent_comparison (name : String) {last curr : TimedReading}
    (h : last.time + 3000 ≤ curr.time) :
    (comparison name (some last.reading.record) curr.reading).published.utilPercent =
      busy last curr / (((curr.time / 1000 - last.time / 1000 : ℤ) : ℚ) * 10) := by
  have hdt := interval_pos h
  simp only [comparison, Option.map_some, Option.getD_some, DiskReading.record, diskInfo, hdt,
    if_true]
  rw [Int.cast_sub]
  rfl

theorem utilPercent_le_iff (name : String) {last curr : TimedReading}
    (h : last.time + 3000 ≤ curr.time) :
    (comparison name (some last.reading.record) curr.reading).published.utilPercent ≤ 100 ↔
      IdleEnough last curr := by
  have hseconds : 0 < curr.time / 1000 - last.time / 1000 := by omega
  have hdt : 0 < ((curr.time / 1000 - last.time / 1000 : ℤ) : ℚ) * 10 := by
    have hcast : (0 : ℚ) < ((curr.time / 1000 - last.time / 1000 : ℤ) : ℚ) := by
      exact_mod_cast hseconds
    linarith
  have hwhole : (busy last curr : ℚ) ≤
      100 * (((curr.time / 1000 - last.time / 1000 : ℤ) : ℚ) * 10) ↔
        (busy last curr : ℤ) ≤ 100 * ((curr.time / 1000 - last.time / 1000) * 10) := by
    norm_cast
  rw [utilPercent_comparison name h, div_le_iff₀ hdt, hwhole, IdleEnough]
  omega

theorem utilPercent_nonneg (name : String) {last curr : TimedReading}
    (h : last.time + 3000 ≤ curr.time) :
    0 ≤ (comparison name (some last.reading.record) curr.reading).published.utilPercent := by
  have hseconds : 0 ≤ curr.time / 1000 - last.time / 1000 := by omega
  have hcast : (0 : ℚ) ≤ ((curr.time / 1000 - last.time / 1000 : ℤ) : ℚ) := by
    exact_mod_cast hseconds
  rw [utilPercent_comparison name h]
  positivity

/-- In every run, the utilisation published for a device at least three seconds after its
reading before is a percentage exactly when the device was idle long enough. -/
theorem utilisation_percentage_iff (polls : List TimedPoll) (name : String) :
    (timedRecords name polls).map Prod.fst = timedReadings name polls ∧
      (timedRecords name polls).map Prod.snd =
        (published (polls.map TimedPoll.poll)).flatten.filter (fun disk => disk.name = name) ∧
      ∀ p ∈ steps (timedRecords name polls), p.1.1.time + 3000 ≤ p.2.1.time →
        (0 ≤ p.2.2.utilPercent ∧ p.2.2.utilPercent ≤ 100 ↔ IdleEnough p.1.1 p.2.1) := by
  refine ⟨map_fst_timedRecords name polls, ?_, ?_⟩
  · rw [timedRecords_eq, List.map_map, ← published_observations, observations_timed]
    rfl
  · intro p hp htime
    rw [published_of_mem_steps hp, utilPercent_le_iff name htime]
    exact and_iff_right (utilPercent_nonneg name htime)

/-- The device `sda` after 3999 busy milliseconds. -/
def sdaBusy : DeviceRecord := { sda with msWriting := 4039, msDoingIo := 4059 }

def timedDevice (time : ℤ) (r : DeviceRecord) : TimedPoll where
  time := time
  content := (devicePoll 0 r).content

theorem timedReadings_sda (time : ℤ) (r : DeviceRecord) (hname : r.name = "sda")
    (rest : List TimedPoll) :
    timedReadings "sda" (timedDevice time r :: rest) =
      { time := time, sample := r.parsed } :: timedReadings "sda" rest := by
  have hreading : readings "sda" [(timedDevice time r).poll] =
      [{ now := time / 1000, sample := r.parsed }] := by
    rw [← hname]
    exact readings_devicePoll (time / 1000) r []
  rw [timedReadings, List.flatMap_cons, hreading]
  rfl

/-- A device that is busy from the start of a second to the end of the third second after
it is published with 133.3 percent. -/
theorem sdaBusy_not_percentage :
    ¬ ∀ (polls : List TimedPoll) (name : String), ∀ p ∈ steps (timedRecords name polls),
      p.1.1.time + 3000 ≤ p.2.1.time → (busy p.1.1 p.2.1 : ℤ) ≤ p.2.1.time - p.1.1.time →
        0 ≤ p.2.2.utilPercent ∧ p.2.2.utilPercent ≤ 100 := by
  intro h
  let polls := [timedDevice 0 sda, timedDevice 3999 sdaBusy]
  let last : TimedReading := ⟨0, sda.parsed⟩
  let curr : TimedReading := ⟨3999, sdaBusy.parsed⟩
  have hseen : timedReadings "sda" polls = [last, curr] := by
    rw [timedReadings_sda 0 sda rfl]
    exact congrArg (List.cons _) (timedReadings_sda 3999 sdaBusy rfl [])
  have hstep : ((last, comparedRecord "sda" (none, last)),
      (curr, comparedRecord "sda" (some last, curr))) ∈ steps (timedRecords "sda" polls) := by
    rw [timedRecords_eq, hseen]
    exact List.mem_cons_self ..
  have hbusy : busy last curr = 3999 := by decide
  have hpercent := (h polls "sda" _ hstep (by decide) (by rw [hbusy]; decide)).2
  have hidle : IdleEnough last curr := (utilPercent_le_iff "sda" (by decide)).mp hpercent
  rw [IdleEnough, hbusy] at hidle
  exact absurd hidle (by decide)

end NodeMonitor.DiskBounds
