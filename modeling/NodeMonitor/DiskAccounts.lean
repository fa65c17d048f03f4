import NodeMonitor.Baselines
import NodeMonitor.DiskIsolation

/-!
The activity the published disk rates account for. A rate is computed only when the
wall clock has advanced since the stored baseline, while the baseline is replaced in
any case; what a device did before a poll without an advance is never published.
-/

namespace NodeMonitor.DiskAccounts

open Baselines DiskIsolation DiskMonitor InputStreams KeyedMaps Messages Readings Runs

/-! ### Runs line by line -/

/-- A line with the clock reading of its poll. -/
structure LineRead where
  now : ℤ
  line : List Char

/-- The lines of one poll. -/
def pollReads (poll : DiskPoll) : List LineRead :=
  (splitLines poll.content).map (LineRead.mk poll.now)

def lineReads (polls : List DiskPoll) : List LineRead := polls.flatMap pollReads

/-- The state after a line, and the record published for it, if any. -/
def processRead (s : State) (read : LineRead) : State × List DiskInfo :=
  processLine read.now (s, []) read.line

def stepLine (s : State) (read : LineRead) : State := (processRead s read).1

theorem foldl_processLine_eq (now : ℤ) (s : State) (lines : List (List Char)) :
    let result := lines.foldl (processLine now) (s, [])
    let reads := lines.map (LineRead.mk now)
    result.1 = reads.foldl stepLine s ∧
      result.2 = (visits stepLine s reads).flatMap (fun v => (processRead v.1 v.2).2) := by
  have hbody : ∀ (acc : State × List DiskInfo) (read : LineRead),
      (processLine read.now acc read.line).1 = stepLine acc.1 read ∧
        (processLine read.now acc read.line).2 = acc.2 ++ (processRead acc.1 read).2 := by
    intro acc read
    cases hvirtual : isVirtual (parseLine read.line).1 with
    | true => simp [stepLine, processRead, processLine_virtual _ _ hvirtual]
    | false => simp [stepLine, processRead, processLine_physical _ _ hvirtual]
  have hcollect := foldl_collect (fun acc (read : LineRead) => processLine read.now acc read.line)
    stepLine id (fun s read => (processRead s read).2) (fun acc read => (hbody acc read).1)
    (fun acc read => (hbody acc read).2) (s, []) (lines.map (LineRead.mk now))
  rw [List.foldl_map] at hcollect
  exact hcollect

theorem published_flatten (s : State) (polls : List DiskPoll) :
    ((visits step s polls).map (fun v => (publish v.1 v.2).2.diskInfo)).flatten =
      (visits stepLine s (lineReads polls)).flatMap (fun v => (processRead v.1 v.2).2) := by
  induction polls generalizing s with
  | nil => rfl
  | cons poll rest ih =>
    obtain ⟨hstate, hrecords⟩ := foldl_processLine_eq poll.now s (splitLines poll.content)
    change step s poll = (pollReads poll).foldl stepLine s at hstate
    change (publish s poll).2.diskInfo =
      (visits stepLine s (pollReads poll)).flatMap (fun v => (processRead v.1 v.2).2) at hrecords
    rw [visits, List.map_cons, List.flatten_cons, ih, hrecords, hstate, ← List.flatMap_append,
      ← visits_append, lineReads, lineReads, List.flatMap_cons]

/-! ### Observations of a device -/

/-- What a line tells about a device, with the reading of the clock. -/
structure DiskReading where
  now : ℤ
  sample : DiskSample

/-- A record published for a device: the sample it was computed from, and the advance of
the clock since the reading stored with the baseline it was compared against. -/
structure Observation extends DiskReading where
  dt : Option ℚ
  published : DiskInfo

def reading (name : String) (read : LineRead) : Option DiskReading :=
  if (parseLine read.line).1 = name ∧ isVirtual name = false then
    some { now := read.now, sample := (parseLine read.line).2 }
  else none

def readings (name : String) (polls : List DiskPoll) : List DiskReading :=
  (lineReads polls).filterMap (reading name)

/-- The advance since the stored time, when there is a baseline. -/
def advance (s : State) (name : String) (now : ℤ) : Option ℚ :=
  (s.lastSamples name).map (fun _ => now - lastTimeOf s name)

def observation (name : String) (v : State × LineRead) : Option Observation :=
  (reading name v.2).bind (fun seen => (processRead v.1 v.2).2.head?.map (fun disk =>
    { toDiskReading := seen, dt := advance v.1 name seen.now, published := disk }))

/-- The records published under a name over a run, in order. -/
def observations (name : String) (polls : List DiskPoll) : List Observation :=
  (visits stepLine initial (lineReads polls)).filterMap (observation name)

/-- What is compared with the next reading. -/
def DiskReading.record (seen : DiskReading) : DiskSample × ℚ := (seen.sample, seen.now)

/-- The baseline of a name with the stored time. -/
def baseline (name : String) (s : State) : Option (DiskSample × ℚ) :=
  (s.lastSamples name).map (fun sample => (sample, lastTimeOf s name))

/-- The observation of a reading that is compared with a baseline. -/
def comparison (name : String) (last : Option (DiskSample × ℚ)) (seen : DiskReading) :
    Observation :=
  let dt := last.map (fun last => (seen.now : ℚ) - last.2)
  { toDiskReading := seen
    dt := dt
    published := diskInfo name seen.sample (last.map Prod.fst) (dt.getD 0) }

theorem reading_eq_some_iff (name : String) (read : LineRead) (seen : DiskReading) :
    reading name read = some seen ↔
      ((parseLine read.line).1 = name ∧ isVirtual name = false) ∧
        { now := read.now, sample := (parseLine read.line).2 } = seen := by
  rw [reading, Option.ite_none_right_eq_some, Option.some.injEq]

theorem reading_virtual (name : String) {read : LineRead}
    (h : isVirtual (parseLine read.line).1 = true) : reading name read = none := by
  rw [reading, if_neg]
  rintro ⟨rfl, hphysical⟩
  rw [h] at hphysical
  exact Bool.noConfusion hphysical

/-- A line replaces the baseline of its own name only. -/
theorem baseline_stepLine (name : String) (s : State) (read : LineRead) :
    baseline name (stepLine s read) =
      ((reading name read).map DiskReading.record).or (baseline name s) := by
  cases hvirtual : isVirtual (parseLine read.line).1 with
  | true =>
    rw [stepLine, processRead, processLine_virtual _ _ hvirtual, reading_virtual name hvirtual]
    rfl
  | false =>
    rw [stepLine, processRead, processLine_physical _ _ hvirtual]
    by_cases hname : (parseLine read.line).1 = name
    · subst hname
      rw [reading, if_pos ⟨rfl, hvirtual⟩]
      simp [baseline, store, lastTimeOf, DiskReading.record]
    · rw [reading, if_neg (fun h => hname h.1)]
      simp [baseline, store, lastTimeOf, assign_of_ne _ _ (Ne.symm hname)]

theorem observation_eq (name : String) :
    observation name = fun v => (reading name v.2).map (comparison name (baseline name v.1)) := by
  funext v
  rw [observation]
  cases hreading : reading name v.2 with
  | none => rfl
  | some seen =>
    obtain ⟨⟨rfl, hphysical⟩, rfl⟩ := (reading_eq_some_iff name v.2 seen).mp hreading
    rw [Option.bind_some, processRead, processLine_physical _ _ hphysical]
    unfold comparison baseline advance record
    cases v.1.lastSamples (parseLine v.2.line).1 with
    | none => rfl
    | some last => rfl

/-- The observations of a device compare its readings in a chain. -/
theorem observations_eq (name : String) (polls : List DiskPoll) :
    observations name polls = (chain none (readings name polls)).map (fun p =>
      comparison name (p.1.map DiskReading.record) p.2) := by
  rw [observations, observation_eq]
  exact filterMap_visits stepLine (baseline name) (reading name) DiskReading.record
    (baseline_stepLine name) (comparison name) none initial rfl (lineReads polls)

/-- The observations are exactly the records published under the name. -/
theorem published_observations (name : String) (polls : List DiskPoll) :
    (observations name polls).map Observation.published =
      (published polls).flatten.filter (fun disk => disk.name = name) := by
  have hline : ∀ v : State × LineRead,
      (processRead v.1 v.2).2.filter (fun disk => disk.name = name) =
        ((observation name v).map Observation.published).toList := by
    intro v
    rw [observation]
    cases hvirtual : isVirtual (parseLine v.2.line).1 with
    | true =>
      rw [processRead, processLine_virtual _ _ hvirtual, reading_virtual name hvirtual]
      rfl
    | false =>
      rw [processRead, processLine_physical _ _ hvirtual, reading]
      by_cases hname : (parseLine v.2.line).1 = name
      · subst hname
        simp [hvirtual, name_record]
      · simp [hname, name_record]
  rw [published, published_flatten, List.filter_flatMap, observations, List.map_filterMap,
    List.filterMap_eq_flatMap_toList]
  exact (List.flatMap_congr (fun v _ => hline v)).symm

/-! ### Activity -/

/-- What a device does, as far as rates are published for it. -/
inductive Activity
  | reads | writes | readBytes | writeBytes
  deriving DecidableEq

def counter (sample : DiskSample) : Activity → UInt64
  | .reads => sample.reads
  | .writes => sample.writes
  | .readBytes => sample.sectorsRead
  | .writeBytes => sample.sectorsWritten

/-- Bytes are counted in sectors of 512. -/
def unit : Activity → ℚ
  | .reads => 1
  | .writes => 1
  | .readBytes => 512
  | .writeBytes => 512

def amount (activity : Activity) (seen : DiskReading) : ℚ :=
  (counter seen.sample activity).toNat * unit activity

def rate (disk : DiskInfo) : Activity → ℚ
  | .reads => disk.readIops
  | .writes => disk.writeIops
  | .readBytes => disk.readBytesPerSec
  | .writeBytes => disk.writeBytesPerSec

/-- The activity a published rate stands for. -/
def gained (activity : Activity) (o : Observation) : ℚ :=
  match o.dt with
  | none => 0
  | some dt => rate o.published activity * max 0 dt

theorem rate_diskInfo (name : String) (curr last : DiskSample) {dt : ℚ} (hdt : 0 < dt)
    (activity : Activity) :
    rate (diskInfo name curr (some last) dt) activity =
      delta (counter curr activity) (counter last activity) * unit activity / dt := by
  cases activity <;> simp [diskInfo, hdt, rate, counter, unit]

theorem delta_of_le {curr last : UInt64} (h : last ≤ curr) :
    delta curr last = (curr.toNat : ℚ) - last.toNat := by
  rw [delta, UInt64.toNat_sub_of_le _ _ h, Nat.cast_sub (UInt64.le_iff_toNat_le.mp h)]

/-- The advance is accounted for when the clock has advanced. -/
theorem gained_of_lt (name : String) {p : DiskReading × DiskReading} (hclock : p.1.now < p.2.now)
    (activity : Activity)
    (hle : counter p.1.sample activity ≤ counter p.2.sample activity) :
    gained activity (comparison name (some p.1.record) p.2) =
      amount activity p.2 - amount activity p.1 := by
  have hdt : (0 : ℚ) < p.2.now - p.1.now := by
    rw [sub_pos]
    exact_mod_cast hclock
  simp only [gained, comparison, Option.map_some, Option.getD_some, DiskReading.record]
  rw [rate_diskInfo name _ _ hdt, delta_of_le hle, max_eq_right hdt.le, div_mul_cancel₀ _ hdt.ne',
    amount, amount, sub_mul]

/-- Nothing is accounted for without an advance of the clock. -/
theorem gained_of_le (name : String) {p : DiskReading × DiskReading} (hclock : p.2.now ≤ p.1.now)
    (activity : Activity) : gained activity (comparison name (some p.1.record) p.2) = 0 := by
  have hdt : (p.2.now : ℚ) - p.1.now ≤ 0 := by
    rw [sub_nonpos]
    exact_mod_cast hclock
  simp only [gained, comparison, Option.map_some, DiskReading.record]
  rw [max_eq_left hdt, mul_zero]

/-- The counter stood still if the clock did not advance. -/
def Kept (activity : Activity) (p : DiskReading × DiskReading) : Prop :=
  p.2.now ≤ p.1.now → counter p.2.sample activity = counter p.1.sample activity

theorem amount_eq_iff (activity : Activity) (p : DiskReading × DiskReading) :
    amount activity p.2 - amount activity p.1 = 0 ↔
      counter p.2.sample activity = counter p.1.sample activity := by
  have hunit : unit activity ≠ 0 := by
    cases activity <;> norm_num [unit]
  rw [amount, amount, sub_eq_zero, mul_left_inj' hunit, Nat.cast_inj, UInt64.toNat_inj]

theorem gained_eq_iff (name : String) (activity : Activity) (p : DiskReading × DiskReading)
    (hle : counter p.1.sample activity ≤ counter p.2.sample activity) :
    gained activity (comparison name (some p.1.record) p.2) =
      amount activity p.2 - amount activity p.1 ↔ Kept activity p := by
  unfold Kept
  rcases lt_or_ge p.1.now p.2.now with hclock | hclock
  · simp [gained_of_lt name hclock activity hle, not_le.mpr hclock]
  · rw [gained_of_le name hclock, eq_comm, amount_eq_iff]
    simp [hclock]

theorem gained_le (name : String) (activity : Activity) (p : DiskReading × DiskReading)
    (hle : counter p.1.sample activity ≤ counter p.2.sample activity) :
    gained activity (comparison name (some p.1.record) p.2) ≤
      amount activity p.2 - amount activity p.1 := by
  rcases lt_or_ge p.1.now p.2.now with hclock | hclock
  · exact (gained_of_lt name hclock activity hle).le
  · have hunit : 0 ≤ unit activity := by
      cases activity <;> norm_num [unit]
    have hcast : ((counter p.1.sample activity).toNat : ℚ) ≤
        (counter p.2.sample activity).toNat := by
      exact_mod_cast UInt64.le_iff_toNat_le.mp hle
    rw [gained_of_le name hclock, sub_nonneg]
    exact mul_le_mul_of_nonneg_right hcast hunit

theorem tail_observations {name : String} {polls : List DiskPoll} {first : DiskReading}
    {rest : List DiskReading} (hseen : readings name polls = first :: rest) :
    (observations name polls).tail =
      (steps (first :: rest)).map (fun p => comparison name (some p.1.record) p.2) := by
  rw [observations_eq, hseen, chain, List.map_cons, List.tail_cons, chain_some, List.map_map]
  rfl

theorem sum_gained_eq_iff {name : String} {polls : List DiskPoll} {first : DiskReading}
    {rest : List DiskReading} (hseen : readings name polls = first :: rest) (activity : Activity)
    (hmono : ∀ p ∈ steps (first :: rest),
      counter p.1.sample activity ≤ counter p.2.sample activity) :
    ((observations name polls).tail.map (gained activity)).sum =
        amount activity ((first :: rest).getLast (List.cons_ne_nil first rest)) -
          amount activity first ↔
      ∀ p ∈ steps (first :: rest), Kept activity p := by
  rw [tail_observations hseen, List.map_map]
  have hsum := sum_steps_eq_iff (amount activity)
    (fun p => gained activity (comparison name (some p.1.record) p.2)) first rest
    (fun p hp => gained_le name activity p (hmono p hp))
  refine hsum.trans (forall₂_congr ?_)
  intro p hp
  exact gained_eq_iff name activity p (hmono p hp)

/-- No counter of a device decreases from one of its lines to the next. -/
def NeverDecreases (seen : List DiskReading) : Prop :=
  ∀ p ∈ steps seen, ∀ activity, counter p.1.sample activity ≤ counter p.2.sample activity

/-- Over any run in which the counters of a device never decrease, what its published
rates stand for is the advance of the counter exactly when the counter stood still at
every poll that found the clock not advanced since the poll before. -/
theorem activity_accounted_iff (polls : List DiskPoll) (name : String)
    (hmono : NeverDecreases (readings name polls)) :
    (observations name polls).map Observation.published =
        (published polls).flatten.filter (fun disk => disk.name = name) ∧
      ∀ first rest, readings name polls = first :: rest → ∀ activity,
        ((observations name polls).tail.map (gained activity)).sum =
            amount activity ((first :: rest).getLast (List.cons_ne_nil first rest)) -
              amount activity first ↔
          ∀ p ∈ steps (first :: rest), Kept activity p := by
  refine ⟨published_observations name polls, ?_⟩
  intro first rest hseen activity
  rw [hseen] at hmono
  exact sum_gained_eq_iff hseen activity (fun p hp => hmono p hp activity)

/-! ### A device alone -/

/-- A poll that finds a single device. -/
def devicePoll (now : ℤ) (r : DeviceRecord) : DiskPoll where
  now := now
  content := unlines [r.print Spacing.single]

theorem readings_devicePoll (now : ℤ) (r : DeviceRecord) (rest : List DiskPoll) :
    readings r.name (devicePoll now r :: rest) =
      { now := now, sample := r.parsed } :: readings r.name rest := by
  have hline : ∀ line ∈ [r.print Spacing.single], '\n' ∉ line := by
    intro line hline
    rw [List.mem_singleton.mp hline]
    exact layout_no_newline Spacing.single 0 _ (columns_word r)
  have hread : reading r.name ⟨now, r.print Spacing.single⟩ =
      some { now := now, sample := r.parsed } := by
    simp [reading, parseLine_print, r.name_physical]
  rw [readings, lineReads, List.flatMap_cons, pollReads, devicePoll, splitLines_unlines _ hline,
    List.map_singleton, List.singleton_append, List.filterMap_cons_some hread]
  rfl

/-- The device `sda` after five more reads. -/
def sdaLater : DeviceRecord := { sda with readsCompleted := 105 }

theorem readings_sda (now : ℤ) (rest : List DiskPoll) :
    readings "sda" (devicePoll now sda :: rest) =
      { now := now, sample := sda.parsed } :: readings "sda" rest :=
  readings_devicePoll now sda rest

theorem readings_sdaLater (now : ℤ) (rest : List DiskPoll) :
    readings "sda" (devicePoll now sdaLater :: rest) =
      { now := now, sample := sdaLater.parsed } :: readings "sda" rest :=
  readings_devicePoll now sdaLater rest

/-- Five reads within a second. -/
theorem activity_accounted_iff_second :
    ((observations "sda" [devicePoll 100 sda, devicePoll 101 sdaLater]).tail.map
      (gained .reads)).sum = 5 := by
  have hseen : readings "sda" [devicePoll 100 sda, devicePoll 101 sdaLater] =
      [⟨100, sda.parsed⟩, ⟨101, sdaLater.parsed⟩] := by
    rw [readings_sda, readings_sdaLater]
    rfl
  have hmono : NeverDecreases (readings "sda" [devicePoll 100 sda, devicePoll 101 sdaLater]) := by
    rw [hseen]
    intro p hp activity
    rw [List.mem_singleton.mp hp]
    cases activity <;> decide
  have haccounts := (activity_accounted_iff _ "sda" hmono).2 _ _ hseen .reads
  rw [haccounts.mpr]
  · change ((105 : ℕ) : ℚ) * 1 - (100 : ℕ) * 1 = 5
    norm_num
  · intro p hp hclock
    rw [List.mem_singleton.mp hp] at hclock
    norm_num at hclock

/-- The last poll has the latest reading of the clock. -/
def EndsLatest (polls : List DiskPoll) : Prop :=
  ∃ before last, polls = before ++ [last] ∧ ∀ poll ∈ before, poll.now < last.now

/-- Five reads before a poll in the same second as the poll before it are never published,
though a later poll follows. -/
theorem same_second_activity_lost :
    ¬ ∀ (polls : List DiskPoll) (name : String), EndsLatest polls →
      NeverDecreases (readings name polls) →
        ∀ first rest, readings name polls = first :: rest → ∀ activity,
          ((observations name polls).tail.map (gained activity)).sum =
            amount activity ((first :: rest).getLast (List.cons_ne_nil first rest)) -
              amount activity first := by
  intro h
  let polls := [devicePoll 100 sda, devicePoll 100 sdaLater, devicePoll 101 sdaLater]
  have hseen : readings "sda" polls =
      [⟨100, sda.parsed⟩, ⟨100, sdaLater.parsed⟩, ⟨101, sdaLater.parsed⟩] := by
    rw [readings_sda, readings_sdaLater, readings_sdaLater]
    rfl
  have hmono : NeverDecreases (readings "sda" polls) := by
    rw [hseen]
    intro p hp activity
    rcases List.mem_pair.mp hp with rfl | rfl
    · cases activity <;> decide
    · exact UInt64.le_refl _
  have hlatest : EndsLatest polls := by
    refine ⟨[devicePoll 100 sda, devicePoll 100 sdaLater], devicePoll 101 sdaLater, rfl, ?_⟩
    intro poll hpoll
    rcases List.mem_pair.mp hpoll with rfl | rfl
    · norm_num [devicePoll]
    · norm_num [devicePoll]
  have hsum := h polls "sda" hlatest hmono _ _ hseen .reads
  rw [hseen] at hmono
  rw [sum_gained_eq_iff hseen .reads (fun p hp => hmono p hp .reads)] at hsum
  have hkept := hsum (⟨100, sda.parsed⟩, ⟨100, sdaLater.parsed⟩) (List.mem_cons_self ..) le_rfl
  exact absurd hkept (by decide)

end NodeMonitor.DiskAccounts
