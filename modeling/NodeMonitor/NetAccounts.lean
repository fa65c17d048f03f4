import NodeMonitor.Baselines
import NodeMonitor.NetMonitor

/-!
The traffic the published network rates account for. The map holds unbounded counters
modulo the size of a word; an interface may vanish and return. A rate multiplied by
the time since the interface was last seen is the advance of its counter since then.
-/

namespace NodeMonitor.NetAccounts

open Baselines KeyedMaps Messages NetCounters NetMonitor Readings Runs

/-- The unbounded counters of an interface. -/
abbrev TrueStats := Counter → ℕ

/-- The map values of the counters. -/
def residue (stats : TrueStats) : NetStats where
  rcvBytes := UInt64.ofNat (stats .rcvBytes)
  rcvPackets := UInt64.ofNat (stats .rcvPackets)
  sndBytes := UInt64.ofNat (stats .sndBytes)
  sndPackets := UInt64.ofNat (stats .sndPackets)
  errIn := UInt64.ofNat (stats .errIn)
  errOut := UInt64.ofNat (stats .errOut)
  dropIn := UInt64.ofNat (stats .dropIn)
  dropOut := UInt64.ofNat (stats .dropOut)

/-- The interfaces present at a poll, and the reading of the steady clock. -/
structure TruePoll where
  now : ℤ
  rows : List (String × TrueStats)
  nodup : (rows.map Prod.fst).Nodup

def TruePoll.table (poll : TruePoll) : StatsTable where
  rows := poll.rows.map (fun row => (row.1, residue row.2))
  nodup := by
    rw [List.map_map]
    exact poll.nodup

def TruePoll.stats (poll : TruePoll) (name : String) : Option TrueStats :=
  (poll.rows.find? (fun row => row.1 = name)).map Prod.snd

/-- A poll publishes into a fresh message. -/
def publish (s : State) (poll : TruePoll) : State × MonitorInfo :=
  updateOnce s poll.now poll.table MonitorInfo.default

def step (s : State) (poll : TruePoll) : State := (publish s poll).1

def rate (entry : NetInfo) : Counter → ℚ
  | .rcvBytes => entry.rcvRate
  | .rcvPackets => entry.rcvPacketsRate
  | .sndBytes => entry.sendRate
  | .sndPackets => entry.sendPacketsRate
  | .errIn => entry.errInRate
  | .errOut => entry.errOutRate
  | .dropIn => entry.dropInRate
  | .dropOut => entry.dropOutRate

/-- Bytes are reported in units of 1024. -/
def unit : Counter → ℚ
  | .rcvBytes => 1024
  | .sndBytes => 1024
  | _ => 1

/-- What a poll sees of an interface. -/
structure Sighting where
  now : ℤ
  stats : TrueStats

/-- A sighting with the entry published for it. -/
structure Appearance extends Sighting where
  published : NetInfo

def sighting (name : String) (poll : TruePoll) : Option Sighting :=
  (poll.stats name).map (fun stats => { now := poll.now, stats := stats })

def sightings (name : String) (polls : List TruePoll) : List Sighting :=
  polls.filterMap (sighting name)

def appearance (name : String) (v : State × TruePoll) : Option Appearance :=
  (sighting name v.2).bind (fun seen =>
    ((publish v.1 v.2).2.netInfo.find? (fun entry => entry.name = name)).map (fun entry =>
      { toSighting := seen, published := entry }))

/-- The appearances of an interface over a run from the first poll on. -/
def appearances (name : String) (polls : List TruePoll) : List Appearance :=
  (visits step empty polls).filterMap (appearance name)

/-- The traffic a published rate stands for, over the time since the last appearance. -/
def accounted (c : Counter) (p : Appearance × Appearance) : ℚ :=
  rate p.2.published c * secondsSince p.2.now p.1.now * unit c

/-! ### One poll -/

/-- The cached record of a sighting. -/
def Sighting.record (name : String) (seen : Sighting) : LastNetInfo :=
  { toNetStats := residue seen.stats, name := name, timepoint := seen.now }

theorem name_netInfo (last : Option LastNetInfo) (stat : NetStat) (now : ℤ) :
    (netInfo last stat now).name = stat.name := by
  cases last with
  | none => rfl
  | some last =>
    simp only [netInfo]
    split
    · rfl
    · rfl

theorem find_rows (poll : TruePoll) (name : String) :
    poll.rows.find? (fun row => row.1 = name) =
      (poll.stats name).map (fun stats => (name, stats)) := by
  unfold TruePoll.stats
  cases hfind : poll.rows.find? (fun row => row.1 = name) with
  | none => rfl
  | some row =>
    have hname : row.1 = name := by simpa using List.find?_some hfind
    subst hname
    rfl

/-- The entry published under a name compares its row with the cached record. -/
theorem find_publish (s : State) (poll : TruePoll) (name : String) :
    (publish s poll).2.netInfo.find? (fun entry => entry.name = name) =
      (sighting name poll).map (fun seen =>
        netInfo (s name) (seen.record name).toNetStat seen.now) := by
  rw [publish, netInfo_updateOnce_eq, MonitorInfo.default, List.nil_append, ebpfGetNetStats,
    TruePoll.table, List.map_map, List.map_map, List.find?_map]
  simp only [Function.comp_def, name_netInfo]
  rw [find_rows, sighting, Option.map_map, Option.map_map]
  rfl

/-- A poll caches what it sees of an interface and keeps the record of an absent one. -/
theorem step_apply (s : State) (poll : TruePoll) (name : String) :
    step s poll name = ((sighting name poll).map (Sighting.record name)).or (s name) := by
  unfold sighting
  have hfind := find_rows poll name
  cases hstats : poll.stats name with
  | none =>
    rw [hstats, Option.map_none, List.find?_eq_none] at hfind
    have habsent : latest NetStat.name name (ebpfGetNetStats poll.table) = none := by
      rw [latest_eq_none_iff]
      intro stat hstat
      simp only [ebpfGetNetStats, TruePoll.table, List.map_map, List.mem_map] at hstat
      obtain ⟨row, hrow, rfl⟩ := hstat
      simpa using hfind row hrow
    rw [step, publish, updateOnce_apply, habsent]
    rfl
  | some stats =>
    rw [hstats, Option.map_some] at hfind
    have hrow : (name, residue stats) ∈ poll.table.rows :=
      List.mem_map.mpr ⟨(name, stats), List.mem_of_find?_eq_some hfind, rfl⟩
    rw [step, publish, cached s poll.now poll.table MonitorInfo.default hrow]
    rfl

/-! ### Runs -/

/-- The appearance of a sighting that is compared with a cached record. -/
def comparison (name : String) (last : Option LastNetInfo) (seen : Sighting) : Appearance where
  toSighting := seen
  published := netInfo last (seen.record name).toNetStat seen.now

/-- The appearances of an interface compare its sightings in a chain. -/
theorem appearances_eq (name : String) (polls : List TruePoll) :
    appearances name polls = (chain none (sightings name polls)).map (fun p =>
      comparison name (p.1.map (Sighting.record name)) p.2) := by
  have happearance : appearance name = fun v =>
      (sighting name v.2).map (comparison name (v.1 name)) := by
    funext v
    rw [appearance, find_publish]
    cases sighting name v.2 with
    | none => rfl
    | some seen => rfl
  rw [appearances, happearance]
  exact filterMap_visits step (fun s => s name) (sighting name) (Sighting.record name)
    (fun s poll => step_apply s poll name) (comparison name) none empty rfl polls

theorem toSighting_appearances (name : String) (polls : List TruePoll) :
    (appearances name polls).map Appearance.toSighting = sightings name polls := by
  rw [appearances_eq, List.map_map]
  exact map_snd_chain none (sightings name polls)

/-- An appearance after the first is compared with the one before it. -/
theorem published_of_mem_steps {name : String} {polls : List TruePoll}
    {p : Appearance × Appearance} (hp : p ∈ steps (appearances name polls)) :
    p.2.published = netInfo (some (p.1.record name)) (p.2.record name).toNetStat p.2.now := by
  rw [appearances_eq] at hp
  obtain ⟨before, seen, later, rfl⟩ := of_mem_steps_map_chain hp
  rfl

/-- The first appearance is compared with nothing. -/
theorem published_first {name : String} {polls : List TruePoll} {first : Appearance}
    {rest : List Appearance} (hseen : appearances name polls = first :: rest) :
    first.published = { name := name } := by
  rw [appearances_eq] at hseen
  cases hsightings : sightings name polls with
  | nil => simp [hsightings, chain] at hseen
  | cons seen later =>
    rw [hsightings, chain, List.map_cons] at hseen
    rw [← (List.cons.inj hseen).1]
    rfl

/-- The counters of an interface advance by less than the size of a word. -/
def Advances (p : Sighting × Sighting) : Prop :=
  ∀ c, p.1.stats c ≤ p.2.stats c ∧ p.2.stats c < p.1.stats c + 2 ^ 64

theorem delta_residue {before after : ℕ} (hle : before ≤ after)
    (hlt : after < before + 2 ^ 64) :
    delta (UInt64.ofNat after) (UInt64.ofNat before) = after - before := by
  have hsum : UInt64.ofNat after = UInt64.ofNat before + UInt64.ofNat (after - before) := by
    rw [← UInt64.ofNat_add, Nat.add_sub_cancel' hle]
  have hmod : (after - before) % 2 ^ 64 = after - before := Nat.mod_eq_of_lt (by omega)
  rw [hsum, delta_add_ofNat, hmod, Nat.cast_sub hle]

@[simp]
theorem get_residue (stats : TrueStats) (c : Counter) :
    (residue stats).get c = UInt64.ofNat (stats c) := by
  cases c <;> rfl

theorem unit_ne_zero (c : Counter) : unit c ≠ 0 := by
  cases c <;> norm_num [unit]

theorem rate_netInfo {last : LastNetInfo} {stat : NetStat} {now : ℤ}
    (hclock : last.timepoint < now) (c : Counter) :
    rate (netInfo (some last) stat now) c =
      delta (stat.get c) (last.get c) / unit c / secondsSince now last.timepoint := by
  have hpos := secondsSince_pos hclock
  cases c <;> simp [netInfo, hpos, rate, unit, NetStats.get]

/-- A rate times the distance of the two sightings is the advance of the counter. -/
theorem rate_mul_secondsSince (name : String) {p : Sighting × Sighting}
    (hclock : p.1.now < p.2.now) (hadvances : Advances p) (c : Counter) :
    rate (netInfo (some (p.1.record name)) (p.2.record name).toNetStat p.2.now) c *
        secondsSince p.2.now p.1.now * unit c = (p.2.stats c : ℚ) - p.1.stats c := by
  have hdt := (secondsSince_pos hclock).ne'
  have hunit := unit_ne_zero c
  have hdelta : delta ((p.2.record name).get c) ((p.1.record name).get c) =
      (p.2.stats c : ℚ) - p.1.stats c := by
    rw [Sighting.record, Sighting.record, get_residue, get_residue]
    exact delta_residue (hadvances c).1 (hadvances c).2
  rw [rate_netInfo hclock, hdelta]
  change _ / unit c / secondsSince p.2.now p.1.now * _ * _ = _
  rw [div_mul_cancel₀ _ hdt, div_mul_cancel₀ _ hunit]

theorem sightings_increasing (name : String) {polls : List TruePoll}
    (hclock : (polls.map TruePoll.now).Pairwise (· < ·)) :
    (sightings name polls).Pairwise (fun seen later => seen.now < later.now) := by
  have hnow : ∀ poll seen, sighting name poll = some seen → seen.now = poll.now := by
    intro poll seen h
    obtain ⟨stats, _, rfl⟩ := Option.map_eq_some_iff.mp h
    rfl
  refine (List.pairwise_map.mp hclock).filterMap (sighting name) ?_
  intro poll next hlt seen hseen later hlater
  rw [hnow poll seen hseen, hnow next later hlater]
  exact hlt

/-- Over any run of polls with increasing clock readings, an interface that appears at
all is first published without rates, and from then on each of its eight rates accounts
for the whole advance of its counter. -/
theorem traffic_accounted (polls : List TruePoll)
    (hclock : (polls.map TruePoll.now).Pairwise (· < ·)) (name : String)
    (hadvances : ∀ p ∈ steps (sightings name polls), Advances p) :
    (appearances name polls).map Appearance.toSighting = sightings name polls ∧
      ∀ first rest, appearances name polls = first :: rest → ∀ c,
        rate first.published c = 0 ∧
          ((steps (first :: rest)).map (accounted c)).sum =
            (((first :: rest).getLast (List.cons_ne_nil first rest)).stats c : ℚ) -
              first.stats c := by
  have hsightings := toSighting_appearances name polls
  refine ⟨hsightings, ?_⟩
  intro first rest hseen c
  have hlater := sightings_increasing name hclock
  constructor
  · rw [published_first hseen]
    cases c <;> rfl
  · rw [← sum_steps_sub (fun a : Appearance => (a.stats c : ℚ)) first rest]
    apply congrArg List.sum
    apply List.map_congr_left
    intro p hp
    rw [← hseen] at hp
    have hpair : (p.1.toSighting, p.2.toSighting) ∈ steps (sightings name polls) := by
      rw [← hsightings, steps_map]
      exact List.mem_map_of_mem hp
    rw [accounted, published_of_mem_steps hp]
    exact rate_mul_secondsSince name (rel_of_mem_steps hlater hpair) (hadvances _ hpair) c

/-- An interface that vanishes for a poll while its counters wrap. -/
def vanishing : List TruePoll :=
  [{ now := 0, rows := [("eth0", fun _ => 2 ^ 64 - 1)], nodup := List.nodup_singleton _ },
    { now := 1000000000, rows := [], nodup := List.nodup_nil },
    { now := 2000000000, rows := [("eth0", fun _ => 2 ^ 64 + 1023)],
      nodup := List.nodup_singleton _ }]

theorem traffic_accounted_vanishing :
    ∃ first last, appearances "eth0" vanishing = [first, last] ∧
      rate first.published .rcvBytes = 0 ∧
      rate last.published .rcvBytes * secondsSince last.now first.now * 1024 = 1024 := by
  have hsightings : sightings "eth0" vanishing =
      [⟨0, fun _ => 2 ^ 64 - 1⟩, ⟨2000000000, fun _ => 2 ^ 64 + 1023⟩] := rfl
  have hadvances : ∀ p ∈ steps (sightings "eth0" vanishing), Advances p := by
    intro p hp
    rw [hsightings] at hp
    rw [List.mem_singleton.mp hp]
    intro c
    constructor
    · norm_num
    · norm_num
  obtain ⟨hmap, haccounts⟩ :=
    traffic_accounted vanishing (by simp [vanishing]) "eth0" hadvances
  rw [hsightings] at hmap
  obtain ⟨first, rest, hseen, hfirst, hrest⟩ := List.map_eq_cons_iff.mp hmap
  obtain ⟨last, rfl, hlast⟩ := List.map_eq_singleton_iff.mp hrest
  obtain ⟨hzero, hsum⟩ := haccounts first [last] hseen .rcvBytes
  refine ⟨first, last, hseen, hzero, ?_⟩
  rw [hfirst, hlast]
  norm_num [steps, accounted, unit, hfirst, hlast] at hsum ⊢
  exact hsum

end NodeMonitor.NetAccounts
