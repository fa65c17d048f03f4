import NodeMonitor.Baselines
import NodeMonitor.NetCounters
import NodeMonitor.Readings
import NodeMonitor.Score

/-!
The network monitor and the network terms of the score. The agent reports the
advance of each byte counter in units of 1024 bytes per second; the score divides
the reported number by a bandwidth in bytes per second.
-/

namespace NodeMonitor.NetMonitor

open Baselines KeyedMaps Messages NetCounters Readings Runs Score

/-- A row of the eBPF map as the agent copies it. -/
structure NetStat extends NetStats where
  name : String

/-- The cached row of an interface with the time of its poll. -/
structure LastNetInfo extends NetStat where
  timepoint : ℤ

/-- The contents of `net_stats_map`, in the order in which they are read. -/
structure StatsTable where
  rows : List (String × NetStats)
  nodup : (rows.map Prod.fst).Nodup

def ebpfGetNetStats (table : StatsTable) : List NetStat :=
  table.rows.map (fun row => { toNetStats := row.2, name := row.1 })

/-- `last_net_info_`. -/
abbrev State := KeyedMap String LastNetInfo

/-- The message for one interface; its rates are zero without an earlier poll. -/
def netInfo (last : Option LastNetInfo) (stat : NetStat) (now : ℤ) : NetInfo :=
  match last with
  | none => { name := stat.name }
  | some last =>
    let dt := secondsSince now last.timepoint
    if 0 < dt then
      { name := stat.name
        rcvRate := delta stat.rcvBytes last.rcvBytes / 1024 / dt
        rcvPacketsRate := delta stat.rcvPackets last.rcvPackets / dt
        sendRate := delta stat.sndBytes last.sndBytes / 1024 / dt
        sendPacketsRate := delta stat.sndPackets last.sndPackets / dt
        errInRate := delta stat.errIn last.errIn / dt
        errOutRate := delta stat.errOut last.errOut / dt
        dropInRate := delta stat.dropIn last.dropIn / dt
        dropOutRate := delta stat.dropOut last.dropOut / dt }
    else { name := stat.name }

/-- The body of the loop over the interfaces. -/
def updateStat (now : ℤ) (acc : State × MonitorInfo) (stat : NetStat) : State × MonitorInfo :=
  let added := netInfo (acc.1 stat.name) stat now
  (assign acc.1 stat.name { toNetStat := stat, timepoint := now },
    { acc.2 with netInfo := acc.2.netInfo ++ [added] })

def updateOnce (s : State) (now : ℤ) (table : StatsTable) (info : MonitorInfo) :
    State × MonitorInfo :=
  (ebpfGetNetStats table).foldl (updateStat now) (s, info)

/-! ### What a poll leaves behind -/

/-- The cache after one more row. -/
def storeStat (now : ℤ) (s : State) (stat : NetStat) : State :=
  assign s stat.name { toNetStat := stat, timepoint := now }

/-- A pass caches its rows and compares each with the record it replaces. -/
theorem foldl_updateStat (now : ℤ) (acc : State × MonitorInfo) (stats : List NetStat) :
    (stats.foldl (updateStat now) acc).1 = stats.foldl (storeStat now) acc.1 ∧
      (stats.foldl (updateStat now) acc).2.netInfo = acc.2.netInfo ++
        (visits (storeStat now) acc.1 stats).map (fun v => netInfo (v.1 v.2.name) v.2 now) := by
  rw [List.map_eq_flatMap]
  exact foldl_collect (updateStat now) (storeStat now) MonitorInfo.netInfo
    (fun s stat => [netInfo (s stat.name) stat now]) (fun _ _ => rfl) (fun _ _ => rfl) acc stats

theorem updateOnce_apply (s : State) (now : ℤ) (table : StatsTable) (info : MonitorInfo)
    (name : String) :
    (updateOnce s now table info).1 name =
      ((latest NetStat.name name (ebpfGetNetStats table)).map
        (fun stat => { toNetStat := stat, timepoint := now })).or (s name) := by
  rw [updateOnce, (foldl_updateStat now (s, info) _).1]
  exact assignAll_apply NetStat.name _ s _ name

theorem nodup_ebpfGetNetStats (table : StatsTable) :
    ((ebpfGetNetStats table).map NetStat.name).Nodup := by
  rw [ebpfGetNetStats, List.map_map]
  exact table.nodup

/-- A poll caches every row it reads. -/
theorem cached (s : State) (now : ℤ) (table : StatsTable) (info : MonitorInfo) {name : String}
    {stats : NetStats} (hrow : (name, stats) ∈ table.rows) :
    (updateOnce s now table info).1 name =
      some { toNetStats := stats, name := name, timepoint := now } := by
  have hmem : (⟨stats, name⟩ : NetStat) ∈ ebpfGetNetStats table :=
    List.mem_map.mpr ⟨(name, stats), hrow, rfl⟩
  have hlatest := latest_of_nodup NetStat.name (nodup_ebpfGetNetStats table) hmem
  rw [updateOnce_apply, hlatest]
  rfl

/-- Every row of a table is compared with the record cached before the poll. -/
theorem netInfo_updateOnce_eq (s : State) (now : ℤ) (table : StatsTable) (info : MonitorInfo) :
    (updateOnce s now table info).2.netInfo = info.netInfo ++
      (ebpfGetNetStats table).map (fun stat => netInfo (s stat.name) stat now) := by
  have hvisits := visits_assign_of_nodup NetStat.name (fun stat => LastNetInfo.mk stat now) s
    (ebpfGetNetStats table) (nodup_ebpfGetNetStats table)
  have hentries := congrArg (List.map (fun p : Option LastNetInfo × NetStat =>
    netInfo p.1 p.2 now)) hvisits
  rw [List.map_map, List.map_map] at hentries
  rw [updateOnce, (foldl_updateStat now (s, info) _).2]
  exact congrArg (info.netInfo ++ ·) hentries

/-- The first row of the table becomes the first interface of a message without any. -/
theorem netInfo_updateOnce (s : State) (now : ℤ) (table : StatsTable) (info : MonitorInfo)
    (hinfo : info.netInfo = []) {name : String} {stats : NetStats}
    (hfirst : table.rows.head? = some (name, stats)) :
    ∃ more, (updateOnce s now table info).2.netInfo =
      netInfo (s name) { toNetStats := stats, name := name } now :: more := by
  obtain ⟨rest, hrows⟩ := List.head?_eq_some_iff.mp hfirst
  rw [netInfo_updateOnce_eq, hinfo, ebpfGetNetStats, hrows]
  exact ⟨_, rfl⟩

/-- A pass adds to no other section of the message. -/
theorem foldl_updateStat_frame (now : ℤ) (acc : State × MonitorInfo) (stats : List NetStat)
    (entries : List NetInfo) :
    { (stats.foldl (updateStat now) acc).2 with netInfo := entries } =
      { acc.2 with netInfo := entries } := by
  induction stats generalizing acc with
  | nil => rfl
  | cons stat rest ih => rw [List.foldl_cons, ih, updateStat]

/-! ### The network terms -/

/-- The rate reported for an advance of a byte counter. -/
def reportedRate (r : ℕ) (dt : ℚ) : ℚ := (r % 2 ^ 64 : ℕ) / 1024 / dt

/-- The counters of an interface, its bytes advanced by `r` and `q`. -/
def Advanced (before after : NetStats) (r q : ℕ) : Prop :=
  after.rcvBytes = before.rcvBytes + UInt64.ofNat r ∧
    after.sndBytes = before.sndBytes + UInt64.ofNat q

theorem rates_of_advanced {before after : NetStats} {r q : ℕ} (h : Advanced before after r q)
    (name : String) {now last : ℤ} (hclock : last < now) :
    let entry := netInfo (some { toNetStats := before, name := name, timepoint := last })
      { toNetStats := after, name := name } now
    entry.rcvRate = reportedRate r (secondsSince now last) ∧
      entry.sendRate = reportedRate q (secondsSince now last) := by
  have hpos := secondsSince_pos hclock
  simp only [netInfo, hpos, if_true, h.1, h.2, delta_add_ofNat, reportedRate, and_self]

theorem netRecvScore_eq_unused (m : Metrics) :
    netRecvScore m = unused m.netRecvRate maxBandwidth :=
  clampBelow_eq_max _

theorem netSendScore_eq_unused (m : Metrics) :
    netSendScore m = unused m.netSendRate maxBandwidth :=
  clampBelow_eq_max _

/-- The terms of two successive polls: the one called receive is the sent bytes'. -/
theorem terms_updateOnce (s : State) {last now : ℤ} (hclock : last < now)
    (first second : StatsTable) (earlier info : MonitorInfo) (hinfo : info.netInfo = [])
    {name : String} {before after : NetStats} (hseen : (name, before) ∈ first.rows)
    (hfirst : second.rows.head? = some (name, after)) {r q : ℕ}
    (hadvanced : Advanced before after r q) :
    let report := (updateOnce (updateOnce s last first earlier).1 now second info).2
    netRecvScore (metrics report) =
        unused (reportedRate q (secondsSince now last)) maxBandwidth ∧
      netSendScore (metrics report) =
        unused (reportedRate r (secondsSince now last)) maxBandwidth := by
  intro report
  obtain ⟨more, hreport⟩ := netInfo_updateOnce (updateOnce s last first earlier).1 now second
    info hinfo hfirst
  rw [cached s last first earlier hseen] at hreport
  obtain ⟨hrcv, hsend⟩ := rates_of_advanced hadvanced name hclock
  have hrecvRate : (metrics report).netRecvRate = reportedRate q (secondsSince now last) := by
    rw [← hsend, metrics, show report.netInfo = _ from hreport]
  have hsendRate : (metrics report).netSendRate = reportedRate r (secondsSince now last) := by
    rw [← hrcv, metrics, show report.netInfo = _ from hreport]
  rw [netRecvScore_eq_unused, netSendScore_eq_unused, hrecvRate, hsendRate]
  exact ⟨rfl, rfl⟩

/-- The two network terms, in either order, are the unused shares of the bandwidth at
`r` and `q` bytes in `dt` seconds. -/
def TermsAgree (report : MonitorInfo) (r q : ℕ) (dt : ℚ) : Prop :=
  let recv := netRecvScore (metrics report)
  let send := netSendScore (metrics report)
  (recv = unused (r / dt) maxBandwidth ∧ send = unused (q / dt) maxBandwidth) ∨
    (recv = unused (q / dt) maxBandwidth ∧ send = unused (r / dt) maxBandwidth)

/-- No byte at all, or at least 1024 times the bandwidth. -/
def IdleOrFlooded (r : ℕ) (dt : ℚ) : Prop :=
  r = 0 ∨ 1024 * maxBandwidth ≤ (r % 2 ^ 64 : ℕ) / dt

theorem reportedRate_eq (r : ℕ) (dt : ℚ) :
    reportedRate r dt = ((r % 2 ^ 64 : ℕ) / dt) / 1024 := by
  rw [reportedRate, div_right_comm]

theorem reportedRate_le (r : ℕ) {dt : ℚ} (hdt : 0 < dt) : reportedRate r dt ≤ r / dt := by
  have hmod : ((r % 2 ^ 64 : ℕ) : ℚ) ≤ r := by
    exact_mod_cast Nat.mod_le r (2 ^ 64)
  have hrate : ((r % 2 ^ 64 : ℕ) : ℚ) / dt ≤ r / dt := by gcongr
  have hnonneg : 0 ≤ ((r % 2 ^ 64 : ℕ) : ℚ) / dt := by positivity
  rw [reportedRate_eq]
  linarith

theorem reportedRate_eq_iff (r : ℕ) {dt : ℚ} (hdt : 0 < dt) :
    reportedRate r dt = r / dt ↔ r = 0 := by
  constructor
  · intro heq
    have hmod : ((r % 2 ^ 64 : ℕ) : ℚ) ≤ r := by
      exact_mod_cast Nat.mod_le r (2 ^ 64)
    rw [reportedRate, div_left_inj' hdt.ne'] at heq
    generalize r % 2 ^ 64 = wrapped at heq hmod
    have hnonneg : (0 : ℚ) ≤ wrapped := Nat.cast_nonneg wrapped
    have hzero : (r : ℚ) = 0 := by linarith
    exact_mod_cast hzero
  · rintro rfl
    simp [reportedRate]

theorem unused_reportedRate_eq_iff (r : ℕ) {dt : ℚ} (hdt : 0 < dt) :
    unused (reportedRate r dt) maxBandwidth = unused (r / dt) maxBandwidth ↔
      IdleOrFlooded r dt := by
  have hcapacity : 0 < maxBandwidth := by norm_num [maxBandwidth]
  rw [unused_eq_iff hcapacity (reportedRate_le r hdt), reportedRate_eq_iff r hdt,
    reportedRate_eq, IdleOrFlooded]
  apply or_congr_right
  constructor
  · intro h
    linarith
  · intro h
    linarith

/-- For an interface seen by two successive polls, the network terms are the unused
shares exactly when each direction was idle or ran at 1024 times the bandwidth. -/
theorem network_terms_iff (s : State) {last now : ℤ} (hclock : last < now)
    (first second : StatsTable) (earlier info : MonitorInfo) (hinfo : info.netInfo = [])
    {name : String} {before after : NetStats} (hseen : (name, before) ∈ first.rows)
    (hfirst : second.rows.head? = some (name, after)) {r q : ℕ}
    (hadvanced : Advanced before after r q) :
    TermsAgree (updateOnce (updateOnce s last first earlier).1 now second info).2 r q
        (secondsSince now last) ↔
      IdleOrFlooded r (secondsSince now last) ∧ IdleOrFlooded q (secondsSince now last) := by
  have hdt := secondsSince_pos hclock
  have hcapacity : 0 < maxBandwidth := by norm_num [maxBandwidth]
  obtain ⟨hrecv, hsend⟩ := terms_updateOnce s hclock first second earlier info hinfo hseen
    hfirst hadvanced
  have hr := unused_antitone hcapacity (reportedRate_le r hdt)
  have hq := unused_antitone hcapacity (reportedRate_le q hdt)
  rw [← unused_reportedRate_eq_iff r hdt, ← unused_reportedRate_eq_iff q hdt]
  simp only [TermsAgree, hrecv, hsend]
  constructor
  · rintro (⟨hrq, hqr⟩ | ⟨hqq, hrr⟩)
    · constructor
      · linarith
      · linarith
    · exact ⟨hrr, hqq⟩
  · rintro ⟨hrr, hqq⟩
    exact Or.inr ⟨hqq, hrr⟩

/-- A table with a single interface. -/
def StatsTable.single (name : String) (stats : NetStats) : StatsTable where
  rows := [(name, stats)]
  nodup := List.nodup_singleton name

/-- One second with nothing sent and 1024 times the bandwidth received. -/
theorem network_terms_iff_flooded :
    let after : NetStats := { rcvBytes := 128000000000 }
    let polled := updateOnce empty 0 (.single "eth0" {}) MonitorInfo.default
    TermsAgree (updateOnce polled.1 1000000000 (.single "eth0" after) MonitorInfo.default).2
      128000000000 0 (secondsSince 1000000000 0) := by
  intro after polled
  have hadvanced : Advanced {} after 128000000000 0 := ⟨rfl, rfl⟩
  refine (network_terms_iff empty (by norm_num) (.single "eth0" {}) (.single "eth0" after)
    MonitorInfo.default MonitorInfo.default rfl (List.mem_singleton.mpr rfl) rfl
    hadvanced).mpr ⟨Or.inr ?_, Or.inl rfl⟩
  norm_num [maxBandwidth, secondsSince]

/-- A link that runs at the bandwidth in both directions for a second keeps nearly all
of its network points. -/
theorem saturated_link_scored :
    ¬ ∀ (s : State) (last now : ℤ) (_ : last < now) (first second : StatsTable)
      (earlier info : MonitorInfo) (_ : info.netInfo = []) (name : String)
      (before after : NetStats) (_ : (name, before) ∈ first.rows)
      (_ : second.rows.head? = some (name, after)) (r q : ℕ) (_ : Advanced before after r q),
      TermsAgree (updateOnce (updateOnce s last first earlier).1 now second info).2 r q
        (secondsSince now last) := by
  intro h
  let after : NetStats := { rcvBytes := 125000000, sndBytes := 125000000 }
  have hadvanced : Advanced {} after 125000000 125000000 := ⟨rfl, rfl⟩
  have hclock : (0 : ℤ) < 1000000000 := by norm_num
  have hseen : ("eth0", {}) ∈ (StatsTable.single "eth0" {}).rows := List.mem_singleton.mpr rfl
  have hfirst : (StatsTable.single "eth0" after).rows.head? = some ("eth0", after) := rfl
  have hagree := h empty 0 1000000000 hclock _ _ MonitorInfo.default MonitorInfo.default rfl
    "eth0" {} after hseen hfirst 125000000 125000000 hadvanced
  obtain ⟨hrecv, hsend⟩ := terms_updateOnce empty hclock _ _ MonitorInfo.default
    MonitorInfo.default rfl hseen hfirst hadvanced
  simp only [TermsAgree, hrecv, hsend, or_self] at hagree
  norm_num [unused, reportedRate, maxBandwidth, secondsSince] at hagree

end NodeMonitor.NetMonitor
