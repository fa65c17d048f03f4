import NodeMonitor.NetMonitor
import NodeMonitor.Ranking

/-!
The order in which the interfaces are read. The agent enumerates a hash table, and
the score takes the first interface of a message for the main one. The cache does
not depend on the order; the score does, unless every interface leaves the same
shares of the bandwidth.
-/

namespace NodeMonitor.NetOrder

open KeyedMaps Messages NetCounters NetMonitor Ranking Readings Score

/-- A reading of the steady clock and the table as it is enumerated then. -/
structure Poll where
  now : ℤ
  table : StatsTable

def step (s : State) (poll : Poll) : State :=
  (updateOnce s poll.now poll.table MonitorInfo.default).1

/-- The cache after a run from the start of the agent. -/
def run (polls : List Poll) : State := polls.foldl step empty

/-- The message of a poll, with the other sections given. -/
def report (s : State) (poll : Poll) (others : MonitorInfo) : MonitorInfo :=
  (updateOnce s poll.now poll.table { others with netInfo := [] }).2

/-- The same rows at the same time, in any order. -/
def Reordered (poll other : Poll) : Prop :=
  other.now = poll.now ∧ other.table.rows.Perm poll.table.rows

/-- Bytes per second since the cached row; zero without one, and before the clock advances. -/
def byteRate (last : Option LastNetInfo) (stats : NetStats) (now : ℤ) (c : Counter) : ℚ :=
  match last with
  | none => 0
  | some last =>
    if last.timepoint < now then
      delta (stats.get c) (last.get c) / secondsSince now last.timepoint
    else 0

/-- The shares that an interface leaves of 1024 times the bandwidth, for both directions. -/
def freeShares (s : State) (now : ℤ) (row : String × NetStats) : ℚ :=
  unused (byteRate (s row.1) row.2 now .sndBytes) (1024 * maxBandwidth) +
    unused (byteRate (s row.1) row.2 now .rcvBytes) (1024 * maxBandwidth)

/-- The terms of the score that the other sections determine. -/
def otherTerms (others : MonitorInfo) : ℚ :=
  share (metrics others) .cpu * cpuWeight + share (metrics others) .load * loadWeight +
    share (metrics others) .mem * memWeight

/-- The interfaces leave the same shares, or with each of them in front the terms reach
the upper clamp. -/
def OrderFree (s : State) (poll : Poll) (others : MonitorInfo) : Prop :=
  (∀ row ∈ poll.table.rows, ∀ other ∈ poll.table.rows,
      freeShares s poll.now row = freeShares s poll.now other) ∨
    ∀ row ∈ poll.table.rows, 1 ≤ otherTerms others + freeShares s poll.now row / 20

/-! ### The cache -/

theorem Reordered.refl (poll : Poll) : Reordered poll poll := ⟨rfl, List.Perm.refl _⟩

theorem step_reordered (s : State) {poll other : Poll} (h : Reordered poll other) :
    step s other = step s poll := by
  obtain ⟨hnow, hperm⟩ := h
  funext name
  have hrows : (ebpfGetNetStats other.table).Perm (ebpfGetNetStats poll.table) := hperm.map _
  rw [step, step, updateOnce_apply, updateOnce_apply, hnow,
    latest_perm NetStat.name name (nodup_ebpfGetNetStats poll.table) hrows]

theorem run_reordered {polls others : List Poll} (h : List.Forall₂ Reordered polls others) :
    run others = run polls := by
  unfold run
  generalize (empty : State) = s
  induction h generalizing s with
  | nil => rfl
  | cons hpoll _ ih =>
    rw [List.foldl_cons, List.foldl_cons, step_reordered s hpoll]
    exact ih _

/-! ### The score -/

theorem rate_eq_byteRate (last : Option LastNetInfo) (stats : NetStats) (name : String)
    (now : ℤ) :
    let entry := netInfo last { toNetStats := stats, name := name } now
    entry.sendRate = byteRate last stats now .sndBytes / 1024 ∧
      entry.rcvRate = byteRate last stats now .rcvBytes / 1024 := by
  cases last with
  | none => norm_num [netInfo, byteRate]
  | some last =>
    by_cases hclock : last.timepoint < now
    · have hpos := secondsSince_pos hclock
      simp only [netInfo, byteRate, hpos, hclock, if_true, NetStats.get]
      exact ⟨div_right_comm _ _ _, div_right_comm _ _ _⟩
    · have hstill := mt secondsSince_pos_iff.mp hclock
      norm_num [netInfo, byteRate, hclock, hstill]

/-- The other sections of a message stay as they are. -/
theorem report_eq (s : State) (poll : Poll) (others : MonitorInfo) :
    report s poll others = { others with netInfo := (report s poll others).netInfo } :=
  foldl_updateStat_frame poll.now (s, { others with netInfo := [] }) (ebpfGetNetStats poll.table)
    (report s poll others).netInfo

/-- The weighted shares of a message, with its first interface. -/
theorem weightedScore_cons (others : MonitorInfo) (entry : NetInfo) (more : List NetInfo) :
    weightedScore (metrics { others with netInfo := entry :: more }) =
      otherTerms others +
        (unused entry.sendRate maxBandwidth + unused entry.rcvRate maxBandwidth) / 20 := by
  have hrecv : share (metrics { others with netInfo := entry :: more }) .netRecv =
      unused entry.sendRate maxBandwidth := rfl
  have hsend : share (metrics { others with netInfo := entry :: more }) .netSend =
      unused entry.rcvRate maxBandwidth := rfl
  have hothers : otherTerms { others with netInfo := entry :: more } = otherTerms others := rfl
  rw [← hothers, weightedScore_eq_mean, WeightedMeans.mean, sum_term, hrecv, hsend, otherTerms]
  simp only [weight, netRecvWeight, netSendWeight]
  ring

/-- The score with a row in front. -/
theorem calcScore_report (s : State) (poll : Poll) (others : MonitorInfo)
    {row : String × NetStats} {rest : List (String × NetStats)}
    (hrows : poll.table.rows = row :: rest) :
    calcScore (report s poll others) =
      min 100 ((otherTerms others + freeShares s poll.now row / 20) * 100) := by
  have hfirst : poll.table.rows.head? = some (row.1, row.2) := by rw [hrows, List.head?_cons]
  obtain ⟨more, hentries⟩ := netInfo_updateOnce s poll.now poll.table
    { others with netInfo := [] } rfl hfirst
  obtain ⟨hsend, hrcv⟩ := rate_eq_byteRate (s row.1) row.2 row.1 poll.now
  rw [calcScore_eq_min, report_eq, show (report s poll others).netInfo = _ from hentries,
    weightedScore_cons, hsend, hrcv, unused_div, unused_div, freeShares]

/-- Any row of a table can be enumerated first. -/
theorem exists_reordered {poll : Poll} {row : String × NetStats}
    (hrow : row ∈ poll.table.rows) :
    ∃ first rest, Reordered poll first ∧ first.table.rows = row :: rest := by
  obtain ⟨pre, post, hrows⟩ := List.append_of_mem hrow
  have hperm : (row :: (pre ++ post)).Perm poll.table.rows := by
    rw [hrows]
    exact List.perm_middle.symm
  have hnodup := (hperm.map Prod.fst).nodup_iff.mpr poll.table.nodup
  exact ⟨{ now := poll.now, table := ⟨row :: (pre ++ post), hnodup⟩ }, pre ++ post,
    ⟨rfl, hperm⟩, rfl⟩

/-- The reported scores of one row in front of the other agree for all rows of a table
exactly when the order does not matter. -/
theorem fronts_iff (s : State) (poll : Poll) (others : MonitorInfo) :
    (∀ row ∈ poll.table.rows, ∀ other ∈ poll.table.rows,
        min 100 ((otherTerms others + freeShares s poll.now row / 20) * 100) =
          min 100 ((otherTerms others + freeShares s poll.now other / 20) * 100)) ↔
      OrderFree s poll others := by
  rw [clamped_eq_iff poll.table.rows
    (fun row => otherTerms others + freeShares s poll.now row / 20)]
  simp only [add_right_inj, div_left_inj' (show (20 : ℚ) ≠ 0 by norm_num)]
  rfl

theorem eq_of_reordered_nil {poll first : Poll} (h : Reordered poll first)
    (hrows : first.table.rows = []) : first = poll := by
  obtain ⟨now, ⟨rows, hnodup⟩⟩ := poll
  obtain ⟨now', ⟨rows', hnodup'⟩⟩ := first
  obtain ⟨hnow, hperm⟩ := h
  obtain rfl : now' = now := hnow
  obtain rfl : rows' = [] := hrows
  obtain rfl : rows = [] := List.nil_perm.mp hperm
  rfl

/-- A reordered table with any rows has one of them in front. -/
theorem calcScore_reordered (s : State) (others : MonitorInfo) {poll first : Poll}
    (h : Reordered poll first) :
    first = poll ∨ ∃ row ∈ poll.table.rows, calcScore (report s first others) =
      min 100 ((otherTerms others + freeShares s poll.now row / 20) * 100) := by
  cases hrows : first.table.rows with
  | nil => exact Or.inl (eq_of_reordered_nil h hrows)
  | cons row rest =>
    right
    refine ⟨row, h.2.subset (hrows ▸ List.mem_cons_self ..), ?_⟩
    rw [calcScore_report s first others hrows, h.1]

theorem calcScore_eq_of_orderFree {s : State} {poll : Poll} {others : MonitorInfo}
    (hfree : OrderFree s poll others) {first : Poll} (h : Reordered poll first) :
    calcScore (report s first others) = calcScore (report s poll others) := by
  rcases calcScore_reordered s others h with rfl | ⟨row, hrow, hfirst⟩
  · rfl
  · cases hrows : poll.table.rows with
    | nil =>
      rw [hrows] at hrow
      exact absurd hrow List.not_mem_nil
    | cons other rest =>
      rw [hfirst, calcScore_report s poll others hrows]
      exact (fronts_iff s poll others).mpr hfree row hrow other (hrows ▸ List.mem_cons_self ..)

/-- After any run, and whatever order the earlier tables were read in, the score of the
next message is the same for all orders exactly when the interfaces leave the same
shares or the clamp hides them. -/
theorem score_order_iff (polls : List Poll) (poll : Poll) (others : MonitorInfo) :
    (∀ reordered, List.Forall₂ Reordered polls reordered → run reordered = run polls) ∧
      ((∀ first second, Reordered poll first → Reordered poll second →
          calcScore (report (run polls) first others) =
            calcScore (report (run polls) second others)) ↔
        OrderFree (run polls) poll others) := by
  refine ⟨fun _ h => run_reordered h, ?_⟩
  generalize run polls = s
  constructor
  · intro hsame
    apply (fronts_iff s poll others).mp
    intro row hrow other hother
    obtain ⟨first, rest, hfirst, hrows⟩ := exists_reordered hrow
    obtain ⟨second, more, hsecond, hmore⟩ := exists_reordered hother
    have hscores := hsame first second hfirst hsecond
    rwa [calcScore_report s first others hrows, calcScore_report s second others hmore,
      hfirst.1, hsecond.1] at hscores
  · intro hfree first second hfirst hsecond
    rw [calcScore_eq_of_orderFree hfree hfirst, calcScore_eq_of_orderFree hfree hsecond]

/-- An idle interface and one that is read second. -/
def twoInterfaces (now : ℤ) (stats : NetStats) : Poll where
  now := now
  table := { rows := [("eth0", {}), ("eth1", stats)], nodup := by simp }

/-- The same table with the second interface in front. -/
def twoReversed (now : ℤ) (stats : NetStats) : Poll where
  now := now
  table := { rows := [("eth1", stats), ("eth0", {})], nodup := by simp }

/-- The traffic of the second interface counts only when it is read first. -/
theorem twoInterfaces_order :
    ¬ ∀ (polls : List Poll) (poll : Poll) (others : MonitorInfo) (first second : Poll),
      Reordered poll first → Reordered poll second →
        calcScore (report (run polls) first others) =
          calcScore (report (run polls) second others) := by
  intro h
  let busy : NetStats := { rcvBytes := 128000000000 }
  let s := run [twoInterfaces 0 {}]
  have hscores := h [twoInterfaces 0 {}] (twoInterfaces 1000000000 busy) MonitorInfo.default
    (twoInterfaces 1000000000 busy) (twoReversed 1000000000 busy) (Reordered.refl _)
    ⟨rfl, List.Perm.swap _ _ _⟩
  have hidle : s "eth0" = some { toNetStats := {}, name := "eth0", timepoint := 0 } :=
    cached empty 0 (twoInterfaces 0 {}).table MonitorInfo.default (List.mem_cons_self ..)
  have hbusy : s "eth1" = some { toNetStats := {}, name := "eth1", timepoint := 0 } :=
    cached empty 0 (twoInterfaces 0 {}).table MonitorInfo.default (by simp [twoInterfaces])
  have hothers : otherTerms MonitorInfo.default = 9 / 10 := by
    norm_num [otherTerms, share, value, capacity, unused, metrics, MonitorInfo.default,
      cpuWeight, loadWeight, memWeight]
  have hfree : freeShares s 1000000000 ("eth0", {}) = 2 := by
    norm_num [freeShares, hidle, byteRate, delta, NetStats.get, unused]
  have hfull : freeShares s 1000000000 ("eth1", busy) = 1 := by
    have hreceived : delta 128000000000 0 = 128000000000 := by
      rw [delta, show (128000000000 - 0 : UInt64).toNat = 128000000000 from rfl]
      norm_num
    have hsent : delta 0 0 = 0 := by norm_num [delta]
    norm_num [freeShares, hbusy, byteRate, hreceived, hsent, NetStats.get, unused, busy,
      secondsSince, maxBandwidth]
  rw [calcScore_report s _ _ rfl, calcScore_report s _ _ rfl] at hscores
  change min 100 ((_ + freeShares s 1000000000 ("eth0", {}) / 20) * 100) =
    min 100 ((_ + freeShares s 1000000000 ("eth1", busy) / 20) * 100) at hscores
  norm_num [hothers, hfree, hfull] at hscores

end NodeMonitor.NetOrder
