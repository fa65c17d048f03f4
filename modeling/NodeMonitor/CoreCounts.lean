import NodeMonitor.CpuShares
import NodeMonitor.Hotplug
import NodeMonitor.Ranking

/-!
The number of cores the score divides the load by. The manager takes the number of
CPU entries for it. The agent publishes an entry only for a CPU its scan of the table
reaches and that an earlier scan reached as well.
-/

namespace NodeMonitor.CoreCounts

open CpuShares CpuStatMonitor Hotplug KernelTables KeyedMaps Messages PrefixScans Ranking Score

abbrev CpuEvent := Event CpuTimes

/-- A host with its agent's baselines. -/
structure Agent where
  host : Host CpuStatRow
  baselines : Baselines

def pollStep (a : Agent) : CpuEvent → Baselines
  | .hotplug _ _ => a.baselines
  | .timer _ => a.baselines
  | .poll => pollBaselines a.baselines (some a.host.table)

def step (a : Agent) (e : CpuEvent) : Agent where
  host := Hotplug.step cpuStats a.host e
  baselines := pollStep a e

def start (online : ℕ → Bool) : Agent := ⟨⟨online, fun _ => cpuStats.zeroed⟩, empty⟩

def run (online : ℕ → Bool) (events : List CpuEvent) : Agent := events.foldl step (start online)

/-- The message of a poll; `info` has what the other monitors wrote. -/
def message (a : Agent) (info : MonitorInfo) : MonitorInfo :=
  (updateOnce a.baselines (some a.host.table) info).2

def hasBaseline (a : Agent) (cpu : Fin maxCpu) : Bool := (a.baselines (cpuName cpu)).isSome

/-- The CPUs of a set, and those that a scan up to the first gap reaches. -/
def onlineCpus (last : ℕ → Bool) : List (Fin maxCpu) :=
  (List.finRange maxCpu).filter (fun cpu : Fin maxCpu => last cpu)

def reachedCpus (last : ℕ → Bool) : List (Fin maxCpu) :=
  (List.finRange maxCpu).takeWhile (fun cpu : Fin maxCpu => last cpu)

/-- An earlier poll came when the CPU and all CPUs below it had been online at the last
update. -/
def WasRead (online : ℕ → Bool) (events : List CpuEvent) (cpu : Fin maxCpu) : Prop :=
  ∃ before after, events = before ++ .poll :: after ∧
    ∀ low ≤ cpu, lastOnline online before low = true

/-! ### What a poll reads -/

theorem host_run (online : ℕ → Bool) (events : List CpuEvent) :
    (run online events).host = Hotplug.run cpuStats online events := by
  induction events using List.reverseRecOn with
  | nil => rfl
  | append_singleton events e ih =>
    simp only [run, Hotplug.run, List.foldl_append, List.foldl_cons, List.foldl_nil] at ih ⊢
    rw [step, ih]

theorem labelled_run (online : ℕ → Bool) (events : List CpuEvent) :
    Labelled cpuStats (run online events).host.table (lastOnline online events) := by
  rw [host_run]
  exact run_labelled cpuStats online events

theorem rowsRead_run (online : ℕ → Bool) (events : List CpuEvent) :
    rowsRead (some (run online events).host.table) =
      (reachedCpus (lastOnline online events)).map (run online events).host.table :=
  takeWhile_named cpuStats _ _ (labelled_run online events)

theorem mem_reachedCpus_iff (last : ℕ → Bool) (cpu : Fin maxCpu) :
    cpu ∈ reachedCpus last ↔ ∀ low ≤ cpu, last low = true :=
  mem_takeWhile_finRange_iff _ cpu

theorem online_of_reached {last : ℕ → Bool} {cpu : Fin maxCpu} (h : cpu ∈ reachedCpus last) :
    last cpu = true :=
  (mem_reachedCpus_iff last cpu).mp h cpu le_rfl

/-- The rows read carry the names of their CPUs. -/
theorem rowName_run (online : ℕ → Bool) (events : List CpuEvent) {cpu : Fin maxCpu}
    (hcpu : cpu ∈ reachedCpus (lastOnline online events)) :
    rowName ((run online events).host.table cpu) = cpuName cpu := by
  have hname := labelled_run online events cpu
  rw [if_pos (online_of_reached hcpu)] at hname
  exact hname

theorem cpuName_injective : Function.Injective (fun cpu : Fin maxCpu => cpuName cpu) :=
  fun _ _ h => Fin.ext (cpuLabel_injective (String.ofList_injective h))

theorem rowNames_run (online : ℕ → Bool) (events : List CpuEvent) :
    (rowsRead (some (run online events).host.table)).map rowName =
      (reachedCpus (lastOnline online events)).map (fun cpu : Fin maxCpu => cpuName cpu) := by
  rw [rowsRead_run, List.map_map]
  exact List.map_congr_left (fun _ hcpu => rowName_run online events hcpu)

theorem nodup_rowNames_run (online : ℕ → Bool) (events : List CpuEvent) :
    ((rowsRead (some (run online events).host.table)).map rowName).Nodup := by
  have hreached : (reachedCpus (lastOnline online events)).Nodup :=
    (List.takeWhile_sublist _).nodup (List.nodup_finRange maxCpu)
  rw [rowNames_run]
  exact hreached.map cpuName_injective

theorem wasRead_concat (online : ℕ → Bool) (events : List CpuEvent) (e : CpuEvent)
    (cpu : Fin maxCpu) :
    WasRead online (events ++ [e]) cpu ↔
      (e = .poll ∧ cpu ∈ reachedCpus (lastOnline online events)) ∨ WasRead online events cpu := by
  simp only [WasRead, ← mem_reachedCpus_iff, concat_eq_append_cons_iff]
  constructor
  · rintro ⟨before, after, ⟨rfl, he, _⟩ | ⟨rest, rfl, hevents⟩, hcpu⟩
    · exact Or.inl ⟨he, hcpu⟩
    · exact Or.inr ⟨before, rest, hevents, hcpu⟩
  · rintro (⟨he, hcpu⟩ | ⟨before, rest, hevents, hcpu⟩)
    · exact ⟨events, [], Or.inl ⟨rfl, he, rfl⟩, hcpu⟩
    · exact ⟨before, rest ++ [e], Or.inr ⟨rest, rfl, hevents⟩, hcpu⟩

/-- The agent has a baseline for exactly the CPUs that an earlier poll reached. -/
theorem hasBaseline_iff (online : ℕ → Bool) (events : List CpuEvent) (cpu : Fin maxCpu) :
    hasBaseline (run online events) cpu = true ↔ WasRead online events cpu := by
  unfold hasBaseline
  induction events using List.reverseRecOn with
  | nil => simp [run, start, WasRead]
  | append_singleton events e ih =>
    have hstep : (run online (events ++ [e])).baselines = pollStep (run online events) e := by
      rw [run, List.foldl_append]
      rfl
    rw [hstep, wasRead_concat]
    cases e with
    | hotplug cpu up => simpa [pollStep] using ih
    | timer counts => simpa [pollStep] using ih
    | poll =>
      have hread : (rowOf (cpuName cpu) (some (run online events).host.table)).isSome ↔
          cpu ∈ reachedCpus (lastOnline online events) := by
        rw [rowOf_isSome_iff, ← List.mem_map, rowNames_run]
        exact List.mem_map_of_injective cpuName_injective
      rw [pollStep, pollBaselines_apply, Option.map_id, id, Option.isSome_or, Bool.or_eq_true,
        hread, ih]
      simp

/-- A poll adds an entry for every CPU it reaches that has a baseline. -/
theorem length_cpuStat_message (online : ℕ → Bool) (events : List CpuEvent)
    (info : MonitorInfo) :
    (message (run online events) info).cpuStat.length = info.cpuStat.length +
      (reachedCpus (lastOnline online events)).countP (hasBaseline (run online events)) := by
  rw [message, updateOnce_eq, List.length_append, List.length_map,
    emissions_of_nodup _ _ (nodup_rowNames_run online events), rowsRead_run,
    List.length_filterMap_eq_countP, List.countP_map]
  congr 1
  apply List.countP_congr
  intro cpu hcpu
  simp [hasBaseline, rowName_run online events hcpu]

/-! ### The number of cores -/

/-- The score divides the load by the given number of cores. -/
structure NormalizedBy (info : MonitorInfo) (n : ℕ) : Prop where
  cores : (metrics info).cpuCores = n
  load : loadScore (metrics info) = max 0 (1 - (metrics info).loadAvg1 / n)

theorem normalizedBy_iff (info : MonitorInfo) (n : ℕ) :
    NormalizedBy info n ↔ max 1 info.cpuStat.length = n := by
  rw [← cpuCores_metrics]
  constructor
  · intro h
    exact h.cores
  · rintro rfl
    exact ⟨rfl, clampBelow_eq_max _⟩

theorem reachedCpus_sublist (last : ℕ → Bool) : (reachedCpus last).Sublist (onlineCpus last) :=
  takeWhile_sublist_filter _ _

theorem reachedCpus_eq_iff (last : ℕ → Bool) : reachedCpus last = onlineCpus last ↔ NoGap last :=
  takeWhile_finRange_iff _

/-- All elements of the larger list are counted in the smaller one only if there is no
difference and all pass the test. -/
theorem countP_eq_length_iff {α : Type} (p : α → Bool) {small large : List α}
    (hsub : small.Sublist large) :
    small.countP p = large.length ↔ small = large ∧ ∀ a ∈ large, p a = true := by
  have hcount := List.countP_le_length (p := p) (l := small)
  have hlength := hsub.length_le
  constructor
  · intro h
    obtain rfl := hsub.eq_of_length (by omega)
    exact ⟨rfl, List.countP_eq_length.mp h⟩
  · rintro ⟨rfl, hall⟩
    exact List.countP_eq_length.mpr hall

theorem normalizedBy_message_iff (online : ℕ → Bool) (events : List CpuEvent)
    (info : MonitorInfo) (hinfo : info.cpuStat = []) (n : ℕ) :
    NormalizedBy (message (run online events) info) n ↔
      max 1 ((reachedCpus (lastOnline online events)).countP
        (hasBaseline (run online events))) = n := by
  rw [normalizedBy_iff, length_cpuStat_message, hinfo, List.length_nil, Nat.zero_add]

/-- In every run over a table of online CPUs, the score of a published message divides the
load by their number exactly when there is a single one, or there is no gap between them
and earlier polls have read them all. -/
theorem cores_counted_iff (online : ℕ → Bool) (events : List CpuEvent) (info : MonitorInfo)
    (hinfo : info.cpuStat = []) (hn : 1 ≤ (onlineCpus (lastOnline online events)).length) :
    NormalizedBy (message (run online events) info) (onlineCpus (lastOnline online events)).length ↔
      (onlineCpus (lastOnline online events)).length = 1 ∨
        (NoGap (lastOnline online events) ∧
          ∀ cpu ∈ onlineCpus (lastOnline online events), WasRead online events cpu) := by
  have hsub := reachedCpus_sublist (lastOnline online events)
  have hall := countP_eq_length_iff (hasBaseline (run online events)) hsub
  have hcount := List.countP_le_length (p := hasBaseline (run online events))
    (l := reachedCpus (lastOnline online events))
  have hlength := hsub.length_le
  rw [normalizedBy_message_iff online events info hinfo]
  simp only [reachedCpus_eq_iff, hasBaseline_iff] at hall
  rw [← hall]
  omega

/-! ### Two CPUs -/

def twoCpus (cpu : ℕ) : Bool := decide (cpu < 2)

def idleTimes : CpuTimes := ⟨0, 0, 0, 0, 0, 0, 0, 0, 0, 0⟩

theorem length_onlineCpus_twoCpus : (onlineCpus twoCpus).length = 2 := by
  decide

/-- The second poll after an update counts both CPUs. -/
theorem cores_counted_iff_second_poll :
    NormalizedBy (message (run twoCpus [.timer (fun _ => idleTimes), .poll])
      MonitorInfo.default) (onlineCpus twoCpus).length := by
  have hlast : lastOnline twoCpus [.timer (fun _ => idleTimes), .poll] = twoCpus := rfl
  have hn : 1 ≤ (onlineCpus twoCpus).length := by
    rw [length_onlineCpus_twoCpus]
    omega
  refine (cores_counted_iff twoCpus [.timer (fun _ => idleTimes), .poll] MonitorInfo.default rfl
    hn).mpr (Or.inr ⟨?_, ?_⟩)
  · rw [hlast]
    intro low high hlt hhigh
    simp only [twoCpus, decide_eq_true_eq] at hhigh ⊢
    omega
  · intro cpu hcpu
    refine ⟨[.timer (fun _ => idleTimes)], [], rfl, ?_⟩
    intro low hle
    have hcpu : twoCpus cpu = true := (List.mem_filter.mp hcpu).2
    change twoCpus low = true
    simp only [twoCpus, decide_eq_true_eq] at hcpu ⊢
    omega

/-- The first poll publishes no entry, so the load of two CPUs is divided by one. -/
theorem first_poll_counts_one_core :
    ¬ ∀ (online : ℕ → Bool) (events : List CpuEvent) (info : MonitorInfo), info.cpuStat = [] →
      1 ≤ (onlineCpus (lastOnline online events)).length →
        NormalizedBy (message (run online events) info)
          (onlineCpus (lastOnline online events)).length := by
  intro h
  have hlength := length_onlineCpus_twoCpus
  have hscored := h twoCpus [.timer (fun _ => idleTimes)] MonitorInfo.default rfl
    (by change 1 ≤ (onlineCpus twoCpus).length; omega)
  rw [normalizedBy_message_iff _ _ _ rfl] at hscored
  have hnone : (reachedCpus twoCpus).countP
      (hasBaseline (run twoCpus [.timer (fun _ => idleTimes)])) = 0 :=
    List.countP_eq_zero.mpr (fun _ _ => Bool.noConfusion)
  change max 1 ((reachedCpus twoCpus).countP _) = (onlineCpus twoCpus).length at hscored
  rw [hnone] at hscored
  omega

end NodeMonitor.CoreCounts
