import NodeMonitor.KernelTables
import NodeMonitor.Readings
import NodeMonitor.Score
import NodeMonitor.WeightedMeans

/-!
The health score as a ranking of messages. Each of the five terms is the unused
share of a capacity, and the score is their weighted mean in percent, cut off at a
hundred. Of the CPU entries only the first one and their number matter.
-/

namespace NodeMonitor.Ranking

open KernelTables Messages Readings Score WeightedMeans

/-- The terms of the score. -/
inductive Term
  | cpu | load | mem | netRecv | netSend
  deriving DecidableEq

instance : Fintype Term where
  elems := {.cpu, .load, .mem, .netRecv, .netSend}
  complete term := by
    cases term <;> simp

def weight : Term → ℚ
  | .cpu => cpuWeight
  | .load => loadWeight
  | .mem => memWeight
  | .netRecv => netRecvWeight
  | .netSend => netSendWeight

/-- The metric of a term. -/
def value (m : Metrics) : Term → ℚ
  | .cpu => m.cpuPercent
  | .load => m.loadAvg1
  | .mem => m.memPercent
  | .netRecv => m.netRecvRate
  | .netSend => m.netSendRate

/-- What a message says of each term, zero where its section is absent. -/
def metric (info : MonitorInfo) : Term → ℚ
  | .cpu => (info.cpuStat.head?.map CpuStat.cpuPercent).getD 0
  | .load => (info.cpuLoad.map CpuLoad.loadAvg1).getD 0
  | .mem => (info.memInfo.map MemInfo.usedPercent).getD 0
  | .netRecv => (info.netInfo.head?.map NetInfo.sendRate).getD 0
  | .netSend => (info.netInfo.head?.map NetInfo.rcvRate).getD 0

/-- The value that exhausts a term, for a number of cores. -/
def capacity (cores : ℕ) : Term → ℚ
  | .cpu => 100
  | .load => cores
  | .mem => 100
  | .netRecv => maxBandwidth
  | .netSend => maxBandwidth

def share (m : Metrics) (term : Term) : ℚ := unused (value m term) (capacity m.cpuCores term)

theorem forall_term {p : Term → Prop} :
    (∀ term, p term) ↔ p .cpu ∧ p .load ∧ p .mem ∧ p .netRecv ∧ p .netSend := by
  constructor
  · intro h
    exact ⟨h .cpu, h .load, h .mem, h .netRecv, h .netSend⟩
  · rintro ⟨hcpu, hload, hmem, hrecv, hsend⟩ term
    cases term with
    | cpu => exact hcpu
    | load => exact hload
    | mem => exact hmem
    | netRecv => exact hrecv
    | netSend => exact hsend

theorem sum_term (f : Term → ℚ) :
    ∑ term, f term = f .cpu + f .load + f .mem + f .netRecv + f .netSend := by
  have huniv : (Finset.univ : Finset Term) = {.cpu, .load, .mem, .netRecv, .netSend} := rfl
  rw [huniv]
  simp [add_assoc]

theorem share_nonneg (m : Metrics) (term : Term) : 0 ≤ share m term := unused_nonneg _ _

theorem weight_pos : ∀ term, 0 < weight term := by
  refine forall_term.mpr ⟨?_, ?_, ?_, ?_, ?_⟩ <;>
    norm_num [weight, cpuWeight, loadWeight, memWeight, netRecvWeight, netSendWeight]

theorem sum_weight : ∑ term, weight term = 1 := by
  rw [sum_term]
  norm_num [weight, cpuWeight, loadWeight, memWeight, netRecvWeight, netSendWeight]

theorem capacity_pos {cores : ℕ} (hcores : 0 < cores) : ∀ term, 0 < capacity cores term := by
  have hload : (0 : ℚ) < cores := Nat.cast_pos.mpr hcores
  refine forall_term.mpr ⟨?_, hload, ?_, ?_, ?_⟩ <;> norm_num [capacity, maxBandwidth]

theorem value_metrics (info : MonitorInfo) (term : Term) :
    value (metrics info) term = metric info term := by
  cases term with
  | cpu => cases hcores : info.cpuStat <;> simp [value, metrics, metric, hcores]
  | load => cases hload : info.cpuLoad <;> simp [value, metrics, metric, hload]
  | mem => cases hmem : info.memInfo <;> simp [value, metrics, metric, hmem]
  | netRecv => cases hnet : info.netInfo <;> simp [value, metrics, metric, hnet]
  | netSend => cases hnet : info.netInfo <;> simp [value, metrics, metric, hnet]

theorem cpuCores_metrics (info : MonitorInfo) :
    (metrics info).cpuCores = max 1 info.cpuStat.length := by
  unfold metrics
  cases info.cpuStat with
  | nil => rfl
  | cons core rest =>
    simp only [List.length_cons]
    omega

theorem cpuCores_pos (info : MonitorInfo) : 0 < (metrics info).cpuCores := by
  rw [cpuCores_metrics]
  omega

/-! ### The score as a mean -/

theorem weightedScore_eq_mean (m : Metrics) : weightedScore m = mean weight (share m) := by
  rw [mean, sum_term, weightedScore, cpuScore, loadScore, memScore, netRecvScore, netSendScore]
  simp only [clampBelow_eq_max, share, unused, value, capacity, weight]
  ring

theorem weightedScore_nonneg (m : Metrics) : 0 ≤ weightedScore m := by
  rw [weightedScore_eq_mean]
  exact mean_nonneg weight_pos (share_nonneg m)

/-- The lower clamp never acts. -/
theorem calcScore_eq_min (info : MonitorInfo) :
    calcScore info = min 100 (weightedScore (metrics info) * 100) := by
  have hnonneg := weightedScore_nonneg (metrics info)
  rw [calcScore, clampBelow_eq_max, max_eq_right (by linarith), clampAbove_eq_min]

theorem calcScore_nonneg (info : MonitorInfo) : 0 ≤ calcScore info := by
  have hnonneg := weightedScore_nonneg (metrics info)
  rw [calcScore_eq_min]
  exact le_min (by norm_num) (by linarith)

theorem calcScore_le (info : MonitorInfo) : calcScore info ≤ 100 := by
  rw [calcScore_eq_min]
  exact min_le_left _ _

theorem weightedScore_antitone {low high : Metrics} (hcores : low.cpuCores = high.cpuCores)
    (hpos : 0 < high.cpuCores) (h : ∀ term, value low term ≤ value high term) :
    weightedScore high ≤ weightedScore low := by
  rw [weightedScore_eq_mean, weightedScore_eq_mean]
  apply mean_le_mean weight_pos
  intro term
  rw [share, share, hcores]
  exact unused_antitone (capacity_pos hpos term) (h term)

/-- More of any metric never improves the score of as many cores. -/
theorem calcScore_antitone {low high : MonitorInfo}
    (hlength : low.cpuStat.length = high.cpuStat.length)
    (h : ∀ term, value (metrics low) term ≤ value (metrics high) term) :
    calcScore high ≤ calcScore low := by
  have hcores : (metrics low).cpuCores = (metrics high).cpuCores := by
    rw [cpuCores_metrics, cpuCores_metrics, hlength]
  have hweighted := weightedScore_antitone hcores (cpuCores_pos high) h
  rw [calcScore_eq_min, calcScore_eq_min]
  exact min_le_min le_rfl (by linarith)

/-! ### Messages with nonnegative metrics -/

section Nonnegative

variable {m : Metrics} (hcores : 0 < m.cpuCores) (hvalue : ∀ term, 0 ≤ value m term)

include hcores hvalue

theorem share_le_one (term : Term) : share m term ≤ 1 :=
  unused_le_one (capacity_pos hcores term) (hvalue term)

theorem weightedScore_le_one : weightedScore m ≤ 1 := by
  rw [weightedScore_eq_mean]
  exact mean_le_one weight_pos sum_weight (share_le_one hcores hvalue)

theorem weightedScore_eq_one_iff : weightedScore m = 1 ↔ ∀ term, value m term = 0 := by
  rw [weightedScore_eq_mean,
    mean_eq_one_iff weight_pos sum_weight (share_le_one hcores hvalue)]
  exact forall_congr' (fun term => unused_eq_one_iff (capacity_pos hcores term))

omit hvalue in
theorem weightedScore_eq_zero_iff :
    weightedScore m = 0 ↔ ∀ term, capacity m.cpuCores term ≤ value m term := by
  rw [weightedScore_eq_mean, mean_eq_zero_iff weight_pos (share_nonneg m)]
  exact forall_congr' (fun term => unused_eq_zero_iff (capacity_pos hcores term))

end Nonnegative

/-- Neither clamp acts. -/
theorem calcScore_eq_weightedScore (info : MonitorInfo)
    (hvalue : ∀ term, 0 ≤ value (metrics info) term) :
    calcScore info = weightedScore (metrics info) * 100 := by
  have hle := weightedScore_le_one (cpuCores_pos info) hvalue
  rw [calcScore_eq_min, min_eq_right (by linarith)]

/-- The score lies between 0 and 100 and falls with every metric. Of nonnegative
metrics it is the unclamped mean, full only of an idle machine and zero only of one
that is exhausted in every respect. -/
theorem calcScore_ranking :
    (∀ info, 0 ≤ calcScore info ∧ calcScore info ≤ 100) ∧
      (∀ low high : MonitorInfo, low.cpuStat.length = high.cpuStat.length →
        (∀ term, metric low term ≤ metric high term) → calcScore high ≤ calcScore low) ∧
      ∀ info, (∀ term, 0 ≤ metric info term) →
        calcScore info = weightedScore (metrics info) * 100 ∧
        (calcScore info = 100 ↔ ∀ term, metric info term = 0) ∧
        (calcScore info = 0 ↔
          100 ≤ metric info .cpu ∧
          (max 1 info.cpuStat.length : ℕ) ≤ metric info .load ∧
          100 ≤ metric info .mem ∧
          125000000 ≤ metric info .netRecv ∧
          125000000 ≤ metric info .netSend) := by
  simp only [← value_metrics]
  refine ⟨fun info => ⟨calcScore_nonneg info, calcScore_le info⟩,
    fun _ _ hlength h => calcScore_antitone hlength h, ?_⟩
  intro info hvalue
  have hscore := calcScore_eq_weightedScore info hvalue
  refine ⟨hscore, ?_, ?_⟩
  · rw [← weightedScore_eq_one_iff (cpuCores_pos info) hvalue, hscore]
    constructor
    · intro h
      linarith
    · intro h
      rw [h, one_mul]
  · have hzero := weightedScore_eq_zero_iff (cpuCores_pos info)
    rw [forall_term, cpuCores_metrics] at hzero
    rw [hscore, mul_eq_zero, or_iff_left (by norm_num), hzero]
    rfl

/-- A machine with a single exhausted core. -/
theorem calcScore_ranking_exhausted :
    let info : MonitorInfo :=
      { cpuStat := [{ cpuPercent := 100 }], cpuLoad := some { loadAvg1 := 2 }
        memInfo := some { usedPercent := 100 }
        netInfo := [{ sendRate := 125000000, rcvRate := 125000000 }] }
    calcScore info = 0 := by
  intro info
  have hmetric : ∀ term, 0 ≤ metric info term := by
    refine forall_term.mpr ⟨?_, ?_, ?_, ?_, ?_⟩ <;> norm_num [metric, info]
  refine (calcScore_ranking.2.2 info hmetric).2.2.mpr ⟨?_, ?_, ?_, ?_, ?_⟩ <;>
    norm_num [metric, info]

/-! ### The entry in front -/

/-- The metrics with another CPU entry in front. -/
def inFront (info : MonitorInfo) (core : CpuStat) : Metrics :=
  { metrics info with cpuPercent := core.cpuPercent }

/-- Of a list of as many entries only the first one matters. -/
theorem metrics_cons (info : MonitorInfo) (core : CpuStat) (rest : List CpuStat)
    (hlength : (core :: rest).length = info.cpuStat.length) :
    metrics { info with cpuStat := core :: rest } = inFront info core := by
  have hcores := cpuCores_metrics info
  rw [← hlength, max_eq_right (by simp)] at hcores
  simp only [inFront, hcores]
  rfl

theorem calcScore_cons (info : MonitorInfo) (core : CpuStat) (rest : List CpuStat)
    (hlength : (core :: rest).length = info.cpuStat.length) :
    calcScore { info with cpuStat := core :: rest } =
      min 100 (mean weight (share (inFront info core)) * 100) := by
  rw [calcScore_eq_min, metrics_cons info core rest hlength, weightedScore_eq_mean]

/-- Any core can be brought to the front. -/
theorem exists_perm_front {info : MonitorInfo} {core : CpuStat} (hcore : core ∈ info.cpuStat) :
    ∃ cores : List CpuStat, cores.Perm info.cpuStat ∧
      calcScore { info with cpuStat := cores } =
        min 100 (mean weight (share (inFront info core)) * 100) := by
  have hperm := (List.perm_cons_erase hcore).symm
  exact ⟨_, hperm, calcScore_cons info core _ hperm.length_eq⟩

theorem share_inFront_of_ne (info : MonitorInfo) (core other : CpuStat) {term : Term}
    (h : term ≠ .cpu) : share (inFront info core) term = share (inFront info other) term := by
  cases term with
  | cpu => exact absurd rfl h
  | load => rfl
  | mem => rfl
  | netRecv => rfl
  | netSend => rfl

theorem mean_inFront_lt (info : MonitorInfo) {core other : CpuStat}
    (h : unused core.cpuPercent 100 < unused other.cpuPercent 100) :
    mean weight (share (inFront info core)) < mean weight (share (inFront info other)) := by
  have hle : ∀ term, share (inFront info core) term ≤ share (inFront info other) term := by
    intro term
    by_cases hterm : term = .cpu
    · subst term
      exact h.le
    · exact (share_inFront_of_ne info core other hterm).le
  have hlt : share (inFront info core) .cpu < share (inFront info other) .cpu := h
  exact mean_lt_mean weight_pos hle hlt

theorem mean_inFront_eq_iff (info : MonitorInfo) (core other : CpuStat) :
    mean weight (share (inFront info core)) = mean weight (share (inFront info other)) ↔
      unused core.cpuPercent 100 = unused other.cpuPercent 100 := by
  constructor
  · intro heq
    rcases lt_trichotomy (unused core.cpuPercent 100) (unused other.cpuPercent 100) with
      hlt | hsame | hgt
    · exact absurd heq (mean_inFront_lt info hlt).ne
    · exact hsame
    · exact absurd heq (mean_inFront_lt info hgt).ne'
  · intro h
    have hshare : share (inFront info core) = share (inFront info other) := by
      funext term
      by_cases hterm : term = .cpu
      · subst term
        exact h
      · exact share_inFront_of_ne info core other hterm
    rw [hshare]

/-- One entry for each core, named after it, and none for all of them together. -/
structure PerCore (info : MonitorInfo) : Prop where
  named : ∀ core ∈ info.cpuStat, ∃ cpu < maxCpu, core.cpuName = String.ofList (cpuLabel cpu)
  nodup : (info.cpuStat.map CpuStat.cpuName).Nodup

/-- No core is exhausted, and no metric is negative. -/
structure Normal (info : MonitorInfo) : Prop where
  cores : ∀ core ∈ info.cpuStat, 0 ≤ core.cpuPercent ∧ core.cpuPercent < 100
  others : ∀ term, term ≠ .cpu → 0 ≤ value (metrics info) term

/-- The entries can be permuted, and the score falls when any core gets busier. -/
structure ReflectsCores (info : MonitorInfo) : Prop where
  permute : ∀ cores : List CpuStat, cores.Perm info.cpuStat →
    calcScore { info with cpuStat := cores } = calcScore info
  raise : Normal info → ∀ pre core post, info.cpuStat = pre ++ core :: post →
    ∀ percent, core.cpuPercent < percent → percent < 100 →
      calcScore { info with cpuStat := pre ++ { core with cpuPercent := percent } :: post } <
        calcScore info

/-- With any core in front the weighted shares reach the upper clamp. -/
def Capped (info : MonitorInfo) : Prop :=
  ∀ core ∈ info.cpuStat, 1 ≤ mean weight (share (inFront info core))

/-- All cores leave the same share. -/
def Uniform (info : MonitorInfo) : Prop :=
  ∀ core ∈ info.cpuStat, ∀ other ∈ info.cpuStat,
    unused core.cpuPercent 100 = unused other.cpuPercent 100

theorem min_hundred_eq_iff (a : ℚ) : min 100 (a * 100) = 100 ↔ 1 ≤ a := by
  rw [min_eq_left_iff]
  constructor
  · intro h
    linarith
  · intro h
    linarith

/-- Two means that are not equal have the same clamped score only above the clamp. -/
theorem one_le_of_min_eq {a b : ℚ} (hne : a ≠ b)
    (heq : min 100 (a * 100) = min 100 (b * 100)) : 1 ≤ a := by
  by_contra hlt
  have ha : min 100 (a * 100) = a * 100 := min_eq_right (by linarith)
  rcases min_choice 100 (b * 100) with hb | hb
  · rw [ha, hb] at heq
    linarith
  · rw [ha, hb] at heq
    exact hne (by linarith)

/-- Clamped scores are all the same when they are before clamping, or are all clamped. -/
theorem clamped_eq_iff {A : Type*} (l : List A) (f : A → ℚ) :
    (∀ a ∈ l, ∀ b ∈ l, min 100 (f a * 100) = min 100 (f b * 100)) ↔
      (∀ a ∈ l, ∀ b ∈ l, f a = f b) ∨ ∀ a ∈ l, 1 ≤ f a := by
  constructor
  · intro hsame
    by_cases hequal : ∀ a ∈ l, ∀ b ∈ l, f a = f b
    · exact Or.inl hequal
    · right
      simp only [not_forall] at hequal
      obtain ⟨a, ha, b, hb, hne⟩ := hequal
      have hclamped := (min_hundred_eq_iff (f a)).mpr (one_le_of_min_eq hne (hsame a ha b hb))
      intro c hc
      exact (min_hundred_eq_iff (f c)).mp ((hsame c hc a ha).trans hclamped)
  · rintro (hequal | hclamped) a ha b hb
    · rw [hequal a ha b hb]
    · rw [(min_hundred_eq_iff (f a)).mpr (hclamped a ha),
        (min_hundred_eq_iff (f b)).mpr (hclamped b hb)]

theorem uniform_or_capped_iff (info : MonitorInfo) :
    (∀ core ∈ info.cpuStat, ∀ other ∈ info.cpuStat,
        min 100 (mean weight (share (inFront info core)) * 100) =
          min 100 (mean weight (share (inFront info other)) * 100)) ↔
      Uniform info ∨ Capped info := by
  rw [clamped_eq_iff info.cpuStat (fun core => mean weight (share (inFront info core)))]
  simp only [mean_inFront_eq_iff]
  rfl

/-- Any list of entries has one of them in front, unless it is empty. -/
theorem calcScore_perm {info : MonitorInfo} {cores : List CpuStat}
    (hperm : cores.Perm info.cpuStat) :
    cores = info.cpuStat ∨ ∃ core ∈ info.cpuStat, calcScore { info with cpuStat := cores } =
      min 100 (mean weight (share (inFront info core)) * 100) := by
  cases cores with
  | nil => exact Or.inl (List.nil_perm.mp hperm).symm
  | cons core rest =>
    exact Or.inr ⟨core, hperm.subset (List.mem_cons_self ..),
      calcScore_cons info core rest hperm.length_eq⟩

theorem permute_iff (info : MonitorInfo) :
    (∀ cores : List CpuStat, cores.Perm info.cpuStat →
        calcScore { info with cpuStat := cores } = calcScore info) ↔
      Uniform info ∨ Capped info := by
  rw [← uniform_or_capped_iff]
  constructor
  · intro hpermute
    have hfront : ∀ core ∈ info.cpuStat,
        min 100 (mean weight (share (inFront info core)) * 100) = calcScore info := by
      intro core hcore
      obtain ⟨cores, hperm, hscore⟩ := exists_perm_front hcore
      rw [← hscore, hpermute cores hperm]
    intro core hcore other hother
    rw [hfront core hcore, hfront other hother]
  · intro hfronts cores hperm
    rcases calcScore_perm hperm with rfl | ⟨core, hcore, hscore⟩
    · rfl
    · cases hinfo : info.cpuStat with
      | nil =>
        rw [hinfo] at hcore
        exact absurd hcore List.not_mem_nil
      | cons head tail =>
        have hself := calcScore_cons info head tail (by rw [hinfo])
        rw [← hinfo] at hself
        rw [hscore, show calcScore info = _ from hself]
        exact hfronts core hcore head (hinfo ▸ List.mem_cons_self ..)

theorem Normal.value_nonneg {info : MonitorInfo} (h : Normal info) :
    ∀ term, 0 ≤ value (metrics info) term := by
  intro term
  by_cases hterm : term = .cpu
  · subst term
    unfold value metrics
    cases hcores : info.cpuStat with
    | nil => exact le_rfl
    | cons core rest => exact (h.cores core (by simp [hcores])).1
  · exact h.others term hterm

/-- Of a single core every increase counts. -/
theorem raise_single {info : MonitorInfo} (hnormal : Normal info) {core : CpuStat}
    (hinfo : info.cpuStat = [core]) {percent : ℚ} (hraise : core.cpuPercent < percent) :
    calcScore { info with cpuStat := [{ core with cpuPercent := percent }] } <
      calcScore info := by
  have hself := metrics_cons info core [] (by rw [hinfo])
  rw [← hinfo] at hself
  let raised : CpuStat := { core with cpuPercent := percent }
  have hshare : unused raised.cpuPercent 100 < unused core.cpuPercent 100 :=
    unused_lt_unused (by norm_num) (hnormal.cores core (by simp [hinfo])).2 hraise
  have hmean := mean_inFront_lt info hshare
  rw [calcScore_cons info _ [] (by simp [hinfo]),
    calcScore_eq_weightedScore info hnormal.value_nonneg, weightedScore_eq_mean,
    show metrics info = _ from hself]
  exact (min_le_right _ _).trans_lt (by linarith)

/-- An increase behind the first core does not count. -/
theorem not_raise {info : MonitorInfo} {first core : CpuStat} {rest : List CpuStat}
    (hinfo : info.cpuStat = first :: core :: rest) (percent : ℚ) :
    calcScore { info with cpuStat := first :: { core with cpuPercent := percent } :: rest } =
      calcScore info := by
  have hself := calcScore_cons info first (core :: rest) (by rw [hinfo])
  rw [← hinfo] at hself
  rw [calcScore_cons info first _ (by simp [hinfo])]
  exact hself.symm

theorem uniform_of_length_le {info : MonitorInfo} (hlength : info.cpuStat.length ≤ 1) :
    Uniform info := by
  intro core hcore other hother
  obtain ⟨i, hi, rfl⟩ := List.getElem_of_mem hcore
  obtain ⟨j, hj, rfl⟩ := List.getElem_of_mem hother
  obtain rfl : i = j := by omega
  rfl

theorem raise_of_length_le {info : MonitorInfo} (hlength : info.cpuStat.length ≤ 1)
    (hnormal : Normal info) (pre : List CpuStat) (core : CpuStat) (post : List CpuStat)
    (hinfo : info.cpuStat = pre ++ core :: post) (percent : ℚ)
    (hraise : core.cpuPercent < percent) :
    calcScore { info with cpuStat := pre ++ { core with cpuPercent := percent } :: post } <
      calcScore info := by
  rw [hinfo, List.length_append, List.length_cons] at hlength
  obtain rfl : pre = [] := List.length_eq_zero_iff.mp (by omega)
  obtain rfl : post = [] := List.length_eq_zero_iff.mp (by omega)
  exact raise_single hnormal hinfo hraise

/-- The score reflects the use of all cores exactly when there is at most one, or
nothing is claimed of their increase and the clamps hide which one is in front. -/
theorem reflectsCores_iff (info : MonitorInfo) :
    ReflectsCores info ↔
      info.cpuStat.length ≤ 1 ∨ ¬ Normal info ∧ (Uniform info ∨ Capped info) := by
  constructor
  · intro h
    by_cases hlength : info.cpuStat.length ≤ 1
    · exact Or.inl hlength
    · right
      refine ⟨?_, (permute_iff info).mp h.permute⟩
      intro hnormal
      rcases hinfo : info.cpuStat with _ | ⟨first, _ | ⟨core, rest⟩⟩
      · simp [hinfo] at hlength
      · simp [hinfo] at hlength
      · have hcore := (hnormal.cores core (by simp [hinfo])).2
        have hlower := h.raise hnormal [first] core rest hinfo ((core.cpuPercent + 100) / 2)
          (by linarith) (by linarith)
        exact hlower.ne (not_raise hinfo _)
  · rintro (hlength | ⟨hnormal, hshares⟩)
    · constructor
      · exact (permute_iff info).mpr (Or.inl (uniform_of_length_le hlength))
      · intro hnormal pre core post hinfo percent hraise _
        exact raise_of_length_le hlength hnormal pre core post hinfo percent hraise
    · exact ⟨(permute_iff info).mpr hshares, fun h => absurd h hnormal⟩

/-- An idle core in front of a busy one. -/
def idleInFront : MonitorInfo :=
  { cpuStat := [{ cpuName := "cpu0", cpuPercent := 0 }, { cpuName := "cpu1", cpuPercent := 90 }] }

/-- The busy core in front instead lowers the score of the same machine. -/
theorem idleInFront_not_reflected : ¬ ∀ info, PerCore info → ReflectsCores info := by
  intro h
  have hcores : PerCore idleInFront := by
    constructor
    · intro core hcore
      rcases List.mem_pair.mp hcore with rfl | rfl
      · exact ⟨0, by decide, rfl⟩
      · exact ⟨1, by decide, rfl⟩
    · simp [idleInFront]
  have hscore := (h idleInFront hcores).permute idleInFront.cpuStat.reverse
    (List.reverse_perm _)
  norm_num [idleInFront, calcScore, weightedScore, metrics, cpuScore, loadScore, memScore,
    netRecvScore, netSendScore, clampBelow, clampAbove, cpuWeight, loadWeight, memWeight,
    netRecvWeight, netSendWeight] at hscore

end NodeMonitor.Ranking
