import NodeMonitor.SharedRecords
import NodeMonitor.SoftirqMonitor
import Mathlib.Data.Fin.VecNotation
import Mathlib.Data.Fintype.Basic
import Mathlib.Tactic.FinCases

/-!
Polls of the soft interrupt table while the timer's callbacks run. Nothing keeps the two
apart: the agent loads every member at a moment of its own among the single stores of the
kernel. A counter published is still one that a callback has left, rounded to `float`, and
successive polls never see a counter go back; whether two counters of a row belong together
is open.
-/

namespace NodeMonitor.TornReads

open CharBuffers FloatRounding KernelTables KeyedMaps Messages PrefixScans SharedRecords
  SoftirqMonitor StructLayouts

def storesOf (callbacks : List Callback) : List Store := (callbacks.map Callback.stores).flatten

/-- The moments of the loads of a poll, each as the number of stores made before it: the
one that looks for the end of the table, and those that copy a row. -/
structure Poll where
  check : Fin maxCpu → ℕ
  moment : Fin maxCpu → ℕ → ℕ

/-- The memory once so many stores have been made. -/
def memoryAt (callbacks : List Callback) (t : ℕ) : Memory :=
  storeAll natural softirqStat zeroed ((storesOf callbacks).take t)

def loadAt (callbacks : List Callback) (t : ℕ) (cpu : Fin maxCpu) (k : ℕ) : ℕ :=
  load packed softirqStat (memoryAt callbacks t) cpu k

def unnamedAt (callbacks : List Callback) (poll : Poll) (cpu : Fin maxCpu) : Bool :=
  Char.ofNat (loadAt callbacks (poll.check cpu) cpu 0) = nul

/-- The row a poll copies. -/
def tornRow (callbacks : List Callback) (poll : Poll) (cpu : Fin maxCpu) : SoftirqRow :=
  rowOf (fun k => loadAt callbacks (poll.moment cpu k) cpu k)

/-- The loop over the rows, left at the first row without a name. -/
def readRows (callbacks : List Callback) (poll : Poll) (out : List SoftIrq) :
    List (Fin maxCpu) → List SoftIrq
  | [] => out
  | cpu :: rest =>
    if unnamedAt callbacks poll cpu then out
    else readRows callbacks poll (out ++ [softIrqMessage (tornRow callbacks poll cpu)]) rest

def updateOnce (callbacks : List Callback) (poll : Poll) (info : MonitorInfo) : MonitorInfo :=
  { info with softIrq := readRows callbacks poll info.softIrq (List.finRange maxCpu) }

/-- The CPUs whose rows a poll publishes. -/
def published (callbacks : List Callback) (poll : Poll) : List (Fin maxCpu) :=
  (List.finRange maxCpu).takeWhile (fun cpu => !unnamedAt callbacks poll cpu)

theorem readRows_eq (callbacks : List Callback) (poll : Poll) (out : List SoftIrq)
    (cpus : List (Fin maxCpu)) :
    readRows callbacks poll out cpus =
      out ++ (cpus.takeWhile (fun cpu => !unnamedAt callbacks poll cpu)).map
        (fun cpu => softIrqMessage (tornRow callbacks poll cpu)) := by
  induction cpus generalizing out with
  | nil => simp [readRows]
  | cons cpu rest ih =>
    by_cases h : unnamedAt callbacks poll cpu
    · simp [readRows, h]
    · simp [readRows, h, ih]

theorem softIrq_updateOnce (callbacks : List Callback) (poll : Poll) (info : MonitorInfo) :
    (updateOnce callbacks poll info).softIrq = info.softIrq ++
      (published callbacks poll).map (fun cpu => softIrqMessage (tornRow callbacks poll cpu)) :=
  readRows_eq callbacks poll info.softIrq _

/-! ### The counters -/

def counter (row : SoftirqRow) : Fin 10 → UInt64 :=
  ![row.hi, row.timer, row.netTx, row.netRx, row.block, row.irqPoll, row.tasklet, row.sched,
    row.hrtimer, row.rcu]

def entryCounter (entry : SoftIrq) : Fin 10 → ℚ :=
  ![entry.hi, entry.timer, entry.netTx, entry.netRx, entry.block, entry.irqPoll, entry.tasklet,
    entry.sched, entry.hrtimer, entry.rcu]

theorem counter_rowOf (value : ℕ → ℕ) (j : Fin 10) :
    counter (rowOf value) j = UInt64.ofNat (value (16 + j)) := by
  fin_cases j <;> rfl

theorem entryCounter_softIrqMessage (row : SoftirqRow) (j : Fin 10) :
    entryCounter (softIrqMessage row) j = toFloat (counter row j) := by
  fin_cases j <;> rfl

/-! ### One callback stores every member once -/

theorem nodup_map_target_rowStores (online : ℕ → Bool) (kstat : ℕ → SoftirqCounts) (cpu : ℕ) :
    ((rowStores online kstat cpu).map Store.target).Nodup := by
  unfold rowStores
  split
  · rw [List.map_append, List.nodup_append]
    refine ⟨nodup_map_target_fill .., nodup_map_target_fill .., ?_⟩
    intro name hname word hword heq
    obtain ⟨s, hs, rfl⟩ := List.mem_map.mp hname
    obtain ⟨u, hu, rfl⟩ := List.mem_map.mp hword
    have hlow := (mem_fill hs).2.2
    have hhigh := (mem_fill hu).2.1
    have hfield : s.field = u.field := (Prod.mk.inj heq).2
    simp only [nameValues, List.length_map, List.length_append, List.length_take,
      List.length_singleton] at hlow
    omega
  · exact nodup_map_target_fill ..

theorem nodup_map_target_stores (c : Callback) : (c.stores.map Store.target).Nodup := by
  rw [Callback.stores, updateSoftirqStats, List.map_flatMap, List.nodup_flatMap]
  refine ⟨fun cpu _ => nodup_map_target_rowStores c.online c.kstat cpu, ?_⟩
  apply List.nodup_range.pairwise_of_forall_ne
  intro cpu _ other _ hne target hcpu hother
  obtain ⟨s, hs, rfl⟩ := List.mem_map.mp hcpu
  obtain ⟨u, hu, heq⟩ := List.mem_map.mp hother
  have hrow : u.row = s.row := (Prod.mk.inj heq).1
  rw [(mem_rowStores _ _ _ _ hs).1, (mem_rowStores _ _ _ _ hu).1] at hrow
  exact hne hrow.symm

/-! ### What a load returns -/

/-- The callbacks whose turn to store a member has come by a moment. -/
def seen (callbacks : List Callback) (cpu : Fin maxCpu) (k t : ℕ) : List Callback :=
  callbacks.take (roundsSeen Store.target (cpu.val, k) (callbacks.map Callback.stores) t)

theorem field_lt_of_mem_storesOf {callbacks : List Callback} {s : Store}
    (h : s ∈ storesOf callbacks) : s.field < softirqStat.length := by
  obtain ⟨stores, hstores, hs⟩ := List.mem_flatten.mp h
  obtain ⟨c, hc, rfl⟩ := List.mem_map.mp hstores
  obtain ⟨cpu, hcpu, hs⟩ := List.mem_flatMap.mp hs
  exact (mem_rowStores _ _ _ _ hs).2

theorem latest_take_storesOf (callbacks : List Callback) (cpu : Fin maxCpu) (k t : ℕ) :
    latest Store.target (cpu.val, k) ((storesOf callbacks).take t) =
      latest Store.target (cpu.val, k) (storesOf (seen callbacks cpu k t)) := by
  have hnodup : ∀ stores ∈ callbacks.map Callback.stores, (stores.map Store.target).Nodup := by
    intro stores hstores
    obtain ⟨c, hc, rfl⟩ := List.mem_map.mp hstores
    exact nodup_map_target_stores c
  rw [storesOf, latest_take_flatten Store.target _ hnodup, storesOf, seen, List.map_take]

/-- A load returns what the member holds after the callbacks seen, all of them finished. -/
theorem loadAt_eq (callbacks : List Callback) (t : ℕ) (cpu : Fin maxCpu) {k : ℕ} (hk : k < 26) :
    loadAt callbacks t cpu k =
      load natural softirqStat (bytesAfter (seen callbacks cpu k t)) cpu k := by
  have htake : ∀ s ∈ (storesOf callbacks).take t, s.field < softirqStat.length :=
    fun s hs => field_lt_of_mem_storesOf (List.mem_of_mem_take hs)
  have hseen : ∀ s ∈ storesOf (seen callbacks cpu k t), s.field < softirqStat.length :=
    fun s hs => field_lt_of_mem_storesOf hs
  rw [loadAt, load_packed, memoryAt, load_storeAll natural _ _ htake cpu hk,
    latest_take_storesOf, bytesAfter, ← storesOf, load_storeAll natural _ _ hseen cpu hk]

theorem unnamedAt_eq (callbacks : List Callback) (poll : Poll) (cpu : Fin maxCpu) :
    unnamedAt callbacks poll cpu =
      unnamed (tableAfter (seen callbacks cpu 0 (poll.check cpu)) cpu).cpuName := by
  rw [← rowAt_bytesAfter, unnamedAt, loadAt_eq callbacks _ cpu (by omega)]
  rfl

theorem counter_tornRow (callbacks : List Callback) (poll : Poll) (cpu : Fin maxCpu)
    (j : Fin 10) :
    counter (tornRow callbacks poll cpu) j =
      counter (tableAfter (seen callbacks cpu (16 + j) (poll.moment cpu (16 + j))) cpu) j := by
  rw [← rowAt_bytesAfter, tornRow, rowAt, counter_rowOf, counter_rowOf,
    loadAt_eq callbacks _ cpu (by omega)]

/-! ### A poll among callbacks -/

/-- It holds after the callbacks finished before, or after one of those that follow them. -/
def Between (done during : List Callback) (P : List Callback → Prop) : Prop :=
  ∃ n ≤ during.length, P (done ++ during.take n)

theorem between_of_seen (done during : List Callback) (cpu : Fin maxCpu) (k : ℕ) {t : ℕ}
    (h : (storesOf done).length ≤ t) {P : List Callback → Prop}
    (hseen : P (seen (done ++ during) cpu k t)) : Between done during P := by
  have hdone := length_le_roundsSeen Store.target (cpu.val, k) (done.map Callback.stores)
    (during.map Callback.stores) h
  have hall := roundsSeen_le_length Store.target (cpu.val, k)
    ((done ++ during).map Callback.stores) t
  rw [← List.map_append, List.length_map] at hdone
  rw [List.length_map, List.length_append] at hall
  rw [seen, List.take_append, List.take_of_length_le hdone] at hseen
  exact ⟨_, by omega, hseen⟩

/-- No load is made before so many stores. -/
def Poll.From (poll : Poll) (t : ℕ) : Prop :=
  ∀ cpu, t ≤ poll.check cpu ∧ ∀ k, t ≤ poll.moment cpu k

theorem getElem_published (callbacks : List Callback) (poll : Poll) {i : ℕ}
    (h : i < (published callbacks poll).length) :
    ((published callbacks poll)[i]).val = i := by
  have hfront : published callbacks poll <+: List.finRange maxCpu := List.takeWhile_prefix _
  rw [hfront.getElem h, List.getElem_finRange]
  rfl

theorem mem_published_iff (callbacks : List Callback) (poll : Poll) (cpu : Fin maxCpu) :
    cpu ∈ published callbacks poll ↔ cpu.val < (published callbacks poll).length := by
  constructor
  · intro h
    obtain ⟨i, hi, rfl⟩ := List.getElem_of_mem h
    rwa [getElem_published callbacks poll hi]
  · intro h
    have hcpu : (published callbacks poll)[cpu.val] = cpu :=
      Fin.ext (getElem_published callbacks poll h)
    exact hcpu ▸ List.getElem_mem h

theorem unnamedAt_of_mem_published {callbacks : List Callback} {poll : Poll}
    {cpu : Fin maxCpu} (h : cpu ∈ published callbacks poll) :
    unnamedAt callbacks poll cpu = false := by
  have hnamed := List.mem_takeWhile_imp h
  rwa [Bool.not_eq_true'] at hnamed

/-- The entries of a poll that begins after the callbacks in `done` and ends during or
after those in `during`. Whether a row was published, and each of its counters in the
precision of `float`, is as it was between two callbacks, not necessarily the same two for
all of them. -/
structure Torn (done during : List Callback) (entries : List SoftIrq) : Prop where
  labelled : ∀ cpu : Fin maxCpu, cpu.val < entries.length →
    Between done during (fun past => unnamed (tableAfter past cpu).cpuName = false)
  stopped : ∀ cpu : Fin maxCpu, cpu.val = entries.length →
    Between done during (fun past => unnamed (tableAfter past cpu).cpuName = true)
  counters : ∀ (cpu : Fin maxCpu) (h : cpu.val < entries.length) (j : Fin 10),
    Between done during (fun past =>
      entryCounter (entries[cpu.val]) j = toFloat (counter (tableAfter past cpu) j))

theorem torn_published (done during : List Callback) (poll : Poll)
    (hfrom : poll.From (storesOf done).length) :
    Torn done during ((published (done ++ during) poll).map
      (fun cpu => softIrqMessage (tornRow (done ++ during) poll cpu))) where
  labelled cpu h := by
    rw [List.length_map, ← mem_published_iff] at h
    have hnamed := unnamedAt_of_mem_published h
    rw [unnamedAt_eq] at hnamed
    exact between_of_seen done during cpu 0 (hfrom cpu).1 hnamed
  stopped cpu h := by
    rw [List.length_map] at h
    apply between_of_seen done during cpu 0 (hfrom cpu).1
    rw [← unnamedAt_eq]
    by_contra hnamed
    have hall : ∀ low ≤ cpu, (!unnamedAt (done ++ during) poll low) = true := by
      intro low hle
      rcases hle.lt_or_eq with hlt | rfl
      · have hmem : low ∈ published (done ++ during) poll := by
          rw [mem_published_iff]
          omega
        rw [unnamedAt_of_mem_published hmem]
        rfl
      · simpa using hnamed
    have hmem : cpu ∈ published (done ++ during) poll := (mem_takeWhile_finRange_iff _ cpu).mpr hall
    rw [mem_published_iff] at hmem
    omega
  counters cpu h j := by
    rw [List.length_map] at h
    have hcpu : (published (done ++ during) poll)[cpu.val] = cpu :=
      Fin.ext (getElem_published _ poll h)
    apply between_of_seen done during cpu (16 + j) ((hfrom cpu).2 _)
    rw [List.getElem_map, hcpu, entryCounter_softIrqMessage, counter_tornRow]

/-- However its loads fall among the stores of the callbacks, a poll appends entries each of
whose counters, before rounding, some callback has left: none finished before the poll is
overlooked. -/
theorem poll_torn (done during : List Callback) (poll : Poll)
    (hfrom : poll.From (storesOf done).length) (info : MonitorInfo) :
    ∃ entries, (updateOnce (done ++ during) poll info).softIrq = info.softIrq ++ entries ∧
      Torn done during entries :=
  ⟨_, softIrq_updateOnce _ poll info, torn_published done during poll hfrom⟩

/-- What every callback counts for one machine with one CPU. -/
def oneCpu (hi : UInt64) : Callback :=
  ⟨fun cpu => cpu = 0, fun _ => ⟨hi, 0, 0, 0, 0, 0, 0, 0, 0, 0⟩⟩

/-- A poll all of whose loads fall between the name and the counters of the second callback. -/
theorem poll_torn_within_row :
    ∃ entries, (updateOnce ([oneCpu 1] ++ [oneCpu 2])
        ⟨fun _ => (storesOf [oneCpu 1]).length + 5, fun _ _ => (storesOf [oneCpu 1]).length + 5⟩
        MonitorInfo.default).softIrq = MonitorInfo.default.softIrq ++ entries ∧
      Torn [oneCpu 1] [oneCpu 2] entries :=
  poll_torn [oneCpu 1] [oneCpu 2] _
    (fun _ => ⟨Nat.le_add_right _ _, fun _ => Nat.le_add_right _ _⟩) MonitorInfo.default

/-! ### No CPU changes its state -/

theorem unnamed_tableAfter (callbacks : List Callback) (c : Callback) (cpu : Fin maxCpu) :
    unnamed (tableAfter (callbacks ++ [c]) cpu).cpuName = !c.online cpu := by
  have hempty := unnamed_iff (tableAfter (callbacks ++ [c]) cpu).cpuName
  have hname := softirqStats.name_updateRow c.online c.kstat cpu (tableAfter callbacks cpu)
  have hlast : cString (tableAfter (callbacks ++ [c]) cpu).cpuName = if c.online cpu then
      cpuName cpu else "" := by
    rw [tableAfter_concat]
    exact hname
  rw [hlast] at hempty
  cases honline : c.online cpu with
  | true =>
    rw [honline, if_pos rfl] at hempty
    rw [Bool.not_true, ← Bool.not_eq_true, hempty]
    exact cpuName_ne_empty cpu
  | false =>
    rw [honline] at hempty
    exact hempty.mpr (by simp)

/-- As long as the callbacks around a poll find the same CPUs online, a poll publishes the
rows of those before the first one offline, like a poll between two callbacks. -/
theorem published_steady (past : List Callback) (last : Callback) (during : List Callback)
    (poll : Poll) (hfrom : poll.From (storesOf (past ++ [last])).length)
    (hsteady : ∀ c ∈ during, ∀ cpu : Fin maxCpu, c.online cpu = last.online cpu) :
    published (past ++ [last] ++ during) poll =
      (List.finRange maxCpu).takeWhile (fun cpu : Fin maxCpu => last.online cpu) := by
  have hunnamed : ∀ cpu : Fin maxCpu, ∀ more : List Callback, (∀ c ∈ more, c ∈ during) →
      unnamed (tableAfter (past ++ [last] ++ more) cpu).cpuName = !last.online cpu := by
    intro cpu more hmore
    induction more using List.reverseRecOn with
    | nil => rw [List.append_nil, unnamed_tableAfter]
    | append_singleton rest c =>
      rw [← List.append_assoc, unnamed_tableAfter, hsteady c (hmore c (by simp)) cpu]
  have hcheck : (fun cpu => !unnamedAt (past ++ [last] ++ during) poll cpu) =
      fun cpu : Fin maxCpu => last.online cpu := by
    funext cpu
    obtain ⟨n, hn, hseen⟩ := between_of_seen (past ++ [last]) during cpu 0 (hfrom cpu).1
      (P := fun callbacks => unnamedAt (past ++ [last] ++ during) poll cpu =
        unnamed (tableAfter callbacks cpu).cpuName) (unnamedAt_eq _ poll cpu)
    rw [hseen, hunnamed cpu _ (fun c hc => List.mem_of_mem_take hc), Bool.not_not]
  rw [published, hcheck]

/-! ### Polls one after the other -/

def count (stat : SoftirqCounts) : Fin 10 → UInt64 :=
  ![stat.hi, stat.timer, stat.netTx, stat.netRx, stat.block, stat.irqPoll, stat.tasklet,
    stat.sched, stat.hrtimer, stat.rcu]

/-- The kernel's counts never decrease. -/
def Nondecreasing (callbacks : List Callback) : Prop :=
  callbacks.Pairwise (fun c d => ∀ (cpu : Fin maxCpu) (j : Fin 10),
    (count (c.kstat cpu) j).toNat ≤ (count (d.kstat cpu) j).toNat)

theorem counter_updateSoftirqRow (online : ℕ → Bool) (kstat : ℕ → SoftirqCounts)
    (cpu : Fin maxCpu) (row : SoftirqRow) (j : Fin 10) :
    counter (updateSoftirqRow online kstat cpu row) j =
      if online cpu then count (kstat cpu) j else counter row j := by
  unfold updateSoftirqRow
  split
  · rfl
  · rfl

theorem counter_tableAfter_concat (callbacks : List Callback) (c : Callback) (cpu : Fin maxCpu)
    (j : Fin 10) :
    counter (tableAfter (callbacks ++ [c]) cpu) j =
      if c.online cpu then count (c.kstat cpu) j else counter (tableAfter callbacks cpu) j := by
  rw [tableAfter_concat]
  exact counter_updateSoftirqRow c.online c.kstat cpu _ j

/-- No counter in the table exceeds what is counted later. -/
theorem counter_tableAfter_le (callbacks : List Callback) (c : Callback)
    (h : Nondecreasing (callbacks ++ [c])) (cpu : Fin maxCpu) (j : Fin 10) :
    (counter (tableAfter callbacks cpu) j).toNat ≤ (count (c.kstat cpu) j).toNat := by
  induction callbacks using List.reverseRecOn with
  | nil =>
    have hzero : counter (tableAfter [] cpu) j = 0 := by
      fin_cases j <;> rfl
    rw [hzero]
    exact Nat.zero_le _
  | append_singleton callbacks d ih =>
    rw [counter_tableAfter_concat]
    split
    · exact (List.pairwise_append.mp h).2.2 d (by simp) c (by simp) cpu j
    · apply ih
      rw [Nondecreasing, List.append_assoc] at h
      exact h.sublist (List.Sublist.append_left (by simp) callbacks)

theorem counter_tableAfter_append (callbacks later : List Callback)
    (h : Nondecreasing (callbacks ++ later)) (cpu : Fin maxCpu) (j : Fin 10) :
    (counter (tableAfter callbacks cpu) j).toNat ≤
      (counter (tableAfter (callbacks ++ later) cpu) j).toNat := by
  induction later using List.reverseRecOn with
  | nil => rw [List.append_nil]
  | append_singleton later c ih =>
    rw [← List.append_assoc] at h ⊢
    have hbefore : Nondecreasing (callbacks ++ later) := (List.pairwise_append.mp h).1
    rw [counter_tableAfter_concat]
    split
    · exact (ih hbefore).trans (counter_tableAfter_le _ c h cpu j)
    · exact ih hbefore

theorem counter_seen_mono (callbacks : List Callback) (h : Nondecreasing callbacks)
    (cpu : Fin maxCpu) (k : ℕ) {t u : ℕ} (htu : t ≤ u) (j : Fin 10) :
    (counter (tableAfter (seen callbacks cpu k t) cpu) j).toNat ≤
      (counter (tableAfter (seen callbacks cpu k u) cpu) j).toNat := by
  have hle := roundsSeen_mono Store.target (cpu.val, k) (callbacks.map Callback.stores) htu
  obtain ⟨later, hlater⟩ : seen callbacks cpu k t <+: seen callbacks cpu k u :=
    List.take_prefix_take_left hle
  rw [← hlater]
  apply counter_tableAfter_append
  rw [hlater]
  exact h.sublist (List.take_sublist _ _)

/-- Every load of one poll is made before the same load of the other. -/
def Poll.Before (p q : Poll) : Prop := ∀ cpu k, p.moment cpu k ≤ q.moment cpu k

/-- Where both polls have an entry, no counter is smaller in the later one. -/
def NoRegress (older newer : List SoftIrq) : Prop :=
  ∀ (i : ℕ) (hi : i < older.length) (hi' : i < newer.length) (j : Fin 10),
    entryCounter older[i] j ≤ entryCounter newer[i] j

/-- What a poll adds to a message. -/
def entriesOf (callbacks : List Callback) (poll : Poll) : List SoftIrq :=
  (updateOnce callbacks poll MonitorInfo.default).softIrq

theorem entriesOf_eq (callbacks : List Callback) (poll : Poll) :
    entriesOf callbacks poll =
      (published callbacks poll).map (fun cpu => softIrqMessage (tornRow callbacks poll cpu)) :=
  softIrq_updateOnce callbacks poll MonitorInfo.default

/-- The entry at a position is that of the CPU with this id. -/
theorem entryCounter_entriesOf (callbacks : List Callback) (poll : Poll) {i : ℕ}
    (h : i < (entriesOf callbacks poll).length) (hcpu : i < maxCpu) (j : Fin 10) :
    entryCounter (entriesOf callbacks poll)[i] j =
      toFloat (counter (tornRow callbacks poll ⟨i, hcpu⟩) j) := by
  have hlength : i < (published callbacks poll).length := by
    rwa [entriesOf_eq, List.length_map] at h
  have hid : (published callbacks poll)[i] = ⟨i, hcpu⟩ :=
    Fin.ext (getElem_published callbacks poll hlength)
  simp only [entriesOf_eq, List.getElem_map, hid, entryCounter_softIrqMessage]

theorem noRegress_of_before (callbacks : List Callback) (h : Nondecreasing callbacks)
    {p q : Poll} (hbefore : p.Before q) :
    NoRegress (entriesOf callbacks p) (entriesOf callbacks q) := by
  intro i hi hi' j
  have hcpu : i < maxCpu := by
    have hlength := hi
    rw [entriesOf_eq, List.length_map] at hlength
    have hfront : published callbacks p <+: List.finRange maxCpu := List.takeWhile_prefix _
    have hle := hfront.length_le
    rw [List.length_finRange] at hle
    omega
  have hmono := counter_seen_mono callbacks h ⟨i, hcpu⟩ (16 + j) (hbefore ⟨i, hcpu⟩ (16 + j)) j
  rw [entryCounter_entriesOf callbacks p hi hcpu, entryCounter_entriesOf callbacks q hi' hcpu,
    counter_tornRow, counter_tornRow]
  exact_mod_cast toFloat_mono hmono

/-- Over any sequence of polls, wherever their loads fall among the stores of the callbacks,
no published counter is smaller than one published for the same CPU before. -/
theorem polls_never_regress (callbacks : List Callback) (h : Nondecreasing callbacks)
    (polls : List Poll) (horder : polls.Pairwise Poll.Before) :
    (polls.map (entriesOf callbacks)).Pairwise NoRegress := by
  rw [List.pairwise_map]
  exact horder.imp (fun hbefore => noRegress_of_before callbacks h hbefore)

/-- The second of two polls is overtaken by a callback. -/
theorem polls_never_regress_twice :
    ([entriesOf [oneCpu 1, oneCpu 2] ⟨fun _ => 20, fun _ _ => 30⟩,
      entriesOf [oneCpu 1, oneCpu 2] ⟨fun _ => 140, fun _ k => 140 + k⟩] :
        List (List SoftIrq)).Pairwise NoRegress :=
  polls_never_regress [oneCpu 1, oneCpu 2]
    (by simp [Nondecreasing, oneCpu, count]; decide)
    [⟨fun _ => 20, fun _ _ => 30⟩, ⟨fun _ => 140, fun _ k => 140 + k⟩]
    (by simp [Poll.Before]; omega)

end NodeMonitor.TornReads
