import NodeMonitor.Hotplug
import NodeMonitor.PageMapping
import NodeMonitor.StructLayouts

/-!
The records the kernel modules share with the agent, byte by byte. A module leaves the
layout of its records to the compiler, the agent's header declares the same members packed;
neither has gaps. The soft interrupt table is followed through the single stores of its
timer's callback: what the agent's declaration makes of the bytes after any history is the
table of rows that the monitors are modelled on.
-/

namespace NodeMonitor.SharedRecords

open CharBuffers Hotplug KernelTables StructLayouts

def charField : Field := ⟨1, 1⟩

/-- `float`. -/
def floatField : Field := ⟨4, 4⟩

/-- `unsigned long`, and `uint64_t` in the agent. -/
def wordField : Field := ⟨8, 8⟩

/-- `struct softirq_stat`, with a member for every character of the name. -/
def softirqStat : List Field := List.replicate 16 charField ++ List.replicate 10 wordField

/-- `struct cpu_stat`. -/
def cpuStat : List Field := List.replicate 16 charField ++ List.replicate 10 floatField

/-- `struct cpu_load`. -/
def cpuLoad : List Field := List.replicate 3 floatField

/-- Neither side leaves gaps in any of the records. -/
theorem unpadded_records : ∀ fields ∈ [softirqStat, cpuStat, cpuLoad], unpadded fields = true := by
  decide

/-- The agent asks for as many bytes as the modules allocate. -/
theorem structSize_packed :
    structSize packed softirqStat * maxCpu = PageMapping.Device.tableSize .cpuSoftirqMonitor ∧
      structSize packed cpuStat * maxCpu = PageMapping.Device.tableSize .cpuStatMonitor := by
  decide

/-! ### The stores of a callback -/

/-- The bytes `snprintf` writes into a name. -/
def nameValues (text : List Char) : List ℕ := (text.take 15 ++ [nul]).map Char.toNat

/-- The counters of a row, in the order in which they are stored. -/
def counters (stat : SoftirqCounts) : List ℕ :=
  [stat.hi.toNat, stat.timer.toNat, stat.netTx.toNat, stat.netRx.toNat, stat.block.toNat,
    stat.irqPoll.toNat, stat.tasklet.toNat, stat.sched.toNat, stat.hrtimer.toNat, stat.rcu.toNat]

/-- The stores of the body of the loop in `update_softirq_stats`. -/
def rowStores (online : ℕ → Bool) (kstat : ℕ → SoftirqCounts) (cpu : ℕ) : List Store :=
  if online cpu then
    fill cpu 0 (nameValues (cpuLabel cpu)) ++ fill cpu 16 (counters (kstat cpu))
  else fill cpu 0 [nul.toNat]

def updateSoftirqStats (online : ℕ → Bool) (kstat : ℕ → SoftirqCounts) : List Store :=
  (List.range maxCpu).flatMap (rowStores online kstat)

/-- A row from the values of its members. -/
def rowOf (value : ℕ → ℕ) : SoftirqRow where
  cpuName j := Char.ofNat (value j)
  hi := UInt64.ofNat (value 16)
  timer := UInt64.ofNat (value 17)
  netTx := UInt64.ofNat (value 18)
  netRx := UInt64.ofNat (value 19)
  block := UInt64.ofNat (value 20)
  irqPoll := UInt64.ofNat (value 21)
  tasklet := UInt64.ofNat (value 22)
  sched := UInt64.ofNat (value 23)
  hrtimer := UInt64.ofNat (value 24)
  rcu := UInt64.ofNat (value 25)

/-- The row a declaration makes of the bytes. -/
def rowAt (align : Field → ℕ) (m : Memory) (cpu : ℕ) : SoftirqRow :=
  rowOf (load align softirqStat m cpu)

theorem length_nameValues (cpu : Fin maxCpu) :
    (nameValues (cpuLabel cpu)).length = (cpuLabel cpu).length + 1 := by
  have hfits := cpuLabel_length_lt cpu
  simp only [nameValues, List.length_map, List.length_append, List.length_take,
    List.length_singleton]
  omega

theorem length_softirqStat : softirqStat.length = 26 := rfl

theorem length_counters (stat : SoftirqCounts) : (counters stat).length = 10 := rfl

theorem fieldSize_name {k : ℕ} (h : k < 16) : fieldSize softirqStat k = 1 := by
  rw [fieldSize, softirqStat, List.getElem?_append_left (by rwa [List.length_replicate]),
    List.getElem?_replicate_of_lt h]
  rfl

theorem fieldSize_counter {k : ℕ} (hle : 16 ≤ k) (h : k < 26) : fieldSize softirqStat k = 8 := by
  rw [fieldSize, softirqStat, List.getElem?_append_right (by rwa [List.length_replicate]),
    List.length_replicate, List.getElem?_replicate_of_lt (by omega)]
  rfl

/-! ### One callback -/

theorem mem_rowStores (online : ℕ → Bool) (kstat : ℕ → SoftirqCounts) (cpu : ℕ) (s : Store)
    (hs : s ∈ rowStores online kstat cpu) : s.row = cpu ∧ s.field < softirqStat.length := by
  have hlength : (nameValues (cpuLabel cpu)).length ≤ 16 := by
    simp only [nameValues, List.length_map, List.length_append, List.length_take,
      List.length_singleton]
    omega
  rw [length_softirqStat]
  unfold rowStores at hs
  split at hs
  · rcases List.mem_append.mp hs with hs | hs
    · obtain ⟨hrow, _, hlt⟩ := mem_fill hs
      exact ⟨hrow, by omega⟩
    · obtain ⟨hrow, _, hlt⟩ := mem_fill hs
      rw [length_counters] at hlt
      exact ⟨hrow, by omega⟩
  · obtain ⟨hrow, _, hlt⟩ := mem_fill hs
    rw [List.length_singleton] at hlt
    exact ⟨hrow, by omega⟩

/-- The characters of a name after the row of a CPU that is online. -/
theorem load_name (align : Field → ℕ) (m : Memory) {online : ℕ → Bool} (cpu : Fin maxCpu)
    (honline : online cpu = true) (kstat : ℕ → SoftirqCounts) {k : ℕ} (hk : k < 16) :
    load align softirqStat (storeAll align softirqStat m (rowStores online kstat cpu)) cpu k =
      if k < (cpuLabel cpu).length + 1 then (nameValues (cpuLabel cpu)).getD k 0 % 256
      else load align softirqStat m cpu k := by
  have hlength := length_nameValues cpu
  have hfits := cpuLabel_length_lt cpu
  have hk26 : k < softirqStat.length := by
    rw [length_softirqStat]
    omega
  rw [rowStores, if_pos honline, storeAll_append,
    load_fill align _ _ hk26 (by rw [length_counters, length_softirqStat]), if_neg (by omega),
    load_fill align _ _ hk26 (by rw [hlength, length_softirqStat]; omega), hlength,
    fieldSize_name hk]
  simp only [Nat.zero_le, true_and, Nat.zero_add, Nat.sub_zero, pow_one]

/-- The counters of a row after the row of a CPU that is online. -/
theorem load_counter (align : Field → ℕ) (m : Memory) {online : ℕ → Bool} (cpu : ℕ)
    (honline : online cpu = true) (kstat : ℕ → SoftirqCounts) {j : ℕ} (hj : j < 10) :
    load align softirqStat (storeAll align softirqStat m (rowStores online kstat cpu)) cpu
        (16 + j) = (counters (kstat cpu)).getD j 0 % 2 ^ 64 := by
  have hk26 : 16 + j < softirqStat.length := by
    rw [length_softirqStat]
    omega
  rw [rowStores, if_pos honline, storeAll_append,
    load_fill align _ _ hk26 (by rw [length_counters, length_softirqStat]),
    if_pos (by rw [length_counters]; omega), fieldSize_counter (by omega) (by omega),
    Nat.add_sub_cancel_left]
  rfl

theorem load_offline (align : Field → ℕ) (m : Memory) {online : ℕ → Bool} (cpu : ℕ)
    (hoffline : online cpu = false) (kstat : ℕ → SoftirqCounts) {k : ℕ} (hk : k < 26) :
    load align softirqStat (storeAll align softirqStat m (rowStores online kstat cpu)) cpu k =
      if k = 0 then 0 else load align softirqStat m cpu k := by
  rw [rowStores, if_neg (by simp [hoffline]), load_fill align m _ hk (by decide)]
  by_cases hzero : k = 0
  · subst hzero
    rfl
  · rw [if_neg (by simp [hzero]), if_neg hzero]

theorem toNat_lt_of_mem_cpuLabel {cpu : ℕ} {c : Char} (h : c ∈ cpuLabel cpu) : c.toNat < 256 := by
  rw [cpuLabel, List.mem_append] at h
  rcases h with hletter | hdigit
  · simp only [List.mem_cons, List.not_mem_nil, or_false] at hletter
    rcases hletter with rfl | rfl | rfl
    · decide
    · decide
    · decide
  · have hdigit := Nat.isDigit_of_mem_toDigits (by omega) (by omega) hdigit
    have hle := (Char.isDigit_iff_toNat.mp hdigit).2
    have hnine : '9'.toNat = 57 := rfl
    omega

/-- The characters of a name fit a byte each. -/
theorem ofNat_nameValues (cpu : Fin maxCpu) (k : ℕ) :
    Char.ofNat ((nameValues (cpuLabel cpu)).getD k 0 % 256) = (cpuLabel cpu).getD k nul := by
  have hfits := cpuLabel_length_lt cpu
  have hvalue : (nameValues (cpuLabel cpu)).getD k 0 = ((cpuLabel cpu).getD k nul).toNat := by
    rw [nameValues, List.take_of_length_le (by omega)]
    change ((cpuLabel cpu ++ [nul]).map Char.toNat).getD k nul.toNat = _
    rw [List.getD_map]
    congr 1
    rcases Nat.lt_or_ge k (cpuLabel cpu).length with hlt | hge
    · rw [List.getD_append _ _ _ _ hlt]
    · rw [List.getD_append_right _ _ _ _ hge, List.getD_eq_default _ _ hge]
      cases k - (cpuLabel cpu).length with
      | zero => rfl
      | succ j => rfl
  have hbyte : ((cpuLabel cpu).getD k nul).toNat < 256 := by
    rcases Nat.lt_or_ge k (cpuLabel cpu).length with hlt | hge
    · rw [List.getD_eq_getElem _ _ hlt]
      exact toNat_lt_of_mem_cpuLabel (List.getElem_mem hlt)
    · rw [List.getD_eq_default _ _ hge]
      decide
  rw [hvalue, Nat.mod_eq_of_lt hbyte, Char.ofNat_toNat]

theorem ofNat_mod (v : UInt64) : UInt64.ofNat (v.toNat % 2 ^ 64) = v := by
  rw [Nat.mod_eq_of_lt v.toNat_lt, UInt64.ofNat_toNat]

theorem rowOf_congr {value value' : ℕ → ℕ} (h : ∀ k < 26, value k = value' k) :
    rowOf value = rowOf value' := by
  have hname : (rowOf value).cpuName = (rowOf value').cpuName := by
    funext j
    exact congrArg Char.ofNat (h j (by omega))
  have hword : ∀ k < 26, UInt64.ofNat (value k) = UInt64.ofNat (value' k) :=
    fun k hk => congrArg UInt64.ofNat (h k hk)
  simp only [rowOf, SoftirqRow.mk.injEq]
  exact ⟨hname, hword 16 (by omega), hword 17 (by omega), hword 18 (by omega),
    hword 19 (by omega), hword 20 (by omega), hword 21 (by omega), hword 22 (by omega),
    hword 23 (by omega), hword 24 (by omega), hword 25 (by omega)⟩

/-- The body of the loop for a CPU that is online. -/
theorem rowAt_rowStores_online (m : Memory) {online : ℕ → Bool} (kstat : ℕ → SoftirqCounts)
    (cpu : Fin maxCpu) (honline : online cpu = true) :
    rowAt natural (storeAll natural softirqStat m (rowStores online kstat cpu)) cpu =
      updateSoftirqRow online kstat cpu (rowAt natural m cpu) := by
  have hfits := cpuLabel_length_lt cpu
  have hname : (rowAt natural (storeAll natural softirqStat m (rowStores online kstat cpu))
      cpu).cpuName = snprintf (rowAt natural m cpu).cpuName (cpuLabel cpu) := by
    funext j
    simp only [rowAt, rowOf, snprintf, load_name natural m cpu honline kstat j.isLt,
      show min (cpuLabel cpu).length (16 - 1) = (cpuLabel cpu).length by omega]
    by_cases hlt : j.val < (cpuLabel cpu).length
    · rw [if_pos (by omega), if_pos hlt, ofNat_nameValues]
    · rw [if_neg hlt]
      by_cases heq : j.val = (cpuLabel cpu).length
      · rw [if_pos (by omega), if_pos heq, ofNat_nameValues, List.getD_eq_default _ _ heq.ge]
      · rw [if_neg (by omega), if_neg heq]
  have hword : ∀ j < 10, ∀ v : UInt64, (counters (kstat cpu)).getD j 0 = v.toNat →
      UInt64.ofNat (load natural softirqStat
        (storeAll natural softirqStat m (rowStores online kstat cpu)) cpu (16 + j)) = v := by
    intro j hj v hv
    rw [load_counter natural m cpu honline kstat hj, hv, ofNat_mod]
  rw [updateSoftirqRow, if_pos honline, ← hname]
  simp only [rowAt, rowOf, SoftirqRow.mk.injEq]
  exact ⟨trivial, hword 0 (by omega) _ rfl, hword 1 (by omega) _ rfl, hword 2 (by omega) _ rfl,
    hword 3 (by omega) _ rfl, hword 4 (by omega) _ rfl, hword 5 (by omega) _ rfl,
    hword 6 (by omega) _ rfl, hword 7 (by omega) _ rfl, hword 8 (by omega) _ rfl,
    hword 9 (by omega) _ rfl⟩

/-- The body of the loop for a CPU that is offline. -/
theorem rowAt_rowStores_offline (m : Memory) {online : ℕ → Bool} (kstat : ℕ → SoftirqCounts)
    (cpu : Fin maxCpu) (hoffline : online cpu = false) :
    rowAt natural (storeAll natural softirqStat m (rowStores online kstat cpu)) cpu =
      updateSoftirqRow online kstat cpu (rowAt natural m cpu) := by
  have hload : ∀ k < 26, load natural softirqStat
      (storeAll natural softirqStat m (rowStores online kstat cpu)) cpu k =
        if k = 0 then 0 else load natural softirqStat m cpu k :=
    fun k hk => load_offline natural m cpu hoffline kstat hk
  have hname : ∀ j : Fin 16, Char.ofNat (if j.val = 0 then 0 else
      load natural softirqStat m cpu j) = clear (rowAt natural m cpu).cpuName j := by
    intro j
    unfold clear
    by_cases hzero : j = 0
    · subst hzero
      rw [Function.update_self]
      rfl
    · have hval : ¬ j.val = 0 := fun h => hzero (Fin.ext h)
      rw [Function.update_of_ne hzero, if_neg hval]
      rfl
  rw [updateSoftirqRow, if_neg (by simp [hoffline]), rowAt, rowOf_congr hload]
  simp only [rowOf, hname]
  rfl

/-- The body of the loop, through the bytes. -/
theorem rowAt_rowStores (m : Memory) (online : ℕ → Bool) (kstat : ℕ → SoftirqCounts)
    (cpu : Fin maxCpu) :
    rowAt natural (storeAll natural softirqStat m (rowStores online kstat cpu)) cpu =
      updateSoftirqRow online kstat cpu (rowAt natural m cpu) := by
  cases h : online cpu with
  | true => exact rowAt_rowStores_online m kstat cpu h
  | false => exact rowAt_rowStores_offline m kstat cpu h

theorem rowAt_updateSoftirqStats (m : Memory) (online : ℕ → Bool) (kstat : ℕ → SoftirqCounts)
    (cpu : Fin maxCpu) :
    rowAt natural (storeAll natural softirqStat m (updateSoftirqStats online kstat)) cpu =
      updateSoftirqRow online kstat cpu (rowAt natural m cpu) := by
  rw [← rowAt_rowStores, rowAt, rowAt]
  apply rowOf_congr
  intro k hk
  rw [updateSoftirqStats, load_rows natural m maxCpu _ (mem_rowStores online kstat) cpu hk,
    if_pos cpu.isLt]

/-- The packed declaration finds every member where the compiler has put it. -/
theorem load_packed (m : Memory) (cpu k : ℕ) :
    load packed softirqStat m cpu k = load natural softirqStat m cpu k := by
  have haddress := (address_natural (unpadded_records softirqStat (by simp)) cpu k).2
  rw [load, load, haddress]

/-! ### Whole histories -/

/-- What one callback finds: the CPUs online and the kernel's counts, each as of the
moment the loop comes to it. -/
structure Callback where
  online : ℕ → Bool
  kstat : ℕ → SoftirqCounts

def Callback.stores (c : Callback) : List Store := updateSoftirqStats c.online c.kstat

/-- `vzalloc` leaves every byte zero. -/
def zeroed : Memory := fun _ => 0

def bytesAfter (callbacks : List Callback) : Memory :=
  storeAll natural softirqStat zeroed (callbacks.map Callback.stores).flatten

def tableAfter (callbacks : List Callback) : Table SoftirqRow :=
  callbacks.foldl (fun table c => softirqStats.update c.online c.kstat table)
    (fun _ => softirqStats.zeroed)

theorem tableAfter_concat (callbacks : List Callback) (c : Callback) :
    tableAfter (callbacks ++ [c]) =
      softirqStats.update c.online c.kstat (tableAfter callbacks) := by
  simp only [tableAfter, List.foldl_append, List.foldl_cons, List.foldl_nil]

theorem load_zeroed (align : Field → ℕ) (fields : List Field) (row k : ℕ) :
    load align fields zeroed row k = 0 := by
  have hbytes := word_bytes zeroed (address align fields row k) 0 (fieldSize fields k)
    (fun j _ => by rw [byteOf, Nat.zero_div]; rfl)
  rw [load, hbytes, Nat.zero_mod]

theorem rowAt_zeroed (cpu : ℕ) : rowAt natural zeroed cpu = softirqStats.zeroed := by
  rw [rowAt, rowOf_congr (fun k _ => load_zeroed natural softirqStat cpu k)]
  rfl

theorem rowAt_bytesAfter (callbacks : List Callback) (cpu : Fin maxCpu) :
    rowAt natural (bytesAfter callbacks) cpu = tableAfter callbacks cpu := by
  induction callbacks using List.reverseRecOn with
  | nil => exact rowAt_zeroed cpu
  | append_singleton callbacks c ih =>
    rw [bytesAfter, List.map_append, List.flatten_append, storeAll_append, ← bytesAfter,
      List.map_singleton, List.flatten_singleton, Callback.stores, rowAt_updateSoftirqStats, ih,
      tableAfter_concat]
    rfl

/-- The callbacks of a history. -/
def callbacksOf (online : ℕ → Bool) : List (Event SoftirqCounts) → List Callback
  | [] => []
  | .hotplug cpu up :: rest => callbacksOf (Function.update online cpu up) rest
  | .timer counts :: rest => ⟨online, counts⟩ :: callbacksOf online rest
  | .poll :: rest => callbacksOf online rest

theorem foldl_callbacksOf (online : ℕ → Bool) (table : Table SoftirqRow)
    (events : List (Event SoftirqCounts)) :
    (callbacksOf online events).foldl
        (fun table c => softirqStats.update c.online c.kstat table) table =
      (events.foldl (step softirqStats) ⟨online, table⟩).table := by
  induction events generalizing online table with
  | nil => rfl
  | cons e rest ih =>
    cases e with
    | hotplug cpu up => exact ih (Function.update online cpu up) table
    | timer counts => exact ih online (softirqStats.update online counts table)
    | poll => exact ih online table

/-- After every history the agent's packed declaration makes of the bytes the kernel module
has stored exactly the table of rows. -/
theorem agent_reads_kernel_table (online : ℕ → Bool) (events : List (Event SoftirqCounts)) :
    (fun cpu : Fin maxCpu => rowAt packed (bytesAfter (callbacksOf online events)) cpu) =
      (run softirqStats online events).table := by
  funext cpu
  rw [rowAt, rowOf_congr (fun k _ => load_packed _ cpu k), ← rowAt, rowAt_bytesAfter, tableAfter,
    foldl_callbacksOf]
  rfl

end NodeMonitor.SharedRecords
