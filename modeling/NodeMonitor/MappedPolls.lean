import NodeMonitor.SharedRecords
import NodeMonitor.SoftirqMonitor

/-!
The soft interrupt table all the way from the kernel module to a message. The module's
stores go byte by byte to the frames of its buffer, the agent maps frames counted from the
one the handler derives, and reads rows from them by its own declaration. Where the frames
of the buffer follow each other, the agent's poll is one of the table of rows.
-/

namespace NodeMonitor.MappedPolls

open Hotplug KernelTables KeyedMaps MemoryViews Messages PageMapping SharedRecords StructLayouts

/-- The size of the table in bytes. -/
abbrev size : ℕ := Device.tableSize .cpuSoftirqMonitor

/-- Where a store begins. -/
def offsetOf (s : Store) : ℕ := address natural softirqStat s.row s.field

/-- The bytes a store writes. -/
def byteWrites (s : Store) : List (Fin size × UInt8) :=
  (List.range (fieldSize softirqStat s.field)).filterMap (fun j =>
    if h : offsetOf s + j < size then some (⟨offsetOf s + j, h⟩, byteOf s.value j) else none)

/-- The physical memory after stores to the table. -/
def physical (buffer : Buffer size) (before : PhysicalMemory) (stores : List Store) :
    PhysicalMemory :=
  kernelWrites buffer before (stores.flatMap byteWrites)

/-- The rows the agent reads through a mapping. -/
def mappedTable (mapping : UserMapping) (m : PhysicalMemory) : Table SoftirqRow :=
  fun cpu => rowAt packed (fun o => (userRead mapping m o).getD 0) cpu

/-- One poll of `CpuSoftIrqMonitor::UpdateOnce`, in the area `mmap` has found for it. -/
def updateOnce (base : UInt64) (buffer : Buffer size) (vma : Vma) (m : PhysicalMemory)
    (info : MonitorInfo) : MonitorInfo :=
  match cpuSoftirqMonitorMmap base buffer vma with
  | .error _ => SoftirqMonitor.updateOnce none info
  | .ok mapping => SoftirqMonitor.updateOnce (some (mappedTable mapping m)) info

/-! ### Bytes written and stores made -/

theorem mem_byteWrites_iff (s : Store) (o : Fin size) (b : UInt8) :
    (o, b) ∈ byteWrites s ↔ ∃ j < fieldSize softirqStat s.field,
      o.val = offsetOf s + j ∧ b = byteOf s.value j := by
  simp only [byteWrites, List.mem_filterMap, List.mem_range]
  constructor
  · intro h
    obtain ⟨j, hj, hwrite⟩ := h
    split at hwrite
    · obtain ⟨ho, hb⟩ := Prod.mk.inj (Option.some.inj hwrite)
      exact ⟨j, hj, by rw [← ho], hb.symm⟩
    · exact absurd hwrite (by simp)
  · intro h
    obtain ⟨j, hj, ho, rfl⟩ := h
    refine ⟨j, hj, ?_⟩
    rw [dif_pos (by rw [← ho]; exact o.isLt)]
    exact congrArg some (Prod.ext (Fin.ext ho.symm) rfl)

/-- The byte a store writes at an offset, if it writes one there. -/
theorem latest_byteWrites (s : Store) (o : Fin size) :
    (latest Prod.fst o (byteWrites s)).map Prod.snd =
      if offsetOf s ≤ o.val ∧ o.val < offsetOf s + fieldSize softirqStat s.field then
        some (byteOf s.value (o.val - offsetOf s))
      else none := by
  cases hlatest : latest Prod.fst o (byteWrites s) with
  | none =>
    rw [latest_eq_none_iff] at hlatest
    rw [if_neg, Option.map_none]
    intro hin
    refine hlatest (o, byteOf s.value (o.val - offsetOf s)) ?_ rfl
    exact (mem_byteWrites_iff s o _).mpr ⟨o.val - offsetOf s, by omega, by omega, rfl⟩
  | some w =>
    obtain ⟨hmem, hoffset⟩ := latest_mem Prod.fst hlatest
    obtain ⟨o', b⟩ := w
    obtain rfl : o' = o := hoffset
    obtain ⟨j, hj, ho, rfl⟩ := (mem_byteWrites_iff s o' b).mp hmem
    have hj' : o'.val - offsetOf s = j := by omega
    rw [if_pos (by omega), hj', Option.map_some]

/-- The byte last written at an offset is the one there after the stores. -/
theorem lastWritten_byteWrites (stores : List Store) (o : Fin size) :
    lastWritten 0 (stores.flatMap byteWrites) o = storeAll natural softirqStat zeroed stores o := by
  induction stores using List.reverseRecOn with
  | nil => rfl
  | append_singleton stores s ih =>
    rw [List.flatMap_append, List.flatMap_singleton, lastWritten, latest_append,
      storeAll_append]
    change _ = if offsetOf s ≤ o.val ∧ o.val < offsetOf s + fieldSize softirqStat s.field then
      byteOf s.value (o.val - offsetOf s) else storeAll natural softirqStat zeroed stores o
    have hlast := latest_byteWrites s o
    split at hlast
    · rename_i hin
      rw [if_pos hin]
      obtain ⟨w, hw, hbyte⟩ := Option.map_eq_some_iff.mp hlast
      rw [hw, Option.some_or, Option.map_some, Option.getD_some, hbyte]
    · rename_i hout
      rw [if_neg hout, Option.map_eq_none_iff.mp hlast, Option.none_or, ← ih, lastWritten]

/-! ### The agent's side -/

/-- The members of the agent's rows lie in the table. -/
theorem address_add_fieldSize_le (cpu : Fin maxCpu) {k : ℕ} (hk : k < softirqStat.length) :
    address packed softirqStat cpu k + fieldSize softirqStat k ≤ size := by
  have hend := offset_add_fieldSize_le_structSize packed hk
  have hsize : structSize packed softirqStat * maxCpu = size := structSize_packed.1
  have hrows := Nat.mul_le_mul_right (structSize packed softirqStat) (Nat.succ_le_of_lt cpu.isLt)
  rw [Nat.succ_mul, Nat.mul_comm maxCpu, hsize] at hrows
  unfold address
  omega

theorem rowAt_packed_congr {m m' : Memory} (h : ∀ o < size, m o = m' o) (cpu : Fin maxCpu) :
    rowAt packed m cpu = rowAt packed m' cpu := by
  apply rowOf_congr
  intro k hk
  have hend := address_add_fieldSize_le cpu hk
  apply word_congr
  intro a hle hlt
  exact h a (by omega)

/-- The table the agent reads in frames that follow each other. -/
theorem mappedTable_physical (base : UInt64) (buffer : Buffer size)
    (hframes : FollowsFirstFrame base buffer) (before : PhysicalMemory)
    (callbacks : List Callback) :
    mappedTable (remapPfnRange (firstFrame base buffer) size)
        (physical buffer before (callbacks.map Callback.stores).flatten) =
      tableAfter callbacks := by
  have hsees := seesTable_of_followsFirstFrame base buffer hframes
  funext cpu
  rw [← rowAt_bytesAfter, rowAt, ← rowOf_congr (fun k _ => load_packed _ cpu k)]
  apply rowAt_packed_congr
  intro o ho
  rw [physical, hsees before _ ⟨o, ho⟩, Option.getD_some, lastWritten_byteWrites]
  rfl

/-- `mmap` finds an area of whole pages for the size the agent asks for. -/
def Area (vma : Vma) : Prop :=
  (vma.vmEnd - vma.vmStart).toNat =
    pageCount (structSize packed softirqStat * maxCpu) * pageSize

theorem mmap_of_area (base : UInt64) (buffer : Buffer size) {vma : Vma} (h : Area vma) :
    cpuSoftirqMonitorMmap base buffer vma =
      .ok (remapPfnRange (firstFrame base buffer) size) := by
  have hlarge : ¬ vma.vmEnd - vma.vmStart < UInt64.ofNat size := by
    rw [UInt64.lt_iff_toNat_lt, h, structSize_packed.1]
    decide
  rw [cpuSoftirqMonitorMmap, monitorMmap, if_neg hlarge]

/-- If the frames of the module's buffer follow each other from the one derived from its
address on, then after every history the agent's poll through its mapping publishes what a
poll of the rows of the table publishes. -/
theorem mapped_poll (base : UInt64) (buffer : Buffer size) (vma : Vma) (harea : Area vma)
    (hframes : FollowsFirstFrame base buffer) (before : PhysicalMemory) (online : ℕ → Bool)
    (events : List (Event SoftirqCounts)) (info : MonitorInfo) :
    updateOnce base buffer vma (physical buffer before
        ((callbacksOf online events).map Callback.stores).flatten) info =
      SoftirqMonitor.updateOnce (some (run softirqStats online events).table) info := by
  have htable : tableAfter (callbacksOf online events) = (run softirqStats online events).table :=
    foldl_callbacksOf online _ events
  rw [updateOnce, mmap_of_area base buffer harea]
  simp only [mappedTable_physical base buffer hframes, htable]

/-- Three pages in the linear map, after one callback on a machine with two CPUs. -/
theorem mapped_poll_contiguous :
    let buffer : Buffer size :=
      ⟨0xffff8880003e8000, fun k => 1000 + k, by decide, fun _ _ _ _ h => Nat.add_left_cancel h⟩
    let counts : ℕ → SoftirqCounts := fun _ => ⟨1, 2, 3, 4, 5, 6, 7, 8, 9, 10⟩
    updateOnce 0xffff888000000000 buffer ⟨0x7f0000000000, 0x7f0000003000⟩
        (physical buffer (fun _ => 0)
          ((callbacksOf (fun cpu => decide (cpu < 2)) [.timer counts]).map
            Callback.stores).flatten) MonitorInfo.default =
      SoftirqMonitor.updateOnce (some (run softirqStats (fun cpu => decide (cpu < 2))
        [.timer counts]).table) MonitorInfo.default := by
  intro buffer counts
  have hfirst : (firstFrame 0xffff888000000000 buffer).toNat = 1000 := by decide
  apply mapped_poll
  · rw [Area, structSize_packed.1]
    decide
  · intro k _
    rw [hfirst]

end NodeMonitor.MappedPolls
