import NodeMonitor.KernelTables
import NodeMonitor.MemoryViews

/-!
The tables as user space sees them. A kernel module writes its table through the page
table of a `vzalloc` buffer; its `mmap` handler derives one frame number from the
buffer's address and maps the frames that follow it. The user reads the kernel's bytes
exactly when every page of the buffer happens to sit in the frame derived for it.
-/

namespace NodeMonitor.PageMapping

open KernelTables MemoryViews

def pageShift : ℕ := 12

def pageSize : ℕ := 2 ^ pageShift

/-- The number of pages that cover a size. -/
def pageCount (size : ℕ) : ℕ := (size + (pageSize - 1)) / pageSize

theorem lt_pageCount_iff (size k : ℕ) : k < pageCount size ↔ k * pageSize < size := by
  simp only [pageCount, pageSize, pageShift]
  omega

theorem div_lt_pageCount {size o : ℕ} (h : o < size) : o / pageSize < pageCount size := by
  rw [lt_pageCount_iff]
  simp only [pageSize, pageShift]
  omega

/-- The two modules that share a table. -/
inductive Device
  | cpuStatMonitor | cpuSoftirqMonitor

/-- `sizeof`: a name of 16 bytes and ten counters of type `float` or `unsigned long`. -/
def Device.rowSize : Device → ℕ
  | .cpuStatMonitor => 16 + 10 * 4
  | .cpuSoftirqMonitor => 16 + 10 * 8

def Device.tableSize (d : Device) : ℕ := d.rowSize * maxCpu

/-- A byte of physical memory: its frame and its offset in the frame. -/
abbrev Location := ℕ × ℕ

abbrev PhysicalMemory := Location → UInt8

/-- A buffer obtained with `vzalloc`: page aligned, every page in its own frame. -/
structure Buffer (size : ℕ) where
  address : UInt64
  frame : ℕ → ℕ
  aligned : address.toNat % pageSize = 0
  frame_injective : ∀ i j, i < pageCount size → j < pageCount size → frame i = frame j → i = j

/-- Where the kernel's page table puts a byte of the buffer. -/
def Buffer.place {size : ℕ} (buffer : Buffer size) (o : Fin size) : Location :=
  (buffer.frame (o.val / pageSize), o.val % pageSize)

theorem Buffer.place_injective {size : ℕ} (buffer : Buffer size) :
    Function.Injective buffer.place := by
  intro o p h
  have hframe := buffer.frame_injective _ _ (div_lt_pageCount o.isLt) (div_lt_pageCount p.isLt)
    (congrArg Prod.fst h)
  have hoffset : o.val % pageSize = p.val % pageSize := congrArg Prod.snd h
  apply Fin.ext
  rw [← Nat.div_add_mod o.val pageSize, hframe, hoffset, Nat.div_add_mod]

/-- The memory after the allocation: the buffer's pages are zero. -/
def vzalloc {size : ℕ} (buffer : Buffer size) (before : PhysicalMemory) : PhysicalMemory :=
  fun l => if ∃ k < pageCount size, l.1 = buffer.frame k then 0 else before l

theorem vzalloc_place {size : ℕ} (buffer : Buffer size) (before : PhysicalMemory)
    (o : Fin size) : vzalloc buffer before (buffer.place o) = 0 :=
  if_pos ⟨o.val / pageSize, div_lt_pageCount o.isLt, rfl⟩

/-- The memory after the kernel has written bytes at offsets of its table. -/
def kernelWrites {size : ℕ} (buffer : Buffer size) (before : PhysicalMemory)
    (writes : List (Fin size × UInt8)) : PhysicalMemory :=
  writeAll buffer.place (vzalloc buffer before) writes

/-! ### The mmap handler -/

structure Vma where
  vmStart : UInt64
  vmEnd : UInt64

inductive Errno
  | einval

/-- A mapping, from the pages counted from the start of the area to frames. -/
abbrev UserMapping := ℕ → Option ℕ

/-- The kernel address less the base of the linear map. -/
def virtToPhys (base address : UInt64) : UInt64 := address - base

/-- The `k`-th user page goes to frame `pfn + k`, for the pages that cover `size`. -/
def remapPfnRange (pfn : UInt64) (size : ℕ) : UserMapping := fun k =>
  if k < pageCount size then some (pfn.toNat + k) else none

/-- The frame number the handler passes on. -/
def firstFrame (base : UInt64) {size : ℕ} (buffer : Buffer size) : UInt64 :=
  virtToPhys base buffer.address >>> UInt64.ofNat pageShift

/-- The handler of a table of the given size. -/
def monitorMmap (base : UInt64) {size : ℕ} (buffer : Buffer size) (vma : Vma) :
    Except Errno UserMapping :=
  if vma.vmEnd - vma.vmStart < UInt64.ofNat size then .error .einval
  else .ok (remapPfnRange (firstFrame base buffer) size)

def cpuStatMonitorMmap (base : UInt64) (buffer : Buffer (Device.tableSize .cpuStatMonitor))
    (vma : Vma) : Except Errno UserMapping :=
  monitorMmap base buffer vma

def cpuSoftirqMonitorMmap (base : UInt64)
    (buffer : Buffer (Device.tableSize .cpuSoftirqMonitor)) (vma : Vma) :
    Except Errno UserMapping :=
  monitorMmap base buffer vma

def Device.mmap (d : Device) (base : UInt64) : Buffer d.tableSize → Vma →
    Except Errno UserMapping :=
  match d with
  | .cpuStatMonitor => cpuStatMonitorMmap base
  | .cpuSoftirqMonitor => cpuSoftirqMonitorMmap base

/-- A byte read by the user, `none` where nothing is mapped. -/
def userRead (mapping : UserMapping) (m : PhysicalMemory) (o : ℕ) : Option UInt8 :=
  (mapping (o / pageSize)).map (fun frame => m (frame, o % pageSize))

/-- The handler accepts exactly the areas that are large enough. -/
theorem Device.mmap_eq_ok_iff (d : Device) (base : UInt64) (buffer : Buffer d.tableSize)
    (vma : Vma) (mapping : UserMapping) :
    d.mmap base buffer vma = .ok mapping ↔
      ¬ vma.vmEnd - vma.vmStart < UInt64.ofNat d.tableSize ∧
        mapping = remapPfnRange (firstFrame base buffer) d.tableSize := by
  have hmonitor : d.mmap base buffer vma = monitorMmap base buffer vma := by
    cases d <;> rfl
  rw [hmonitor, monitorMmap]
  split
  · rename_i hsmall
    simp [hsmall]
  · rename_i hlarge
    simp [hlarge, eq_comm]

theorem userRead_remapPfnRange (pfn : UInt64) {size o : ℕ} (h : o < size) (m : PhysicalMemory) :
    userRead (remapPfnRange pfn size) m o =
      some (m (pfn.toNat + o / pageSize, o % pageSize)) := by
  rw [userRead, remapPfnRange, if_pos (div_lt_pageCount h), Option.map_some]

/-! ### What the user sees -/

/-- After any writes, to any memory, the user reads at every offset of the table the
byte last written there, zero before the first write. -/
def SeesTable {size : ℕ} (buffer : Buffer size) (mapping : UserMapping) : Prop :=
  ∀ (before : PhysicalMemory) (writes : List (Fin size × UInt8)) (o : Fin size),
    userRead mapping (kernelWrites buffer before writes) o.val = some (lastWritten 0 writes o)

/-- Every page of the table sits in the frame that the handler derives for it. -/
def FollowsFirstFrame (base : UInt64) {size : ℕ} (buffer : Buffer size) : Prop :=
  ∀ k < pageCount size, buffer.frame k = (firstFrame base buffer).toNat + k

theorem seesTable_of_followsFirstFrame (base : UInt64) {size : ℕ} (buffer : Buffer size)
    (h : FollowsFirstFrame base buffer) :
    SeesTable buffer (remapPfnRange (firstFrame base buffer) size) := by
  intro before writes o
  have hplace : ((firstFrame base buffer).toNat + o.val / pageSize, o.val % pageSize) =
      buffer.place o := by
    rw [Buffer.place, h _ (div_lt_pageCount o.isLt)]
  rw [userRead_remapPfnRange _ o.isLt, hplace, kernelWrites,
    writeAll_apply_place buffer.place_injective, vzalloc_place]

/-- One byte written at the start of a page shows in the frame of that page only. -/
theorem followsFirstFrame_of_seesTable (base : UInt64) {size : ℕ} (buffer : Buffer size)
    (h : SeesTable buffer (remapPfnRange (firstFrame base buffer) size)) :
    FollowsFirstFrame base buffer := by
  intro k hk
  let o : Fin size := ⟨k * pageSize, (lt_pageCount_iff size k).mp hk⟩
  have hpage : o.val / pageSize = k := Nat.mul_div_cancel k (by decide)
  have hread := h (fun _ => 0) [(o, 1)] o
  rw [userRead_remapPfnRange _ o.isLt, Option.some.injEq] at hread
  have hlast : lastWritten (0 : UInt8) [(o, 1)] o = 1 := by
    simp [lastWritten, KeyedMaps.latest]
  rw [hlast] at hread
  have hzero : ∀ l, vzalloc buffer (fun _ => 0) l = 0 := by
    intro l
    simp [vzalloc]
  have hplace := eq_place_of_writeAll buffer.place _ o hread (by rw [hzero]; decide)
  have hframe := congrArg Prod.fst hplace
  simp only [Buffer.place, hpage] at hframe
  exact hframe.symm

/-- The frames of the buffer are all mapped by the linear map, its address is not. -/
def OutsideLinearMap (base : UInt64) {size : ℕ} (buffer : Buffer size) (ramFrames : ℕ) : Prop :=
  (∀ k < pageCount size, buffer.frame k < ramFrames) ∧
    ramFrames * pageSize ≤ (buffer.address - base).toNat

theorem firstFrame_toNat (base : UInt64) {size : ℕ} (buffer : Buffer size) :
    (firstFrame base buffer).toNat = (buffer.address - base).toNat / pageSize := by
  rw [firstFrame, virtToPhys, UInt64.toNat_shiftRight, Nat.shiftRight_eq_div_pow]
  rfl

/-- Outside the linear map the user reads memory that is not the buffer's: at every
offset, and whatever the kernel wrote, what was there before the allocation. -/
theorem userRead_of_outside (base : UInt64) {size : ℕ} (buffer : Buffer size) {ramFrames : ℕ}
    (h : OutsideLinearMap base buffer ramFrames) (before : PhysicalMemory)
    (writes : List (Fin size × UInt8)) (o : Fin size) :
    userRead (remapPfnRange (firstFrame base buffer) size) (kernelWrites buffer before writes)
        o.val =
      some (before ((firstFrame base buffer).toNat + o.val / pageSize, o.val % pageSize)) := by
  have hbehind : ramFrames ≤ (firstFrame base buffer).toNat := by
    rw [firstFrame_toNat]
    exact (Nat.le_div_iff_mul_le (by decide)).mpr h.2
  have hother : ∀ k < pageCount size,
      (firstFrame base buffer).toNat + o.val / pageSize ≠ buffer.frame k := by
    intro k hk
    have hram := h.1 k hk
    have hle := Nat.le_add_right (firstFrame base buffer).toNat (o.val / pageSize)
    omega
  rw [userRead_remapPfnRange _ o.isLt, kernelWrites, writeAll_apply_of_ne]
  · rw [vzalloc, if_neg]
    rintro ⟨k, hk, hframe⟩
    exact hother k hk hframe
  · intro p hp
    exact hother _ (div_lt_pageCount p.isLt) (congrArg Prod.fst hp)

theorem Device.tableSize_pos (d : Device) : 0 < d.tableSize := by
  cases d <;> decide

/-- An accepted mapping shows the kernel's table exactly when every page sits in the
frame derived for it, and so never for a buffer outside the linear map. -/
theorem user_view_iff (d : Device) (base : UInt64) (buffer : Buffer d.tableSize) (vma : Vma)
    (mapping : UserMapping) (haccepted : d.mmap base buffer vma = .ok mapping) :
    (SeesTable buffer mapping ↔ FollowsFirstFrame base buffer) ∧
      ∀ ramFrames, OutsideLinearMap base buffer ramFrames → ¬ SeesTable buffer mapping := by
  rw [((Device.mmap_eq_ok_iff d base buffer vma mapping).mp haccepted).2]
  constructor
  · exact ⟨followsFirstFrame_of_seesTable base buffer, seesTable_of_followsFirstFrame base buffer⟩
  · intro ramFrames houtside hsees
    have hread := hsees (fun _ => 1) [] ⟨0, d.tableSize_pos⟩
    rw [userRead_of_outside base buffer houtside] at hread
    have hone : (1 : UInt8) = 0 := Option.some.inj hread
    exact absurd hone (by decide)

/-- A buffer in the linear map, at the address of its first frame. -/
theorem user_view_iff_contiguous :
    let buffer : Buffer (Device.tableSize .cpuStatMonitor) :=
      ⟨0xffff8880003e8000, fun k => 1000 + k, by decide, fun _ _ _ _ h => Nat.add_left_cancel h⟩
    SeesTable buffer
      (remapPfnRange (firstFrame 0xffff888000000000 buffer)
        (Device.tableSize .cpuStatMonitor)) := by
  intro buffer
  have haccepted := (Device.mmap_eq_ok_iff .cpuStatMonitor 0xffff888000000000 buffer
    ⟨0x7f0000000000, 0x7f0000002000⟩ _).mpr ⟨by decide, rfl⟩
  apply (user_view_iff .cpuStatMonitor _ buffer _ _ haccepted).1.mpr
  have hfirst : (firstFrame 0xffff888000000000 buffer).toNat = 1000 := by decide
  intro k _
  rw [hfirst]

/-- Two scattered pages behind an address outside the linear map of a machine with
16 GiB: the user sees none of the table. -/
theorem vzalloc_table_unseen :
    ¬ ∀ (d : Device) (base : UInt64) (buffer : Buffer d.tableSize) (vma : Vma)
      (mapping : UserMapping) (ramFrames : ℕ) (_ : d.mmap base buffer vma = .ok mapping)
      (_ : OutsideLinearMap base buffer ramFrames), SeesTable buffer mapping := by
  intro h
  let buffer : Buffer (Device.tableSize .cpuStatMonitor) :=
    ⟨0xffffc90000000000, fun k => 1000 + 7 * k, by decide, by
      intro i j _ _ hframe
      have heq : 1000 + 7 * i = 1000 + 7 * j := hframe
      omega⟩
  have houtside : OutsideLinearMap 0xffff888000000000 buffer (2 ^ 22) := by
    constructor
    · intro k hk
      have hcount : pageCount (Device.tableSize .cpuStatMonitor) = 2 := by decide
      rw [hcount] at hk
      change 1000 + 7 * k < 2 ^ 22
      omega
    · decide
  have haccepted := (Device.mmap_eq_ok_iff .cpuStatMonitor 0xffff888000000000 buffer
    ⟨0x7f0000000000, 0x7f0000002000⟩ _).mpr ⟨by decide, rfl⟩
  have hread := h _ _ _ _ _ _ haccepted houtside (fun _ => 1) [] ⟨0, by decide⟩
  rw [userRead_of_outside _ buffer houtside] at hread
  have hone : (1 : UInt8) = 0 := Option.some.inj hread
  exact absurd hone (by decide)

end NodeMonitor.PageMapping
