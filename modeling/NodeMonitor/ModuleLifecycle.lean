import NodeMonitor.CpuLoadMonitor
import NodeMonitor.Hotplug
import NodeMonitor.PageMapping
import NodeMonitor.ProcessSums
import NodeMonitor.Runs

/-!
A kernel module between its timer, its users and its removal. The three modules start and
stop alike: the table is allocated, the timer started and the device registered; on removal
the timer is cancelled before the table is freed. An open file pins the module, a monitor
unmaps the table before it closes the file, and a dying process is cleaned up in that order
too. So no step of the module ever touches a table that is not there, and the table holds the
work of the timer since the module was loaded; an agent sees it through its mapping exactly
if the pages of the table are in the frames that the handler takes them to be in.
-/

namespace NodeMonitor.ModuleLifecycle

open PageMapping ProcessSums Runs

/-- How far `module_init` or `module_exit` has come. -/
inductive Stage
  | absent | allocated | started | live | going | cancelled | deregistered
  deriving DecidableEq

/-- The timer is running. -/
def Stage.timer : Stage → Bool
  | .started | .live | .going => true
  | _ => false

/-- Where a monitor is in its poll; `mapped` has the frame from which on frames are mapped. -/
inductive Phase
  | idle
  | opened
  | mapped (pfn : UInt64)
  | unmapped
  | failed
  deriving DecidableEq

/-- The file is open. -/
def Phase.pins : Phase → ℕ
  | .idle => 0
  | _ => 1

/-- The table of a module after `vzalloc`, and its timer's callback. -/
structure Contents (Table Input : Type*) where
  zeroed : Table
  update : Input → Table → Table

/-- The table after the callbacks so far. -/
def Contents.after {Table Input : Type*} (c : Contents Table Input) (inputs : List Input) : Table :=
  inputs.foldl (fun table i => c.update i table) c.zeroed

/-- Where the kernel keeps tables: the base of its linear map, and the pages of the buffer that
each `vzalloc` obtains. -/
structure Kernel (size : ℕ) where
  base : UInt64
  buffer : ℕ → Buffer size

/-- The module's pointer to its table, the memory, and the threads that run monitors;
`inputs` are those of the timer's callbacks since the table was allocated. -/
structure World (T Table Input : Type*) where
  stage : Stage := .absent
  pointer : Option ℕ := none
  isAllocated : ℕ → Bool := fun _ => false
  memory : ℕ → Table
  fresh : ℕ := 0
  armed : Bool := false
  registered : Bool := false
  references : ℕ := 0
  agents : T → Phase := fun _ => .idle
  inputs : List Input := []

/-- `insmod` enters `module_init`; `next` is the next call of `module_init` or `module_exit`;
`call` is the next system call of a poll. The outcomes of calls that may fail are given. -/
inductive Action (T Input : Type*)
  | insmod (success : Bool)
  | next (success : Bool)
  | rmmod
  | tick (i : Input)
  | call (t : T) (success : Bool)
  | kill (t : T)

variable {T Table Input : Type*} {size : ℕ}

def start (c : Contents Table Input) : World T Table Input where
  memory := fun _ => c.zeroed

/-- `vfree`, unless there is no table. -/
def World.vfree (w : World T Table Input) : World T Table Input :=
  match w.pointer with
  | none => w
  | some b => { w with isAllocated := Function.update w.isAllocated b false }

/-! ### Invariant -/

section Invariant

variable [Fintype T]

/-- What holds between any two steps: open files are counted and there are none unless the
module is live; the one allocated table is the module's. -/
structure Inv (k : Kernel size) (c : Contents Table Input) (w : World T Table Input) :
    Prop where
  counted : w.references = ∑ t, (w.agents t).pins
  idle : w.stage ≠ .live → ∀ t, w.agents t = .idle
  table : w.stage ≠ .absent → ∃ b, w.pointer = some b ∧ w.memory b = c.after w.inputs
  isAllocated : ∀ b, w.isAllocated b = true ↔ w.stage ≠ .absent ∧ w.pointer = some b
  armed : w.armed = w.stage.timer
  mapped : ∀ t pfn, w.agents t = .mapped pfn →
    ∃ b, w.pointer = some b ∧ pfn = firstFrame k.base (k.buffer b)

variable {k : Kernel size} {c : Contents Table Input}

theorem inv_start (k : Kernel size) (c : Contents Table Input) :
    Inv k c (start c : World T Table Input) where
  counted := by simp [start, Phase.pins]
  idle _ _ := rfl
  table h := absurd rfl h
  isAllocated b := by simp [start]
  armed := rfl
  mapped t pfn h := by simp [start] at h

theorem Inv.live_of_pins {w : World T Table Input} (h : Inv k c w) {t : T}
    (ht : w.agents t ≠ .idle) : w.stage = .live := by
  by_contra hstage
  exact ht (h.idle hstage t)

theorem Inv.pins_le {w : World T Table Input} (h : Inv k c w) (t : T) :
    (w.agents t).pins ≤ w.references := by
  rw [h.counted]
  exact Finset.single_le_sum (f := fun t => (w.agents t).pins) (fun _ _ => Nat.zero_le _)
    (Finset.mem_univ t)

/-- Without an open file no thread is in a poll. -/
theorem Inv.idle_of_references {w : World T Table Input} (h : Inv k c w) (hzero : w.references = 0)
    (t : T) : w.agents t = .idle := by
  have hsum : ∑ t, (w.agents t).pins = 0 := by rw [← h.counted, hzero]
  have hpins := Finset.sum_eq_zero_iff.mp hsum t (Finset.mem_univ t)
  cases hphase : w.agents t with
  | idle => rfl
  | _ => simp [hphase, Phase.pins] at hpins

/-- No thread is in a poll, so nothing outside the module is in the way of a step. -/
theorem Inv.noAgent {w : World T Table Input} (h : Inv k c w) (hstage : w.stage ≠ .live)
    (t : T) (pfn : UInt64) : w.agents t ≠ .mapped pfn := by
  rw [h.idle hstage t]
  simp

/-- A step of the module that keeps its table. -/
theorem Inv.keep {w : World T Table Input} (h : Inv k c w) (stage : Stage) (armed registered : Bool)
    (hidle : stage ≠ .live → ∀ t, w.agents t = .idle) (hbefore : w.stage ≠ .absent)
    (hafter : stage ≠ .absent) (harmed : armed = stage.timer) :
    Inv k c { w with stage := stage, armed := armed, registered := registered } where
  counted := h.counted
  idle := hidle
  table _ := h.table hbefore
  isAllocated b := by
    rw [h.isAllocated]
    simp [hbefore, hafter]
  armed := harmed
  mapped := h.mapped

/-- The table is freed when nothing refers to it any more. -/
theorem Inv.free {w : World T Table Input} (h : Inv k c w) (hstage : w.stage = .deregistered)
    {b : ℕ} (hpointer : w.pointer = some b) : Inv k c { w.vfree with stage := .absent } := by
  have hfreed : w.vfree = { w with isAllocated := Function.update w.isAllocated b false } := by
    simp only [World.vfree, hpointer]
  rw [hfreed]
  refine ⟨h.counted, fun _ => h.idle (by rw [hstage]; simp), fun hne => absurd rfl hne, ?_, ?_,
    h.mapped⟩
  · intro d
    by_cases hd : d = b
    · subst hd
      simp
    · have hother : w.isAllocated d = false := by
        rw [← Bool.not_eq_true, h.isAllocated, hpointer]
        intro hb
        exact hd (Option.some.inj hb.2).symm
      simp [Function.update_of_ne hd, hother]
  · have harmed := h.armed
    rw [hstage] at harmed
    exact harmed

theorem Inv.allocated_of_pointer {w : World T Table Input} (h : Inv k c w)
    (hstage : w.stage ≠ .absent) {b : ℕ} (hpointer : w.pointer = some b) :
    w.isAllocated b = true ∧ w.memory b = c.after w.inputs := by
  obtain ⟨d, hd, hmemory⟩ := h.table hstage
  obtain rfl : b = d := Option.some.inj (hpointer.symm.trans hd)
  exact ⟨(h.isAllocated b).mpr ⟨hstage, hpointer⟩, hmemory⟩

end Invariant

/-! ### Steps -/

variable [DecidableEq T]

def World.setAgent (w : World T Table Input) (t : T) (p : Phase) : World T Table Input :=
  { w with agents := Function.update w.agents t p }

/-- `module_init` after the allocation, and `module_exit`. The result of `misc_register` is
not looked at. -/
def World.next (w : World T Table Input) (success : Bool) : World T Table Input :=
  match w.stage with
  | .allocated => { w with stage := .started, armed := true }
  | .started => { w with stage := .live, registered := success }
  | .going => { w with stage := .cancelled, armed := false }
  | .cancelled => { w with stage := .deregistered, registered := false }
  | .deregistered => { w.vfree with stage := .absent }
  | .absent => w
  | .live => w

/-- The next system call of `UpdateOnce`: `open`, which fails without a device and while the
module is being removed, `mmap`, whose handler passes on the frame it derives from the
pointer, `munmap` and `close`. -/
def World.call (k : Kernel size) (w : World T Table Input) (t : T) (success : Bool) :
    World T Table Input :=
  match w.agents t with
  | .idle =>
    if w.registered ∧ w.stage = .live ∧ success then
      { w.setAgent t .opened with references := w.references + 1 }
    else w
  | .opened =>
    match success, w.pointer with
    | true, some b => w.setAgent t (.mapped (firstFrame k.base (k.buffer b)))
    | _, _ => w.setAgent t .failed
  | .mapped _ => w.setAgent t .unmapped
  | .unmapped => { w.setAgent t .idle with references := w.references - 1 }
  | .failed => { w.setAgent t .idle with references := w.references - 1 }

def step (k : Kernel size) (c : Contents Table Input) (w : World T Table Input) :
    Action T Input → World T Table Input
  | .insmod success =>
    if w.stage = .absent ∧ success then
      { w with
        stage := .allocated
        pointer := some w.fresh
        isAllocated := Function.update w.isAllocated w.fresh true
        memory := Function.update w.memory w.fresh c.zeroed
        fresh := w.fresh + 1
        inputs := [] }
    else w
  | .next success => w.next success
  | .rmmod => if w.stage = .live ∧ w.references = 0 then { w with stage := .going } else w
  | .tick i =>
    match w.armed, w.pointer with
    | true, some b => { w with
        memory := Function.update w.memory b (c.update i (w.memory b))
        inputs := w.inputs ++ [i] }
    | _, _ => w
  | .call t success => w.call k t success
  | .kill t => { w.setAgent t .idle with references := w.references - (w.agents t).pins }

def run (k : Kernel size) (c : Contents Table Input) (actions : List (Action T Input)) :
    World T Table Input :=
  actions.foldl (step k c) (start c)

/-- The pointers an action goes through: the callback writes to the table, the `mmap`
handler takes its address. -/
def accesses (w : World T Table Input) : Action T Input → List (Option ℕ)
  | .tick _ => if w.armed then [w.pointer] else []
  | .call t _ => if w.agents t = .opened then [w.pointer] else []
  | _ => []

/-! ### What the steps keep -/

variable [Fintype T] {k : Kernel size} {c : Contents Table Input}

/-- A thread goes on in its poll. -/
theorem Inv.setAgent {w : World T Table Input} (h : Inv k c w) (t : T) (p : Phase)
    (hlive : p ≠ .idle → w.stage = .live)
    (hmapped : ∀ pfn, p = .mapped pfn →
      ∃ b, w.pointer = some b ∧ pfn = firstFrame k.base (k.buffer b))
    {references : ℕ} (hcount : references + (w.agents t).pins = w.references + p.pins) :
    Inv k c { w.setAgent t p with references := references } := by
  refine ⟨?_, ?_, h.table, h.isAllocated, h.armed, ?_⟩
  · have hsum := sum_update (fun _ => Phase.pins) w.agents t p
    have hcounted := h.counted
    simp only [World.setAgent] at hsum ⊢
    omega
  · intro hstage u
    simp only [World.setAgent] at hstage ⊢
    by_cases hu : u = t
    · subst hu
      rw [Function.update_self]
      by_contra hp
      exact hstage (hlive hp)
    · rw [Function.update_of_ne hu]
      exact h.idle hstage u
  · intro u pfn hu
    simp only [World.setAgent] at hu
    by_cases hut : u = t
    · subst hut
      rw [Function.update_self] at hu
      exact hmapped pfn hu
    · rw [Function.update_of_ne hut] at hu
      exact h.mapped u pfn hu

theorem Inv.insmod {w : World T Table Input} (h : Inv k c w) (success : Bool) :
    Inv k c (step k c w (.insmod success)) := by
  simp only [step]
  split
  · rename_i hguard
    have hstage : w.stage ≠ .live := by
      rw [hguard.1]
      simp
    refine ⟨h.counted, fun _ => h.idle hstage, ?_, ?_, ?_, ?_⟩
    · intro _
      exact ⟨w.fresh, rfl, by simp [Contents.after]⟩
    · intro b
      have hnone : w.isAllocated b = false := by
        rw [← Bool.not_eq_true, h.isAllocated]
        intro hb
        exact hb.1 hguard.1
      by_cases hb : b = w.fresh
      · subst hb
        simp
      · simp [Function.update_of_ne hb, hnone, Ne.symm hb]
    · have harmed := h.armed
      rw [hguard.1] at harmed
      exact harmed
    · intro t pfn ht
      exact absurd ht (h.noAgent hstage t pfn)
  · exact h

theorem Inv.next {w : World T Table Input} (h : Inv k c w) (success : Bool) :
    Inv k c (step k c w (.next success)) := by
  simp only [step, World.next]
  cases hstage : w.stage with
  | absent => exact h
  | live => exact h
  | allocated =>
    exact h.keep .started true w.registered (fun _ => h.idle (by rw [hstage]; simp))
      (by rw [hstage]; simp) (by simp) rfl
  | started =>
    exact h.keep .live w.armed success (fun hne => absurd rfl hne) (by rw [hstage]; simp)
      (by simp) (by rw [h.armed, hstage]; rfl)
  | going =>
    exact h.keep .cancelled false w.registered (fun _ => h.idle (by rw [hstage]; simp))
      (by rw [hstage]; simp) (by simp) rfl
  | cancelled =>
    exact h.keep .deregistered w.armed false (fun _ => h.idle (by rw [hstage]; simp))
      (by rw [hstage]; simp) (by simp) (by rw [h.armed, hstage]; rfl)
  | deregistered =>
    obtain ⟨b, hpointer, _⟩ := h.table (by rw [hstage]; simp)
    exact h.free hstage hpointer

theorem Inv.rmmod {w : World T Table Input} (h : Inv k c w) : Inv k c (step k c w .rmmod) := by
  simp only [step]
  split
  · rename_i hguard
    exact h.keep .going w.armed w.registered (fun _ => h.idle_of_references hguard.2)
      (by rw [hguard.1]; simp) (by simp) (by rw [h.armed, hguard.1]; rfl)
  · exact h

theorem Inv.tick {w : World T Table Input} (h : Inv k c w) (i : Input) :
    Inv k c (step k c w (.tick i)) := by
  simp only [step]
  split
  · rename_i b harmed hpointer
    refine ⟨h.counted, h.idle, ?_, h.isAllocated, h.armed, h.mapped⟩
    intro hstage
    obtain ⟨d, hd, hmemory⟩ := h.table hstage
    have hsame : b = d := Option.some.inj (hpointer.symm.trans hd)
    subst hsame
    refine ⟨b, hpointer, ?_⟩
    simp [hmemory, Contents.after, List.foldl_append]
  · exact h

/-- A file is closed. -/
theorem Inv.release {w : World T Table Input} (h : Inv k c w) (t : T)
    (ht : (w.agents t).pins = 1) :
    Inv k c { w.setAgent t .idle with references := w.references - 1 } := by
  have hpins := h.pins_le t
  have hidle : Phase.idle.pins = 0 := rfl
  refine h.setAgent t .idle (fun hne => absurd rfl hne) (fun pfn hpfn => by simp at hpfn) ?_
  omega

theorem Inv.call {w : World T Table Input} (h : Inv k c w) (t : T) (success : Bool) :
    Inv k c (step k c w (.call t success)) := by
  simp only [step, World.call]
  cases hphase : w.agents t with
  | idle =>
    simp only
    split
    · rename_i hguard
      exact h.setAgent t .opened (fun _ => hguard.2.1) (fun pfn hpfn => by simp at hpfn)
        (by simp [hphase, Phase.pins])
    · exact h
  | opened =>
    have hlive := h.live_of_pins (t := t) (by rw [hphase]; simp)
    simp only
    split
    · rename_i b hpointer
      exact h.setAgent t (.mapped (firstFrame k.base (k.buffer b))) (fun _ => hlive)
        (fun pfn hpfn => ⟨b, hpointer, (Phase.mapped.inj hpfn).symm⟩) (by simp [hphase, Phase.pins])
    · exact h.setAgent t .failed (fun _ => hlive) (fun pfn hpfn => by simp at hpfn)
        (by simp [hphase, Phase.pins])
  | mapped pfn =>
    exact h.setAgent t .unmapped (fun _ => h.live_of_pins (t := t) (by rw [hphase]; simp))
      (fun pfn hpfn => by simp at hpfn) (by simp [hphase, Phase.pins])
  | unmapped => exact h.release t (by rw [hphase]; rfl)
  | failed => exact h.release t (by rw [hphase]; rfl)

theorem Inv.kill {w : World T Table Input} (h : Inv k c w) (t : T) :
    Inv k c (step k c w (.kill t)) := by
  have hpins := h.pins_le t
  have hidle : Phase.idle.pins = 0 := rfl
  refine h.setAgent t .idle (fun hne => absurd rfl hne) (fun pfn hpfn => by simp at hpfn) ?_
  omega

theorem Inv.step {w : World T Table Input} (h : Inv k c w) (a : Action T Input) :
    Inv k c (step k c w a) := by
  cases a with
  | insmod success => exact h.insmod success
  | next success => exact h.next success
  | rmmod => exact h.rmmod
  | tick i => exact h.tick i
  | call t success => exact h.call t success
  | kill t => exact h.kill t

theorem inv_run (k : Kernel size) (c : Contents Table Input) (actions : List (Action T Input)) :
    Inv k c (run k c actions) :=
  foldl_invariant (ModuleLifecycle.step k c) (Inv k c) (fun _ a h => h.step a) _ actions
    (inv_start k c)

/-! ### Safety -/

omit [DecidableEq T] in
theorem Inv.accesses {w : World T Table Input} (h : Inv k c w) (a : Action T Input) :
    ∀ p ∈ accesses w a, ∃ b, p = some b ∧ w.isAllocated b = true := by
  have hpointer : w.stage ≠ .absent → ∀ p ∈ [w.pointer], ∃ b, p = some b ∧
      w.isAllocated b = true := by
    intro hstage p hp
    obtain ⟨b, hb, _⟩ := h.table hstage
    rw [List.mem_singleton.mp hp]
    exact ⟨b, hb, (h.allocated_of_pointer hstage hb).1⟩
  intro p hp
  cases a with
  | tick i =>
    simp only [ModuleLifecycle.accesses] at hp
    split at hp
    · rename_i harmed
      refine hpointer ?_ p hp
      intro habsent
      rw [h.armed, habsent] at harmed
      exact absurd harmed (by simp [Stage.timer])
    · exact absurd hp List.not_mem_nil
  | call t success =>
    simp only [ModuleLifecycle.accesses] at hp
    split at hp
    · rename_i hopened
      refine hpointer ?_ p hp
      rw [h.live_of_pins (t := t) (by rw [hopened]; simp)]
      simp
    · exact absurd hp List.not_mem_nil
  | _ => exact absurd hp List.not_mem_nil

/-- The calls of `module_exit` after `rmmod`. -/
def removal : List (Action T Input) := [.rmmod, .next true, .next true, .next true]

omit [Fintype T] in
theorem stage_removal {w : World T Table Input} (hlive : w.stage = .live)
    (hzero : w.references = 0) : (removal.foldl (step k c) w).stage = .absent := by
  simp [removal, step, World.next, hlive, hzero]

/-- A mapping goes to the pages of a buffer, and shows what is written there, if they are in
the frames from the derived one on; it shows something else if they are not. -/
structure Shows (k : Kernel size) (b : ℕ) (pfn : UInt64) : Prop where
  pages : FollowsFirstFrame k.base (k.buffer b) →
    ∀ page < pageCount size, remapPfnRange pfn size page = some ((k.buffer b).frame page)
  bytes : SeesTable (k.buffer b) (remapPfnRange pfn size) ↔
    FollowsFirstFrame k.base (k.buffer b)

theorem shows_firstFrame (k : Kernel size) (b : ℕ) :
    Shows k b (firstFrame k.base (k.buffer b)) where
  pages hframes page hpage := by
    rw [remapPfnRange, if_pos hpage, hframes page hpage]
  bytes := ⟨followsFirstFrame_of_seesTable k.base _, seesTable_of_followsFirstFrame k.base _⟩

/-- Pointers lead to the table while it is there; as long as a monitor has it mapped, it stays
there and holds what the timer made of it since the module was loaded; nothing else is
allocated; a module in use stays, and one that is not in use can be removed. -/
structure Safe (k : Kernel size) (c : Contents Table Input) (w : World T Table Input) :
    Prop where
  accesses : ∀ a, ∀ p ∈ accesses w a, ∃ b, p = some b ∧ w.isAllocated b = true
  mapped : ∀ t pfn, w.agents t = .mapped pfn → ∃ b, w.pointer = some b ∧
    w.isAllocated b = true ∧ w.memory b = c.after w.inputs ∧ Shows k b pfn
  noLeak : ∀ b, w.isAllocated b = true → w.stage ≠ .absent ∧ w.pointer = some b
  pinned : ∀ t, w.agents t ≠ .idle → step k c w .rmmod = w
  removable : w.stage = .live → (∀ t, w.agents t = .idle) →
    (removal.foldl (step k c) w).stage = .absent ∧
      ∀ b, (removal.foldl (step k c) w).isAllocated b = false

/-- However loading and removal, the timer, polls and deaths of processes are interleaved,
whichever calls fail, and wherever the tables are. -/
theorem module_safe (k : Kernel size) (c : Contents Table Input)
    (actions : List (Action T Input)) : Safe k c (run k c actions) := by
  have h := inv_run k c actions
  refine ⟨h.accesses, ?_, fun b hb => (h.isAllocated b).mp hb, ?_, ?_⟩
  · intro t pfn ht
    have hlive := h.live_of_pins (t := t) (by rw [ht]; simp)
    obtain ⟨b, hpointer, rfl⟩ := h.mapped t pfn ht
    obtain ⟨hallocated, hmemory⟩ := h.allocated_of_pointer (by rw [hlive]; simp) hpointer
    exact ⟨b, hpointer, hallocated, hmemory, shows_firstFrame k b⟩
  · intro t ht
    have hpins := h.pins_le t
    have hheld : 0 < (run k c actions).references := by
      cases hphase : (run k c actions).agents t with
      | idle => exact absurd hphase ht
      | _ =>
        rw [hphase] at hpins
        exact hpins
    simp only [step, hheld.ne', and_false, if_false]
  · intro hlive hidle
    have hzero : (run k c actions).references = 0 := by
      rw [h.counted]
      simp [hidle, Phase.pins]
    have hstage := stage_removal (k := k) (c := c) hlive hzero
    have hafter : Inv k c (removal.foldl (step k c) (run k c actions)) :=
      foldl_invariant (step k c) (Inv k c) (fun _ a h => h.step a) _ removal h
    refine ⟨hstage, ?_⟩
    intro b
    rw [← Bool.not_eq_true, hafter.isAllocated]
    exact fun hb => hb.1 hstage

/-! ### The three modules -/

def cpuLoadMonitor : Contents CpuLoadMonitor.CpuLoadRow CpuLoadMonitor.Avenrun where
  zeroed := {}
  update avenrun _ := CpuLoadMonitor.updateCpuLoad avenrun

/-- A module with a table of CPUs: a callback finds some of them online and their counts. -/
def cpuTable {Row Counts : Type} (w : KernelTables.TableWriter Row Counts) :
    Contents (KernelTables.Table Row) ((ℕ → Bool) × (ℕ → Counts)) where
  zeroed := fun _ => w.zeroed
  update found := w.update found.1 found.2

def cpuStatMonitor : Contents (KernelTables.Table KernelTables.CpuStatRow)
    ((ℕ → Bool) × (ℕ → KernelTables.CpuTimes)) :=
  cpuTable KernelTables.cpuStats

def cpuSoftirqMonitor : Contents (KernelTables.Table KernelTables.SoftirqRow)
    ((ℕ → Bool) × (ℕ → KernelTables.SoftirqCounts)) :=
  cpuTable KernelTables.softirqStats

/-- The load record is the one the agent's poll is modelled on. -/
theorem after_cpuLoadMonitor (ticks : List CpuLoadMonitor.Avenrun) :
    cpuLoadMonitor.after ticks = CpuLoadMonitor.tableAfter ticks := rfl

/-- The CPUs online and their counts at the callbacks of a history. -/
def callbacks {Counts : Type} (online : ℕ → Bool) :
    List (Hotplug.Event Counts) → List ((ℕ → Bool) × (ℕ → Counts))
  | [] => []
  | .hotplug cpu up :: rest => callbacks (Function.update online cpu up) rest
  | .timer counts :: rest => (online, counts) :: callbacks online rest
  | .poll :: rest => callbacks online rest

/-- So is a table of CPUs after any hotplug history. -/
theorem after_cpuTable {Row Counts : Type} (w : KernelTables.TableWriter Row Counts)
    (online : ℕ → Bool) (events : List (Hotplug.Event Counts)) :
    (cpuTable w).after (callbacks online events) = (Hotplug.run w online events).table := by
  have hfold : ∀ (h : Hotplug.Host Row), (events.foldl (Hotplug.step w) h).table =
      (callbacks h.online events).foldl (fun table found => (cpuTable w).update found table)
        h.table := by
    induction events with
    | nil =>
      intro h
      rfl
    | cons e rest ih =>
      intro h
      cases e with
      | hotplug cpu up => exact ih (Hotplug.step w h (.hotplug cpu up))
      | timer counts => exact ih (Hotplug.step w h (.timer counts))
      | poll => exact ih h
  exact (hfold ⟨online, fun _ => w.zeroed⟩).symm

end NodeMonitor.ModuleLifecycle
