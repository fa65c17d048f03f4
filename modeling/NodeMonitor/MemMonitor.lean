import NodeMonitor.KeyedMaps
import NodeMonitor.Messages
import NodeMonitor.ReadFile
import NodeMonitor.Runs
import Mathlib.Algebra.Order.Field.Rat

/-!
The memory monitor. The lines of `/proc/meminfo` are dispatched on their first word, and
the second word of a recognised line is converted and stored in a record that is not
initialized; what the record holds in the end is published in units of a million. An
access behind the last word and an exception of the conversion end the poll.
-/

namespace NodeMonitor.MemMonitor

open InputStreams KeyedMaps Messages ReadFile Runs TextWords

/-- `struct MenInfo`. -/
structure MenInfo where
  total : ℤ
  free : ℤ
  avail : ℤ
  buffers : ℤ
  cached : ℤ
  swapCached : ℤ
  active : ℤ
  inActive : ℤ
  activeAnon : ℤ
  inactiveAnon : ℤ
  activeFile : ℤ
  inactiveFile : ℤ
  dirty : ℤ
  writeback : ℤ
  anonPages : ℤ
  mapped : ℤ
  kReclaimable : ℤ
  sReclaimable : ℤ
  sUnreclaim : ℤ
deriving DecidableEq

/-- The recognised keys. -/
inductive Key
  | memTotal | memFree | memAvailable | buffers | cached | swapCached | active | inactive
  | activeAnon | inactiveAnon | activeFile | inactiveFile | dirty | writeback | anonPages
  | mapped | kReclaimable | sReclaimable | sUnreclaim
  deriving DecidableEq

namespace Key

def text : Key → String
  | memTotal => "MemTotal:"
  | memFree => "MemFree:"
  | memAvailable => "MemAvailable:"
  | buffers => "Buffers:"
  | cached => "Cached:"
  | swapCached => "SwapCached:"
  | active => "Active:"
  | inactive => "Inactive:"
  | activeAnon => "Active(anon):"
  | inactiveAnon => "Inactive(anon):"
  | activeFile => "Active(file):"
  | inactiveFile => "Inactive(file):"
  | dirty => "Dirty:"
  | writeback => "Writeback:"
  | anonPages => "AnonPages:"
  | mapped => "Mapped:"
  | kReclaimable => "KReclaimable:"
  | sReclaimable => "SReclaimable:"
  | sUnreclaim => "SUnreclaim:"

/-- The keys in the order of the comparisons. -/
def all : List Key :=
  [memTotal, memFree, memAvailable, buffers, cached, swapCached, active, inactive, activeAnon,
    inactiveAnon, activeFile, inactiveFile, dirty, writeback, anonPages, mapped, kReclaimable,
    sReclaimable, sUnreclaim]

/-- The first comparison that succeeds. -/
def ofName (name : List Char) : Option Key := all.find? (fun key => key.text.toList = name)

end Key

/-- The assignment in the branch of a key. -/
def MenInfo.set (m : MenInfo) (v : ℤ) : Key → MenInfo
  | .memTotal => { m with total := v }
  | .memFree => { m with free := v }
  | .memAvailable => { m with avail := v }
  | .buffers => { m with buffers := v }
  | .cached => { m with cached := v }
  | .swapCached => { m with swapCached := v }
  | .active => { m with active := v }
  | .inactive => { m with inActive := v }
  | .activeAnon => { m with activeAnon := v }
  | .inactiveAnon => { m with inactiveAnon := v }
  | .activeFile => { m with activeFile := v }
  | .inactiveFile => { m with inactiveFile := v }
  | .dirty => { m with dirty := v }
  | .writeback => { m with writeback := v }
  | .anonPages => { m with anonPages := v }
  | .mapped => { m with mapped := v }
  | .kReclaimable => { m with kReclaimable := v }
  | .sReclaimable => { m with sReclaimable := v }
  | .sUnreclaim => { m with sUnreclaim := v }

/-- What ends a poll before anything is published. -/
inductive Fault
  | noWord (i : ℕ)
  | thrown (e : ConversionError)
  deriving DecidableEq

/-- `mem_datas[i]`. -/
def wordAt (memDatas : List (List Char)) (i : ℕ) : Except Fault (List Char) :=
  match memDatas[i]? with
  | some w => .ok w
  | none => .error (.noWord i)

/-- `std::stoll(mem_datas[1])`. -/
def valueAt (memDatas : List (List Char)) : Except Fault ℤ := do
  let w ← wordAt memDatas 1
  (stoll w).mapError .thrown

/-- The body of the loop over the lines. -/
def processLine (m : MenInfo) (memDatas : List (List Char)) : Except Fault MenInfo := do
  let name ← wordAt memDatas 0
  match Key.ofName name with
  | none => return m
  | some key => return m.set (← valueAt memDatas) key

/-- The loop; the vector is cleared after every line. -/
def readMeminfo (ifs : IStream) (m : MenInfo) : Except Fault MenInfo :=
  match _h : readLine ifs [] with
  | (true, next, memDatas) => processLine m memDatas >>= readMeminfo next
  | (false, _, _) => .ok m
termination_by ifs.rest.length
decreasing_by exact readLine_progress (by assumption)

def kbToGB : ℚ := 1000000

/-- What is set in the message. The difference of the two `int64_t` numbers is exact. -/
def memDetail (m : MenInfo) (detail : MemInfo) : MemInfo :=
  { detail with
    usedPercent := ((m.total - m.avail : ℤ) : ℚ) / m.total * 100
    total := m.total / kbToGB
    free := m.free / kbToGB
    avail := m.avail / kbToGB
    buffers := m.buffers / kbToGB
    cached := m.cached / kbToGB
    swapCached := m.swapCached / kbToGB
    active := m.active / kbToGB
    inactive := m.inActive / kbToGB
    activeAnon := m.activeAnon / kbToGB
    inactiveAnon := m.inactiveAnon / kbToGB
    activeFile := m.activeFile / kbToGB
    inactiveFile := m.inactiveFile / kbToGB
    dirty := m.dirty / kbToGB
    writeback := m.writeback / kbToGB
    anonPages := m.anonPages / kbToGB
    mapped := m.mapped / kbToGB
    kReclaimable := m.kReclaimable / kbToGB
    sReclaimable := m.sReclaimable / kbToGB
    sUnreclaim := m.sUnreclaim / kbToGB }

/-- The stream of a file, or of one that cannot be opened. -/
def openFile : Option (List Char) → IStream
  | some content => { rest := content }
  | none => { rest := [], failbit := true }

/-- One poll, given what the local record happens to hold. -/
def updateOnce (file : Option (List Char)) (memInfo : MenInfo) (info : MonitorInfo) :
    Except Fault MonitorInfo := do
  let m ← readMeminfo (openFile file) memInfo
  return { info with memInfo := some (memDetail m (info.memInfo.getD {})) }

/-! ### The lines of a poll -/

/-- The assignment a line makes, if its first word is a key. -/
def entry (memDatas : List (List Char)) : Except Fault (Option (Key × ℤ)) := do
  let name ← wordAt memDatas 0
  match Key.ofName name with
  | none => return none
  | some key => return some (key, ← valueAt memDatas)

def store (m : MenInfo) : Option (Key × ℤ) → MenInfo
  | none => m
  | some (key, v) => m.set v key

/-- What a line assigns does not depend on the record. -/
theorem processLine_eq (m : MenInfo) (memDatas : List (List Char)) :
    processLine m memDatas = store m <$> entry memDatas := by
  unfold processLine entry
  cases wordAt memDatas 0 with
  | error e => rfl
  | ok name =>
    change (match Key.ofName name with
      | none => pure m
      | some key => do return m.set (← valueAt memDatas) key) = store m <$> (match Key.ofName name with
      | none => pure none
      | some key => do return some (key, ← valueAt memDatas))
    cases Key.ofName name with
    | none => rfl
    | some key =>
      cases valueAt memDatas with
      | error e => rfl
      | ok v => rfl

theorem readMeminfo_eq (ifs : IStream) (m : MenInfo) :
    readMeminfo ifs m = (readAll ifs).foldlM processLine m := by
  induction hlength : ifs.rest.length using Nat.strong_induction_on generalizing ifs m with
  | h n ih =>
    rw [readMeminfo]
    split
    · rename_i next memDatas hread
      have hless := readLine_progress hread
      rw [readAll_next hread, List.foldlM_cons]
      apply bind_congr
      intro stored
      exact ih _ (hlength ▸ hless) next stored rfl
    · rename_i hread
      rw [readAll_stop (by rw [hread])]
      rfl

/-- The lines a poll reads. -/
def fileLines : Option (List Char) → List (List Char)
  | some content => linesRead content
  | none => []

theorem readAll_openFile (file : Option (List Char)) :
    readAll (openFile file) = (fileLines file).map pushed := by
  cases file with
  | some content => exact readAll_eq content
  | none => exact readAll_stop (readLine_not_good rfl [])

def publish (info : MonitorInfo) (m : MenInfo) : MonitorInfo :=
  { info with memInfo := some (memDetail m (info.memInfo.getD {})) }

/-- A poll stores what its lines assign, in order, and publishes the record. -/
theorem updateOnce_eq (file : Option (List Char)) (m : MenInfo) (info : MonitorInfo) :
    updateOnce file m info = (fun entries => publish info (entries.foldl store m)) <$>
      (fileLines file).mapM (fun line => entry (pushed line)) := by
  have hbody : processLine = fun m memDatas => store m <$> entry memDatas := by
    funext m memDatas
    exact processLine_eq m memDatas
  have hread : readMeminfo (openFile file) m = (fun entries => entries.foldl store m) <$>
      (fileLines file).mapM (fun line => entry (pushed line)) := by
    rw [readMeminfo_eq, readAll_openFile, hbody, foldlM_store, List.mapM_map]
    rfl
  unfold updateOnce
  rw [hread]
  cases (fileLines file).mapM (fun line => entry (pushed line)) with
  | error e => rfl
  | ok entries => rfl

end NodeMonitor.MemMonitor
