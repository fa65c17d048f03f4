import NodeMonitor.KernelTables
import Mathlib.Data.List.FinRange

/-!
A kernel table over a history of hotplug events, timer updates and polls. After
any history each row is labelled exactly if its CPU was online at the last update;
the counters in the rows of offline CPUs are left from earlier updates.
-/

namespace NodeMonitor.Hotplug

open CharBuffers KernelTables

variable {Row Counts : Type}

/-- The kernel side: which CPUs are online, and the shared table. -/
structure Host (Row : Type) where
  online : ℕ → Bool
  table : Table Row

inductive Event (Counts : Type)
  | hotplug (cpu : ℕ) (up : Bool)
  | timer (counts : ℕ → Counts)
  | poll

def step (w : TableWriter Row Counts) (h : Host Row) : Event Counts → Host Row
  | .hotplug cpu up => { h with online := Function.update h.online cpu up }
  | .timer counts => { h with table := w.update h.online counts h.table }
  | .poll => h

/-- The host after a history of events that began with the zeroed table. -/
def run (w : TableWriter Row Counts) (online : ℕ → Bool) (events : List (Event Counts)) :
    Host Row :=
  events.foldl (step w) ⟨online, fun _ => w.zeroed⟩

/-- The CPUs the last timer update found online, `last` before the first update. -/
def onlineAtUpdate (online last : ℕ → Bool) : List (Event Counts) → ℕ → Bool
  | [] => last
  | .hotplug cpu up :: rest => onlineAtUpdate (Function.update online cpu up) last rest
  | .timer _ :: rest => onlineAtUpdate online online rest
  | .poll :: rest => onlineAtUpdate online last rest

def lastOnline (online : ℕ → Bool) (events : List (Event Counts)) : ℕ → Bool :=
  onlineAtUpdate online (fun _ => false) events

/-- Every row carries its CPU's name if that CPU is in the set, and no name otherwise. -/
def Labelled (w : TableWriter Row Counts) (table : Table Row) (last : ℕ → Bool) : Prop :=
  ∀ cpu, cString (w.name (table cpu)) = if last cpu then cpuName cpu else ""

theorem foldl_labelled (w : TableWriter Row Counts) (h : Host Row) (last : ℕ → Bool)
    (events : List (Event Counts)) (hlabelled : Labelled w h.table last) :
    Labelled w (events.foldl (step w) h).table (onlineAtUpdate h.online last events) := by
  induction events generalizing h last with
  | nil => exact hlabelled
  | cons e rest ih =>
    cases e with
    | hotplug cpu up => exact ih (step w h (.hotplug cpu up)) last hlabelled
    | timer counts =>
      have hupdated : Labelled w (w.update h.online counts h.table) h.online :=
        fun cpu => w.name_updateRow h.online counts cpu (h.table cpu)
      exact ih (step w h (.timer counts)) h.online hupdated
    | poll => exact ih h last hlabelled

theorem run_labelled (w : TableWriter Row Counts) (online : ℕ → Bool)
    (events : List (Event Counts)) :
    Labelled w (run w online events).table (lastOnline online events) :=
  foldl_labelled w _ _ events (fun _ => w.name_zeroed)

theorem named_iff (w : TableWriter Row Counts) (table : Table Row) (last : ℕ → Bool)
    (h : Labelled w table last) (cpu : Fin maxCpu) :
    unnamed (w.name (table cpu)) = false ↔ last cpu = true := by
  have hempty := unnamed_iff (w.name (table cpu))
  rw [h cpu] at hempty
  by_cases hlast : last cpu
  · simp only [hlast, if_true, cpuName_ne_empty, iff_false, Bool.not_eq_true] at hempty
    simp [hempty, hlast]
  · simp only [hlast, if_false, Bool.false_eq_true, iff_true] at hempty
    simp [hempty, hlast]

/-- A scan of a labelled table stops at the first CPU that is not in the set. -/
theorem takeWhile_named (w : TableWriter Row Counts) (table : Table Row) (last : ℕ → Bool)
    (h : Labelled w table last) :
    (List.ofFn table).takeWhile (fun row => !unnamed (w.name row)) =
      ((List.finRange maxCpu).takeWhile (fun cpu : Fin maxCpu => last cpu)).map table := by
  have hnamed : ((fun row => !unnamed (w.name row)) ∘ table) =
      fun cpu : Fin maxCpu => last cpu := by
    funext cpu
    rw [Function.comp_apply, Bool.eq_iff_iff, Bool.not_eq_true']
    exact named_iff w table last h cpu
  rw [List.ofFn_eq_map, List.takeWhile_map, hnamed]

/-- No offline id lies below an online one, among the ids of the table. -/
def NoGap (last : ℕ → Bool) : Prop :=
  ∀ low high : Fin maxCpu, low < high → last high = true → last low = true

end NodeMonitor.Hotplug
