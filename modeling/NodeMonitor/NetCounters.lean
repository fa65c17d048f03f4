import NodeMonitor.KeyedMaps
import NodeMonitor.ProcessSums

/-!
The packet counters kept by the eBPF programs. Every invocation looks its interface
up in the shared map, creates a zero record if there is none, looks it up again and
adds to the record's counters one by one. The map answers one request at a time; an
update always installs a new record, and an invocation that already got the old one
keeps adding to that.
-/

namespace NodeMonitor.NetCounters

open KeyedMaps ProcessSums
open scoped UInt64.CommRing

inductive Counter
  | rcvBytes | rcvPackets | sndBytes | sndPackets | errIn | errOut | dropIn | dropOut
  deriving DecidableEq

/-- `struct net_stats`. -/
structure NetStats where
  rcvBytes : UInt64 := 0
  rcvPackets : UInt64 := 0
  sndBytes : UInt64 := 0
  sndPackets : UInt64 := 0
  errIn : UInt64 := 0
  errOut : UInt64 := 0
  dropIn : UInt64 := 0
  dropOut : UInt64 := 0

def NetStats.get (stats : NetStats) : Counter → UInt64
  | .rcvBytes => stats.rcvBytes
  | .rcvPackets => stats.rcvPackets
  | .sndBytes => stats.sndBytes
  | .sndPackets => stats.sndPackets
  | .errIn => stats.errIn
  | .errOut => stats.errOut
  | .dropIn => stats.dropIn
  | .dropOut => stats.dropOut

/-- `__sync_fetch_and_add(&stats->c, a)`. -/
def NetStats.fetchAndAdd (stats : NetStats) (a : UInt64) : Counter → NetStats
  | .rcvBytes => { stats with rcvBytes := stats.rcvBytes + a }
  | .rcvPackets => { stats with rcvPackets := stats.rcvPackets + a }
  | .sndBytes => { stats with sndBytes := stats.sndBytes + a }
  | .sndPackets => { stats with sndPackets := stats.sndPackets + a }
  | .errIn => { stats with errIn := stats.errIn + a }
  | .errOut => { stats with errOut := stats.errOut + a }
  | .dropIn => { stats with dropIn := stats.dropIn + a }
  | .dropOut => { stats with dropOut := stats.dropOut + a }

theorem NetStats.get_fetchAndAdd (stats : NetStats) (a : UInt64) (c d : Counter) :
    (stats.fetchAndAdd a c).get d = stats.get d + if c = d then a else 0 := by
  cases c <;> cases d <;> simp [fetchAndAdd, get]

@[simp]
theorem NetStats.get_zero (c : Counter) : NetStats.get {} c = 0 := by
  cases c <;> rfl

/-- The two programs. -/
inductive Hook
  | countIngress | countEgress
  deriving DecidableEq

/-- An invocation: the program, the interface name and the fields read from the buffer. -/
structure Packet where
  hook : Hook
  ifname : String
  len : UInt32
  rxError : UInt32 := 0
  txError : UInt32 := 0
  dropped : UInt32 := 0

/-- The atomic adds of an invocation that has got a record, in program order. -/
def adds (skb : Packet) : List (Counter × UInt64) :=
  match skb.hook with
  | .countIngress =>
    [(.rcvBytes, skb.len.toUInt64), (.rcvPackets, 1),
      (.errIn, skb.rxError.toUInt64), (.dropIn, skb.dropped.toUInt64)]
  | .countEgress =>
    [(.sndBytes, skb.len.toUInt64), (.sndPackets, 1),
      (.errOut, skb.txError.toUInt64), (.dropOut, skb.dropped.toUInt64)]

/-- The next request of an invocation: the first lookup, the update, the second
lookup, or the first of the remaining adds. An invocation returns when no add is left,
or without any add when the second lookup finds nothing. -/
inductive Pc
  | lookup
  | update
  | relookup
  | adding (record : ℕ) (todo : List (Counter × UInt64))
  | gaveUp

namespace Pc

/-- The record an invocation has got from a lookup. -/
def record : Pc → Option ℕ
  | .adding e _ => some e
  | _ => none

def todo : Pc → List (Counter × UInt64)
  | .adding _ rest => rest
  | _ => []

def returned : Pc → Bool
  | .adding _ [] => true
  | .gaveUp => true
  | _ => false

end Pc

variable {ι : Type}

/-- The map holds references to records; records that were replaced stay in memory. -/
structure State (ι : Type) where
  entries : KeyedMap String ℕ
  memory : ℕ → NetStats
  fresh : ℕ
  pc : ι → Pc

def State.setPc [DecidableEq ι] (s : State ι) (i : ι) (p : Pc) : State ι :=
  { s with pc := Function.update s.pc i p }

/-- `net_stats_map.update(&ifname, &zero)`. -/
def State.install (s : State ι) (ifname : String) : State ι :=
  { s with
    entries := assign s.entries ifname s.fresh
    memory := Function.update s.memory s.fresh {}
    fresh := s.fresh + 1 }

def State.fetchAndAdd (s : State ι) (e : ℕ) (c : Counter) (a : UInt64) : State ι :=
  { s with memory := Function.update s.memory e ((s.memory e).fetchAndAdd a c) }

theorem State.pc_install (s : State ι) (ifname : String) : (s.install ifname).pc = s.pc := rfl

theorem State.pc_fetchAndAdd (s : State ι) (e : ℕ) (c : Counter) (a : UInt64) :
    (s.fetchAndAdd e c a).pc = s.pc := rfl

/-- What the map holds for an interface. -/
def State.stats (s : State ι) (ifname : String) : Option NetStats :=
  (s.entries ifname).map s.memory

def start : State ι where
  entries := empty
  memory := fun _ => {}
  fresh := 0
  pc := fun _ => .lookup

variable [DecidableEq ι]

/-- One request of invocation `i` is answered. -/
def step (skb : ι → Packet) (s : State ι) (i : ι) : State ι :=
  match s.pc i with
  | .lookup =>
    match s.entries (skb i).ifname with
    | none => s.setPc i .update
    | some e => s.setPc i (.adding e (adds (skb i)))
  | .update => (s.install (skb i).ifname).setPc i .relookup
  | .relookup =>
    match s.entries (skb i).ifname with
    | none => s.setPc i .gaveUp
    | some e => s.setPc i (.adding e (adds (skb i)))
  | .adding _ [] => s
  | .adding e ((c, a) :: rest) => (s.fetchAndAdd e c a).setPc i (.adding e rest)
  | .gaveUp => s

/-- The state after an interleaving, the list of invocations in the order in which
their requests are answered. -/
def run (skb : ι → Packet) (order : List ι) : State ι :=
  order.foldl (step skb) start

/-- What a request can do to the state. -/
inductive Answer (skb : ι → Packet) (s : State ι) (i : ι) : State ι → Prop
  | missing (hpc : s.pc i = .lookup) (hnone : s.entries (skb i).ifname = none) :
      Answer skb s i (s.setPc i .update)
  | found (e : ℕ) (hpc : s.pc i = .lookup ∨ s.pc i = .relookup)
      (hsome : s.entries (skb i).ifname = some e) :
      Answer skb s i (s.setPc i (.adding e (adds (skb i))))
  | installed (hpc : s.pc i = .update) :
      Answer skb s i ((s.install (skb i).ifname).setPc i .relookup)
  | vanished (hpc : s.pc i = .relookup) (hnone : s.entries (skb i).ifname = none) :
      Answer skb s i (s.setPc i .gaveUp)
  | added (e : ℕ) (c : Counter) (a : UInt64) (rest : List (Counter × UInt64))
      (hpc : s.pc i = .adding e ((c, a) :: rest)) :
      Answer skb s i ((s.fetchAndAdd e c a).setPc i (.adding e rest))
  | idle (hpc : (s.pc i).returned = true) : Answer skb s i s

theorem State.record_setPc (s : State ι) (i j : ι) (p : Pc) :
    ((s.setPc i p).pc j).record = if j = i then p.record else (s.pc j).record := by
  by_cases h : j = i
  · subst j
    simp [State.setPc]
  · simp [State.setPc, h]

theorem step_answer (skb : ι → Packet) (s : State ι) (i : ι) :
    Answer skb s i (step skb s i) := by
  unfold step
  cases hpc : s.pc i with
  | lookup =>
    cases hentry : s.entries (skb i).ifname with
    | none => exact .missing hpc hentry
    | some e => exact .found e (Or.inl hpc) hentry
  | update => exact .installed hpc
  | relookup =>
    cases hentry : s.entries (skb i).ifname with
    | none => exact .vanished hpc hentry
    | some e => exact .found e (Or.inr hpc) hentry
  | adding e todo =>
    cases todo with
    | nil => exact .idle (by rw [hpc, Pc.returned])
    | cons add rest => exact .added e add.1 add.2 rest hpc
  | gaveUp => exact .idle (by rw [hpc, Pc.returned])

end NodeMonitor.NetCounters
