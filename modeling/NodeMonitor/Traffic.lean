import NodeMonitor.NetAccounts
import NodeMonitor.PacketCounts

/-!
From packets to published rates. The first poll loads the eBPF programs and attaches them
to the interfaces listed then; while the agent polls, packets are counted. A poll copies
the counters of an interface one after the other, and requests of invocations may be
answered in between. A rate times the time since the interface was last seen is what the
packets added from one reading of the counter to the next.
-/

namespace NodeMonitor.Traffic

open Baselines KeyedMaps Messages NetAccounts NetCounters NetMonitor PacketCounts Readings Runs

/-! ### Loading the programs -/

/-- Entries of `/sys/class/net` that are not monitored. -/
def skipped (ifname : String) : Bool :=
  ifname = "." || ifname = ".." || ifname = "lo" || "veth".toList.isPrefixOf ifname.toList ||
    "docker".toList.isPrefixOf ifname.toList || "br".toList.isPrefixOf ifname.toList ||
    "virbr".toList.isPrefixOf ifname.toList

/-- The surroundings of `load_ebpf_program`: the names in the directory, unless it cannot
be opened, and the calls of `attach_tc` that do not throw. -/
structure Loading where
  listing : Option (List String)
  attachTc : String → Hook → Bool

def Loading.ifaces (loading : Loading) : List String :=
  (loading.listing.getD []).filter (fun ifname => !skipped ifname)

/-- The hooks that run a program afterwards; a failed call is ignored. -/
def loadEbpfProgram (loading : Loading) : List (String × Hook) :=
  loading.ifaces.flatMap (fun iface =>
    (if loading.attachTc iface .countIngress then [(iface, .countIngress)] else []) ++
      if loading.attachTc iface .countEgress then [(iface, .countEgress)] else [])

/-- Both programs are tried on every monitored interface, whatever happens to the others. -/
theorem mem_loadEbpfProgram_iff (loading : Loading) (iface : String) (hook : Hook) :
    (iface, hook) ∈ loadEbpfProgram loading ↔
      iface ∈ loading.ifaces ∧ loading.attachTc iface hook = true := by
  simp only [loadEbpfProgram, List.mem_flatMap, List.mem_append]
  constructor
  · intro h
    obtain ⟨name, hname, hhook⟩ := h
    rcases hhook with hhook | hhook
    · split at hhook
      · rename_i hattached
        obtain ⟨rfl, rfl⟩ := Prod.mk.inj (List.mem_singleton.mp hhook)
        exact ⟨hname, hattached⟩
      · exact absurd hhook List.not_mem_nil
    · split at hhook
      · rename_i hattached
        obtain ⟨rfl, rfl⟩ := Prod.mk.inj (List.mem_singleton.mp hhook)
        exact ⟨hname, hattached⟩
      · exact absurd hhook List.not_mem_nil
  · intro h
    refine ⟨iface, h.1, ?_⟩
    cases hook with
    | countIngress => exact Or.inl (by rw [if_pos h.2]; exact List.mem_singleton.mpr rfl)
    | countEgress => exact Or.inr (by rw [if_pos h.2]; exact List.mem_singleton.mpr rfl)

/-! ### What packets add -/

variable {ι : Type}

/-- What the next request adds to a counter of an interface. -/
def added (skb : ι → Packet) (name : String) (c : Counter) (v : NetCounters.State ι × ι) : ℕ :=
  match v.1.pc v.2 with
  | .adding _ ((d, a) :: _) => if (skb v.2).ifname = name ∧ d = c then a.toNat else 0
  | _ => 0

/-- Any other request than an add adds nothing. -/
theorem added_eq_zero {skb : ι → Packet} {s : NetCounters.State ι} {i : ι}
    (h : ∀ e c a rest, s.pc i ≠ .adding e ((c, a) :: rest)) (name : String) (c : Counter) :
    added skb name c (s, i) = 0 := by
  unfold added
  cases hpc : s.pc i with
  | adding e todo =>
    cases todo with
    | nil => rfl
    | cons add rest => exact absurd hpc (h e add.1 add.2 rest)
  | _ => rfl

/-- The map holds what was added, modulo the size of a counter; nothing was added to a
record that nobody got. -/
structure Tallied (skb : ι → Packet) (s : NetCounters.State ι) (t : String → TrueStats) :
    Prop where
  current : Current skb s
  absent : ∀ name, s.entries name = none → ∀ c, t name c = 0
  counted : ∀ name e, s.entries name = some e → ∀ c,
    (s.memory e).get c = UInt64.ofNat (t name c)
  untouched : ∀ name e, s.entries name = some e → (∀ i, (s.pc i).record ≠ some e) → ∀ c,
    t name c = 0

theorem tallied_start (skb : ι → Packet) : Tallied skb NetCounters.start (fun _ _ => 0) where
  current := by
    intro i e he
    cases he
  absent _ _ _ := rfl
  counted := by
    intro name e he
    cases he
  untouched _ _ _ _ _ := rfl

variable [DecidableEq ι]

/-- What the requests of an interleaving from one position up to another add. -/
def carried (skb : ι → Packet) (order : List ι) (name : String) (c : Counter) (m n : ℕ) : ℕ :=
  ((((visits (NetCounters.step skb) NetCounters.start order).take n).drop m).map
    (added skb name c)).sum

theorem visits_take {S I : Type*} (step : S → I → S) (s : S) (inputs : List I) (n : ℕ) :
    visits step s (inputs.take n) = (visits step s inputs).take n := by
  induction inputs generalizing s n with
  | nil => simp [visits]
  | cons i rest ih =>
    cases n with
    | zero => rfl
    | succ n => simp only [List.take_succ_cons, visits, ih]

/-- What an interleaving adds from its start on. -/
def tally (skb : ι → Packet) (order : List ι) (name : String) : TrueStats := fun c =>
  ((visits (NetCounters.step skb) NetCounters.start order).map (added skb name c)).sum

theorem tally_concat (skb : ι → Packet) (order : List ι) (i : ι) (name : String) (c : Counter) :
    tally skb (order ++ [i]) name c =
      tally skb order name c + added skb name c (run skb order, i) := by
  simp [tally, visits_append, visits, run]

theorem tally_add_carried (skb : ι → Packet) (order : List ι) (name : String) (c : Counter)
    {m n : ℕ} (h : m ≤ n) :
    tally skb (order.take m) name c + carried skb order name c m n =
      tally skb (order.take n) name c := by
  have hsplit : ((visits (NetCounters.step skb) NetCounters.start order).take n).take m ++
      ((visits (NetCounters.step skb) NetCounters.start order).take n).drop m =
        (visits (NetCounters.step skb) NetCounters.start order).take n :=
    List.take_append_drop m _
  rw [List.take_take, Nat.min_eq_left h] at hsplit
  rw [tally, tally, carried, visits_take, visits_take, ← List.sum_append, ← List.map_append,
    hsplit]

/-- A request that leaves the map and its records alone keeps the tally. -/
theorem Tallied.same {skb : ι → Packet} {s u : NetCounters.State ι} {i : ι}
    {t : String → TrueStats} (h : Tallied skb s t) (hcurrent : Current skb u)
    (hu : Answer skb s i u) (hentries : u.entries = s.entries) (hmemory : u.memory = s.memory)
    (hpc : ∀ e c a rest, s.pc i ≠ .adding e ((c, a) :: rest)) :
    Tallied skb u (fun name c => t name c + added skb name c (s, i)) := by
  simp only [added_eq_zero hpc, Nat.add_zero]
  refine ⟨hcurrent, ?_, ?_, ?_⟩
  · rw [hentries]
    exact h.absent
  · rw [hentries, hmemory]
    exact h.counted
  · intro name e hentry hnobody
    rw [hentries] at hentry
    refine h.untouched name e hentry ?_
    intro j hj
    exact hnobody j (record_kept hu hj)

/-- A new record of an interface replaces none, or one that nobody got. -/
theorem Tallied.installed {skb : ι → Packet} {s : NetCounters.State ι} {i : ι}
    {t : String → TrueStats} (h : Tallied skb s t) (hwell : WellFormed skb s)
    (hkeep : ReplacesNoRecordInUse skb s i) (hpc : s.pc i = .update) :
    Tallied skb ((s.install (skb i).ifname).setPc i .relookup)
      (fun name c => t name c + added skb name c (s, i)) := by
  have hanswer : Answer skb s i ((s.install (skb i).ifname).setPc i .relookup) := .installed hpc
  have hnew : ∀ c, t (skb i).ifname c = 0 := by
    cases hentry : s.entries (skb i).ifname with
    | none => exact h.absent _ hentry
    | some e => exact h.untouched _ e hentry (hkeep hpc e hentry)
  have hentries : ((s.install (skb i).ifname).setPc i .relookup).entries =
      assign s.entries (skb i).ifname s.fresh := rfl
  have hmemory : ((s.install (skb i).ifname).setPc i .relookup).memory =
      Function.update s.memory s.fresh {} := rfl
  have hidle : ∀ e c a rest, s.pc i ≠ .adding e ((c, a) :: rest) := by
    intro e c a rest
    rw [hpc]
    simp
  simp only [added_eq_zero hidle, Nat.add_zero]
  refine ⟨h.current.answer hkeep hanswer, ?_, ?_, ?_⟩
  · intro name habsent
    rw [hentries, assign_apply] at habsent
    by_cases hname : name = (skb i).ifname
    · rw [hname]
      exact hnew
    · rw [if_neg hname] at habsent
      exact h.absent name habsent
  · intro name e hentry c
    rw [hentries, assign_apply] at hentry
    rw [hmemory]
    by_cases hname : name = (skb i).ifname
    · rw [if_pos hname] at hentry
      obtain rfl := Option.some.inj hentry
      rw [Function.update_self, NetStats.get_zero, hname, hnew]
      rfl
    · rw [if_neg hname] at hentry
      have hlt := hwell.entries_lt hentry
      rw [Function.update_of_ne (by omega)]
      exact h.counted name e hentry c
  · intro name e hentry hnobody
    rw [hentries, assign_apply] at hentry
    by_cases hname : name = (skb i).ifname
    · rw [hname]
      exact hnew
    · rw [if_neg hname] at hentry
      refine h.untouched name e hentry ?_
      intro j hj
      exact hnobody j (record_kept hanswer hj)

/-- An add to the record of an interface is an add to its tally. -/
theorem Tallied.added {skb : ι → Packet} {s : NetCounters.State ι} {i : ι}
    {t : String → TrueStats} (h : Tallied skb s t) (hwell : WellFormed skb s) {e : ℕ}
    {d : Counter} {a : UInt64} {rest : List (Counter × UInt64)}
    (hpc : s.pc i = .adding e ((d, a) :: rest))
    (hcurrent : Current skb ((s.fetchAndAdd e d a).setPc i (.adding e rest))) :
    Tallied skb ((s.fetchAndAdd e d a).setPc i (.adding e rest))
      (fun name c => t name c + added skb name c (s, i)) := by
  have hanswer : Answer skb s i ((s.fetchAndAdd e d a).setPc i (.adding e rest)) :=
    .added e d a rest hpc
  have hheld : (s.pc i).record = some e := by rw [hpc, Pc.record]
  have hown : s.entries (skb i).ifname = some e := h.current i e hheld
  have hadded : ∀ name c, Traffic.added skb name c (s, i) =
      if (skb i).ifname = name ∧ d = c then a.toNat else 0 := by
    intro name c
    simp only [Traffic.added, hpc]
  have hother : ∀ name f, s.entries name = some f → f ≠ e → ∀ c,
      Traffic.added skb name c (s, i) = 0 := by
    intro name f hentry hne c
    rw [hadded, if_neg]
    intro hsame
    rw [← hsame.1, hown] at hentry
    exact hne (Option.some.inj hentry).symm
  refine ⟨hcurrent, ?_, ?_, ?_⟩
  · intro name habsent c
    change s.entries name = none at habsent
    have hne : (skb i).ifname ≠ name := by
      intro hname
      rw [← hname, hown] at habsent
      exact absurd habsent (by simp)
    rw [h.absent name habsent, hadded, if_neg (fun hsame => hne hsame.1)]
  · intro name f hentry c
    change s.entries name = some f at hentry
    change (Function.update s.memory e ((s.memory e).fetchAndAdd a d) f).get c = _
    by_cases hf : f = e
    · subst hf
      have hname : (skb i).ifname = name := hwell.name_of_record hheld hentry
      rw [Function.update_self, NetStats.get_fetchAndAdd, h.counted name f hentry, hadded]
      by_cases hd : d = c
      · simp [hname, hd]
      · simp [hd]
    · rw [Function.update_of_ne hf, h.counted name f hentry, hother name f hentry hf,
        Nat.add_zero]
  · intro name f hentry hnobody c
    have hf : f ≠ e := by
      intro hf
      exact hnobody i (record_kept hanswer (hf ▸ hheld))
    have hzero := h.untouched name f hentry
      (fun j hj => hnobody j (record_kept hanswer hj)) c
    rw [hzero, hother name f hentry hf]

theorem Tallied.answer {skb : ι → Packet} {s u : NetCounters.State ι} {i : ι}
    {t : String → TrueStats} (h : Tallied skb s t) (hwell : WellFormed skb s)
    (hkeep : ReplacesNoRecordInUse skb s i) (hu : Answer skb s i u) :
    Tallied skb u (fun name c => t name c + Traffic.added skb name c (s, i)) := by
  have hcurrent := h.current.answer hkeep hu
  have hanswer := hu
  cases hu with
  | missing hpc _ =>
    exact h.same hcurrent hanswer rfl rfl (fun e c a rest => by rw [hpc]; simp)
  | found e hpc _ =>
    refine h.same hcurrent hanswer rfl rfl (fun e c a rest => ?_)
    rcases hpc with hpc | hpc
    · rw [hpc]
      simp
    · rw [hpc]
      simp
  | installed hpc => exact h.installed hwell hkeep hpc
  | vanished hpc _ =>
    exact h.same hcurrent hanswer rfl rfl (fun e c a rest => by rw [hpc]; simp)
  | added e d a rest hpc => exact h.added hwell hpc hcurrent
  | idle hpc =>
    refine h.same hcurrent hanswer rfl rfl (fun e c a rest hadding => ?_)
    rw [hadding] at hpc
    exact absurd hpc (by simp [Pc.returned])

/-- No update replaces a record that an invocation already got. -/
def KeepsRecords (skb : ι → Packet) (order : List ι) : Prop :=
  ∀ p ∈ visits (NetCounters.step skb) NetCounters.start order, ReplacesNoRecordInUse skb p.1 p.2

theorem tallied_run (skb : ι → Packet) (order : List ι) (hkeep : KeepsRecords skb order) :
    Tallied skb (run skb order) (tally skb order) := by
  induction order using List.reverseRecOn with
  | nil => exact tallied_start skb
  | append_singleton order i ih =>
    have hvisits : visits (NetCounters.step skb) NetCounters.start (order ++ [i]) =
        visits (NetCounters.step skb) NetCounters.start order ++ [(run skb order, i)] := by
      simp [visits_append, visits, run]
    have hbefore : KeepsRecords skb order := by
      intro p hp
      exact hkeep p (by rw [hvisits]; exact List.mem_append_left _ hp)
    have hlast : ReplacesNoRecordInUse skb (run skb order) i :=
      hkeep (run skb order, i) (by rw [hvisits]; simp)
    have hrun : run skb (order ++ [i]) = NetCounters.step skb (run skb order) i := by
      simp [run, List.foldl_append]
    have htally : tally skb (order ++ [i]) = fun name c =>
        tally skb order name c + added skb name c (run skb order, i) := by
      funext name c
      exact tally_concat skb order i name c
    rw [hrun, htally]
    exact (ih hbefore).answer (wellFormed_run skb order) hlast (step_answer skb _ i)

theorem KeepsRecords.take {skb : ι → Packet} {order : List ι} (h : KeepsRecords skb order)
    (n : ℕ) : KeepsRecords skb (order.take n) := by
  intro p hp
  rw [visits_take] at hp
  exact h p (List.mem_of_mem_take hp)

/-- The map lists an interface only after a packet on it. -/
theorem packet_of_entry (skb : ι → Packet) (order : List ι) (name : String) {e : ℕ}
    (h : (run skb order).entries name = some e) : ∃ i ∈ order, (skb i).ifname = name := by
  induction order using List.reverseRecOn generalizing e with
  | nil => exact absurd h (by simp [run, NetCounters.start])
  | append_singleton order i ih =>
    have hrun : run skb (order ++ [i]) = NetCounters.step skb (run skb order) i := by
      simp [run, List.foldl_append]
    rw [hrun] at h
    have hkept {f : ℕ} (hold : (run skb order).entries name = some f) :
        ∃ j ∈ order ++ [i], (skb j).ifname = name := by
      obtain ⟨j, hj, hname⟩ := ih hold
      exact ⟨j, List.mem_append_left _ hj, hname⟩
    rcases entries_answer (step_answer skb (run skb order) i) with hsame | ⟨_, hassign⟩
    · rw [hsame] at h
      exact hkept h
    · rw [hassign, assign_apply] at h
      by_cases hname : name = (skb i).ifname
      · exact ⟨i, by simp, hname.symm⟩
      · rw [if_neg hname] at h
        exact hkept h

/-! ### Polls -/

/-- A poll: the clock, the interfaces it finds in the map, and for each of their counters
how many requests had been answered when it was copied. -/
structure Pass where
  now : ℤ
  names : List String
  nodup : names.Nodup
  moment : String → Counter → ℕ

def collect (value : Counter → UInt64) : NetStats where
  rcvBytes := value .rcvBytes
  rcvPackets := value .rcvPackets
  sndBytes := value .sndBytes
  sndPackets := value .sndPackets
  errIn := value .errIn
  errOut := value .errOut
  dropIn := value .dropIn
  dropOut := value .dropOut

/-- What a poll copies, counter by counter. -/
def Pass.table (skb : ι → Packet) (order : List ι) (p : Pass) : StatsTable where
  rows := p.names.map (fun name => (name, collect (fun c =>
    (((run skb (order.take (p.moment name c))).stats name).getD {}).get c)))
  nodup := by
    rw [List.map_map]
    exact (List.map_id p.names).symm ▸ p.nodup

/-- Packets and polls of one agent. Only hooked packets run a program; the map holds a
record of every interface that a poll finds; and no poll begins before the last one is over. -/
structure Session (skb : ι → Packet) where
  loading : Loading
  order : List ι
  passes : List Pass
  hooked : ∀ i ∈ order, ((skb i).ifname, (skb i).hook) ∈ loadEbpfProgram loading
  listed : ∀ p ∈ passes, ∀ name ∈ p.names, ∀ c,
    ((run skb (order.take (p.moment name c))).stats name).isSome
  sequential : passes.Pairwise (fun p q => ∀ name ∈ p.names, name ∈ q.names → ∀ c,
    p.moment name c ≤ q.moment name c)

variable {skb : ι → Packet}

/-- The agent's cache after a poll, and the message it fills. -/
def Session.publish (session : Session skb) (s : NetMonitor.State) (p : Pass) :
    NetMonitor.State × MonitorInfo :=
  updateOnce s p.now (p.table skb session.order) MonitorInfo.default

def Session.cache (session : Session skb) (passes : List Pass) : NetMonitor.State :=
  passes.foldl (fun s p => (session.publish s p).1) empty

/-- What a poll sees of an interface, without the limits of a counter. -/
def Session.seen (session : Session skb) (name : String) (p : Pass) : Sighting where
  now := p.now
  stats := fun c => tally skb (session.order.take (p.moment name c)) name c

def Session.found (session : Session skb) (name : String) (p : Pass) : Option Sighting :=
  if name ∈ p.names then some (session.seen name p) else none

/-- A poll with unbounded counters. -/
def Session.truePoll (session : Session skb) (p : Pass) : TruePoll where
  now := p.now
  rows := p.names.map (fun name => (name, (session.seen name p).stats))
  nodup := by
    rw [List.map_map]
    exact (List.map_id p.names).symm ▸ p.nodup

theorem Session.table_eq (session : Session skb) (hkeep : KeepsRecords skb session.order)
    {p : Pass} (hp : p ∈ session.passes) :
    p.table skb session.order = (session.truePoll p).table := by
  have hrows : (p.table skb session.order).rows = (session.truePoll p).table.rows := by
    simp only [Pass.table, TruePoll.table, truePoll, List.map_map]
    apply List.map_congr_left
    intro name hname
    have hvalue : ∀ c, (((run skb (session.order.take (p.moment name c))).stats name).getD {}).get
        c = UInt64.ofNat ((session.seen name p).stats c) := by
      intro c
      obtain ⟨stats, hstats⟩ := Option.isSome_iff_exists.mp (session.listed p hp name hname c)
      obtain ⟨e, hentry, hmemory⟩ := Option.map_eq_some_iff.mp hstats
      rw [hstats, Option.getD_some, ← hmemory]
      exact (tallied_run skb _ (hkeep.take _)).counted name e hentry c
    simp only [Function.comp_apply, hvalue]
    rfl
  cases htable : p.table skb session.order with
  | mk rows nodup =>
    rw [htable] at hrows
    cases htrue : (session.truePoll p).table with
    | mk trueRows _ =>
      rw [htrue] at hrows
      subst hrows
      rfl

theorem Session.publish_eq (session : Session skb) (hkeep : KeepsRecords skb session.order)
    (s : NetMonitor.State) {p : Pass} (hp : p ∈ session.passes) :
    session.publish s p = NetAccounts.publish s (session.truePoll p) := by
  rw [publish, session.table_eq hkeep hp]
  rfl

theorem Session.sighting_truePoll (session : Session skb) (name : String) (p : Pass) :
    sighting name (session.truePoll p) = session.found name p := by
  have hfind : p.names.find? (fun found => found = name) =
      if name ∈ p.names then some name else none := by
    split
    · rename_i hmem
      obtain ⟨found, hfound⟩ : ∃ found, p.names.find? (fun found => found = name) = some found := by
        rw [← Option.isSome_iff_exists, List.find?_isSome]
        exact ⟨name, hmem, by simp⟩
      have hname : found = name := by simpa using List.find?_some hfound
      rw [hfound, hname]
    · rename_i hmem
      rw [List.find?_eq_none]
      intro found hfound
      simpa using fun heq : found = name => hmem (heq ▸ hfound)
  simp only [sighting, TruePoll.stats, truePoll, found, List.find?_map, Function.comp_def, hfind]
  split
  · rfl
  · rfl

/-- The cache holds what the last poll that found an interface saw of it. -/
theorem Session.cache_apply (session : Session skb) (hkeep : KeepsRecords skb session.order)
    {before : List Pass} (hbefore : ∀ p ∈ before, p ∈ session.passes) (name : String) :
    session.cache before name =
      ((before.filterMap (session.found name)).getLast?).map (Sighting.record name) := by
  have hcache : session.cache before =
      (before.map session.truePoll).foldl NetAccounts.step empty := by
    rw [cache, List.foldl_map]
    apply List.foldl_ext
    intro s p hp
    rw [session.publish_eq hkeep s (hbefore p hp)]
    rfl
  have hview := view_foldl NetAccounts.step (fun s => s name) (sighting name)
    (Sighting.record name) (fun s poll => step_apply s poll name) none empty rfl
    (before.map session.truePoll)
  rw [hcache, hview, Option.or_none, List.filterMap_map]
  congr 2
  apply List.filterMap_congr
  intro p _
  exact session.sighting_truePoll name p

/-- The entry for an interface, compared with an earlier record of it. -/
def Session.entry (session : Session skb) (q : Pass) (name : String)
    (last : Option LastNetInfo) : NetInfo :=
  netInfo last ((session.seen name q).record name).toNetStat q.now

@[simp]
theorem Session.name_entry (session : Session skb) (q : Pass) (name : String)
    (last : Option LastNetInfo) : (session.entry q name last).name = name := by
  rw [entry, name_netInfo]
  rfl

/-- Every interface found is compared with what the cache holds for it. -/
theorem Session.netInfo_publish (session : Session skb) (hkeep : KeepsRecords skb session.order)
    (s : NetMonitor.State) {q : Pass} (hq : q ∈ session.passes) :
    (session.publish s q).2.netInfo = q.names.map (fun name => session.entry q name (s name)) := by
  rw [session.publish_eq hkeep s hq, NetAccounts.publish, netInfo_updateOnce_eq,
    MonitorInfo.default, List.nil_append, ebpfGetNetStats, TruePoll.table, truePoll,
    List.map_map, List.map_map, List.map_map]
  rfl

theorem Session.filterMap_found_eq_nil (session : Session skb) {name : String}
    {passes : List Pass} (hunseen : ∀ p ∈ passes, name ∉ p.names) :
    passes.filterMap (session.found name) = [] := by
  rw [List.filterMap_eq_nil_iff]
  intro p hp
  exact if_neg (hunseen p hp)

/-- A rate times the distance of two polls is what the packets added in between. -/
theorem Session.rate_mul_secondsSince (session : Session skb) (name : String) {p q : Pass}
    (hclock : p.now < q.now) (c : Counter) (hmoments : p.moment name c ≤ q.moment name c) :
    rate (session.entry q name (some ((session.seen name p).record name))) c *
        secondsSince q.now p.now * unit c =
      (carried skb session.order name c (p.moment name c) (q.moment name c) % 2 ^ 64 : ℕ) := by
  have hdelta : delta (((session.seen name q).record name).get c)
      (((session.seen name p).record name).get c) =
        (carried skb session.order name c (p.moment name c) (q.moment name c) % 2 ^ 64 : ℕ) := by
    rw [Sighting.record, Sighting.record, get_residue, get_residue]
    change delta (UInt64.ofNat (tally skb (session.order.take (q.moment name c)) name c))
      (UInt64.ofNat (tally skb (session.order.take (p.moment name c)) name c)) = _
    rw [← tally_add_carried skb session.order name c hmoments, UInt64.ofNat_add,
      delta_add_ofNat]
  rw [entry, rate_netInfo hclock, hdelta]
  change _ / unit c / secondsSince q.now p.now * _ * _ = _
  rw [div_mul_cancel₀ _ (secondsSince_pos hclock).ne', div_mul_cancel₀ _ (unit_ne_zero c)]

/-- An interface in the map has a program attached to it. -/
theorem Session.monitored (session : Session skb) {q : Pass} (hq : q ∈ session.passes)
    {name : String} (hname : name ∈ q.names) :
    ∃ hook, (name, hook) ∈ loadEbpfProgram session.loading := by
  obtain ⟨stats, hstats⟩ := Option.isSome_iff_exists.mp (session.listed q hq name hname .rcvBytes)
  obtain ⟨e, he, _⟩ := Option.map_eq_some_iff.mp hstats
  obtain ⟨i, hi, rfl⟩ := packet_of_entry skb _ name he
  exact ⟨(skb i).hook, session.hooked i (List.mem_of_mem_take hi)⟩

/-- What a message says of the interfaces: those found, a program attached to each of them;
without rates at their first appearance; and from then on, when the clock has advanced, with
the traffic since the last one. -/
structure Reports (session : Session skb) (before : List Pass) (q : Pass)
    (entries : List NetInfo) : Prop where
  names : entries.map NetInfo.name = q.names
  monitored : ∀ entry ∈ entries, ∃ hook, (entry.name, hook) ∈ loadEbpfProgram session.loading
  first : ∀ entry ∈ entries, (∀ p ∈ before, entry.name ∉ p.names) → ∀ c, rate entry c = 0
  traffic : ∀ entry ∈ entries, ∀ earlier p later, before = earlier ++ p :: later →
    entry.name ∈ p.names → (∀ r ∈ later, entry.name ∉ r.names) → p.now < q.now → ∀ c,
      rate entry c * secondsSince q.now p.now * unit c = (carried skb session.order entry.name c
        (p.moment entry.name c) (q.moment entry.name c) % 2 ^ 64 : ℕ)

/-- In every interleaving of packets and polls without an update that replaces a record in
use, every message reports the interfaces its poll found. -/
theorem rates_report_packets (session : Session skb) (hkeep : KeepsRecords skb session.order)
    (before : List Pass) (q : Pass) (after : List Pass)
    (hsplit : session.passes = before ++ q :: after) :
    Reports session before q (session.publish (session.cache before) q).2.netInfo := by
  have hq : q ∈ session.passes := by simp [hsplit]
  have hbefore : ∀ p ∈ before, p ∈ session.passes := by
    intro p hp
    simp [hsplit, hp]
  rw [session.netInfo_publish hkeep _ hq]
  refine ⟨?_, ?_, ?_, ?_⟩
  · simp [Function.comp_def]
  · intro entry hentry
    obtain ⟨name, hname, rfl⟩ := List.mem_map.mp hentry
    rw [session.name_entry]
    exact session.monitored hq hname
  · intro entry hentry hunseen c
    obtain ⟨name, _, rfl⟩ := List.mem_map.mp hentry
    rw [session.name_entry] at hunseen
    rw [session.cache_apply hkeep hbefore, session.filterMap_found_eq_nil hunseen]
    cases c <;> rfl
  · intro entry hentry earlier p later hlast hseen hunseen hclock c
    obtain ⟨name, hname, rfl⟩ := List.mem_map.mp hentry
    rw [session.name_entry] at hseen hunseen ⊢
    have hfound : session.found name p = some (session.seen name p) := if_pos hseen
    have hcached : session.cache before name = some ((session.seen name p).record name) := by
      rw [session.cache_apply hkeep hbefore, hlast, List.filterMap_append,
        List.filterMap_cons_some hfound, session.filterMap_found_eq_nil hunseen,
        List.getLast?_concat]
      rfl
    have hmoments : p.moment name c ≤ q.moment name c := by
      have hpairs := session.sequential
      rw [hsplit, hlast] at hpairs
      exact (List.pairwise_append.mp hpairs).2.2 p (by simp) q (by simp) name hseen hname c
    rw [hcached]
    exact session.rate_mul_secondsSince name hclock c hmoments

/-- One packet on one interface, first seen when its record is there and still empty. -/
def onePacket : Session (fun _ : Unit => ⟨.countIngress, "eth0", 60, 0, 0, 0⟩) where
  loading := ⟨some [".", "..", "lo", "eth0"], fun _ _ => true⟩
  order := List.replicate 7 ()
  passes := [⟨0, ["eth0"], List.nodup_singleton _, fun _ _ => 3⟩,
    ⟨2000000000, ["eth0"], List.nodup_singleton _, fun _ _ => 7⟩]
  hooked := by decide
  listed := by
    intro p hp name hname c
    rcases List.mem_pair.mp hp with rfl | rfl
    · obtain rfl := List.mem_singleton.mp hname
      rfl
    · obtain rfl := List.mem_singleton.mp hname
      rfl
  sequential := by
    refine List.pairwise_pair.mpr ?_
    intro _ _ _ _
    exact Nat.le_of_lt (by omega : 3 < 7)

/-- Sixty bytes in two seconds. -/
theorem rates_report_packets_one :
    Reports onePacket [⟨0, ["eth0"], List.nodup_singleton _, fun _ _ => 3⟩]
      ⟨2000000000, ["eth0"], List.nodup_singleton _, fun _ _ => 7⟩
      (onePacket.publish (onePacket.cache [⟨0, ["eth0"], List.nodup_singleton _, fun _ _ => 3⟩])
        ⟨2000000000, ["eth0"], List.nodup_singleton _, fun _ _ => 7⟩).2.netInfo ∧
      carried (fun _ : Unit => ⟨.countIngress, "eth0", 60, 0, 0, 0⟩) onePacket.order "eth0"
        .rcvBytes 3 7 = 60 := by
  refine ⟨rates_report_packets onePacket ?_ _ _ [] rfl, by decide⟩
  exact replacesNoRecordInUse_of_injective _ (fun _ _ _ => rfl) _

end NodeMonitor.Traffic
