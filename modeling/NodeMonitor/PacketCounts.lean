import NodeMonitor.NetCounters
import NodeMonitor.Runs

/-!
What the packet counters hold once every invocation has returned. Each record
balances: its counters and the adds still owed to it make up the packets of the
invocations that got it. The map's record of an interface therefore counts every
packet exactly when no update replaces a record that an invocation already got.
-/

namespace NodeMonitor.PacketCounts

open KeyedMaps ProcessSums NetCounters Runs
open scoped UInt64.CommRing

variable {ι : Type}

/-! ### The records and their holders -/

/-- The map holds installed records only, one name each; an invocation past its
first lookup and update finds its interface in the map. -/
structure WellFormed (skb : ι → Packet) (s : State ι) : Prop where
  entries_lt : ∀ {x e}, s.entries x = some e → e < s.fresh
  record_lt : ∀ {i e}, (s.pc i).record = some e → e < s.fresh
  entries_injective : ∀ {x y e}, s.entries x = some e → s.entries y = some e → x = y
  name_of_record : ∀ {i x e}, (s.pc i).record = some e → s.entries x = some e →
    (skb i).ifname = x
  present : ∀ {i}, s.pc i ≠ .lookup → s.pc i ≠ .update →
    s.entries (skb i).ifname ≠ none ∧ s.pc i ≠ .gaveUp

theorem wellFormed_start (skb : ι → Packet) : WellFormed skb start where
  entries_lt := by intro x e h; cases h
  record_lt := by intro i e h; cases h
  entries_injective := by intro x y e h; cases h
  name_of_record := by intro i x e h; cases h
  present := by intro i h; exact absurd rfl h

/-- An update gives one name a new record and leaves the other entries alone. -/
theorem entries_install {s : State ι} {ifname x : String} {e : ℕ}
    (h : (s.install ifname).entries x = some e) :
    x = ifname ∧ e = s.fresh ∨ s.entries x = some e := by
  simp only [State.install, assign_apply] at h
  by_cases hname : x = ifname
  · rw [if_pos hname, Option.some.injEq] at h
    exact Or.inl ⟨hname, h.symm⟩
  · rw [if_neg hname] at h
    exact Or.inr h

theorem WellFormed.install {skb : ι → Packet} {s : State ι} (h : WellFormed skb s)
    (ifname : String) : WellFormed skb (s.install ifname) := by
  have hfresh : (s.install ifname).fresh = s.fresh + 1 := rfl
  constructor
  · intro x e hx
    rcases entries_install hx with ⟨_, hnew⟩ | hold
    · omega
    · have hlt := h.entries_lt hold
      omega
  · intro i e he
    have hlt := h.record_lt he
    omega
  · intro x y e hx hy
    rcases entries_install hx with ⟨hxname, hxnew⟩ | hxold
    · rcases entries_install hy with ⟨hyname, _⟩ | hyold
      · rw [hxname, hyname]
      · have hlt := h.entries_lt hyold
        omega
    · rcases entries_install hy with ⟨_, hynew⟩ | hyold
      · have hlt := h.entries_lt hxold
        omega
      · exact h.entries_injective hxold hyold
  · intro i x e he hx
    have hlt := h.record_lt he
    rcases entries_install hx with ⟨_, hnew⟩ | hold
    · omega
    · exact h.name_of_record he hold
  · intro i hlookup hupdate
    have hold := h.present hlookup hupdate
    refine ⟨?_, hold.2⟩
    simp only [State.install, assign_apply]
    by_cases hname : (skb i).ifname = ifname
    · simp [hname]
    · simpa [hname] using hold.1

theorem WellFormed.fetchAndAdd {skb : ι → Packet} {s : State ι} (h : WellFormed skb s)
    (e : ℕ) (c : Counter) (a : UInt64) : WellFormed skb (s.fetchAndAdd e c a) where
  entries_lt := h.entries_lt
  record_lt := h.record_lt
  entries_injective := h.entries_injective
  name_of_record := h.name_of_record
  present := h.present

variable [DecidableEq ι]

/-- A step that leaves the map alone and moves one invocation to a record of the
map, or to no record, keeps the state well formed. -/
theorem WellFormed.setPc {skb : ι → Packet} {s : State ι} (h : WellFormed skb s) (i : ι) (p : Pc)
    (hrecord : ∀ e, p.record = some e →
      s.entries (skb i).ifname = some e ∨ (s.pc i).record = some e)
    (hpresent : p ≠ .lookup → p ≠ .update →
      s.entries (skb i).ifname ≠ none ∧ p ≠ .gaveUp) :
    WellFormed skb (s.setPc i p) := by
  have hsource : ∀ {j e}, ((s.setPc i p).pc j).record = some e →
      s.entries (skb j).ifname = some e ∨ (s.pc j).record = some e := by
    intro j e he
    rw [State.record_setPc] at he
    by_cases hj : j = i
    · subst j
      rw [if_pos rfl] at he
      exact hrecord e he
    · rw [if_neg hj] at he
      exact Or.inr he
  constructor
  · exact h.entries_lt
  · intro j e he
    rcases hsource he with hentry | hheld
    · exact h.entries_lt hentry
    · exact h.record_lt hheld
  · exact h.entries_injective
  · intro j x e he hx
    rcases hsource he with hentry | hheld
    · exact h.entries_injective hentry hx
    · exact h.name_of_record hheld hx
  · intro j hlookup hupdate
    by_cases hj : j = i
    · subst j
      simp only [State.setPc, Function.update_self] at hlookup hupdate ⊢
      exact hpresent hlookup hupdate
    · simp only [State.setPc, Function.update_of_ne hj] at hlookup hupdate ⊢
      exact h.present hlookup hupdate

theorem WellFormed.answer {skb : ι → Packet} {s t : State ι} {i : ι} (h : WellFormed skb s)
    (ht : Answer skb s i t) : WellFormed skb t := by
  cases ht with
  | missing hpc hnone =>
    apply h.setPc
    · intro e he
      cases he
    · intro _ hupdate
      exact absurd rfl hupdate
  | found e hpc hsome =>
    apply h.setPc
    · intro f hf
      cases hf
      exact Or.inl hsome
    · intro _ _
      exact ⟨by rw [hsome]; simp, by simp⟩
  | installed hpc =>
    apply (h.install _).setPc
    · intro e he
      cases he
    · intro _ _
      exact ⟨by simp [State.install], by simp⟩
  | vanished hpc hnone =>
    have hpresent := (h.present (by rw [hpc]; simp) (by rw [hpc]; simp)).1
    exact absurd hnone hpresent
  | added e c a rest hpc =>
    apply (h.fetchAndAdd e c a).setPc
    · intro f hf
      cases hf
      exact Or.inr (by rw [State.fetchAndAdd, hpc, Pc.record])
    · intro _ _
      have hpresent := h.present (i := i) (by rw [hpc]; simp) (by rw [hpc]; simp)
      exact ⟨hpresent.1, by simp⟩
  | idle hpc => exact h

theorem wellFormed_run (skb : ι → Packet) (order : List ι) : WellFormed skb (run skb order) :=
  foldl_invariant (step skb) (WellFormed skb) (fun s i h => h.answer (step_answer skb s i)) _
    order (wellFormed_start skb)

theorem wellFormed_visited (skb : ι → Packet) (order : List ι) {v : State ι × ι}
    (hv : v ∈ visits (step skb) start order) : WellFormed skb v.1 :=
  invariant_of_mem_visits (step skb) (WellFormed skb)
    (fun s i h => h.answer (step_answer skb s i)) _ order (wellFormed_start skb) hv

/-! ### Replaced records -/

/-- Only an update changes what the map holds. -/
theorem entries_answer {skb : ι → Packet} {s t : State ι} {i : ι} (ht : Answer skb s i t) :
    t.entries = s.entries ∨
      s.pc i = .update ∧ t.entries = assign s.entries (skb i).ifname s.fresh := by
  cases ht with
  | installed hpc => exact Or.inr ⟨hpc, rfl⟩
  | _ => exact Or.inl rfl

/-- A request changes what its own invocation holds. -/
theorem record_answer_of_ne {skb : ι → Packet} {s t : State ι} {i j : ι} (ht : Answer skb s i t)
    (hj : j ≠ i) : (t.pc j).record = (s.pc j).record := by
  cases ht <;> simp only [State.record_setPc, hj, if_false, State.pc_install,
    State.pc_fetchAndAdd]

/-- An invocation gets a record only from the map. -/
theorem record_answer {skb : ι → Packet} {s t : State ι} {i : ι} (ht : Answer skb s i t) {j : ι}
    {e : ℕ} (he : (t.pc j).record = some e) :
    (s.pc j).record = some e ∨ t.entries (skb j).ifname = some e := by
  by_cases hj : j = i
  · subst j
    cases ht with
    | missing hpc hnone =>
      rw [State.record_setPc, if_pos rfl] at he
      cases he
    | found f hpc hsome =>
      rw [State.record_setPc, if_pos rfl] at he
      exact Or.inr (hsome.trans he)
    | installed hpc =>
      rw [State.record_setPc, if_pos rfl] at he
      cases he
    | vanished hpc hnone =>
      rw [State.record_setPc, if_pos rfl] at he
      cases he
    | added f c a rest hpc =>
      rw [State.record_setPc, if_pos rfl] at he
      exact Or.inl (by rw [hpc]; exact he)
    | idle hpc => exact Or.inl he
  · left
    rwa [record_answer_of_ne ht hj] at he

/-- An invocation keeps the record it got. -/
theorem record_kept {skb : ι → Packet} {s t : State ι} {i : ι} (ht : Answer skb s i t) {j : ι}
    {e : ℕ} (he : (s.pc j).record = some e) : (t.pc j).record = some e := by
  by_cases hj : j = i
  · subst j
    cases ht with
    | missing hpc hnone => simp [hpc, Pc.record] at he
    | found f hpc hsome => rcases hpc with hpc | hpc <;> simp [hpc, Pc.record] at he
    | installed hpc => simp [hpc, Pc.record] at he
    | vanished hpc hnone => simp [hpc, Pc.record] at he
    | added f c a rest hpc =>
      rw [hpc] at he
      rw [State.record_setPc, if_pos rfl]
      exact he
    | idle hpc => exact he
  · rwa [record_answer_of_ne ht hj]

/-- The next request is no update that replaces a record an invocation already got. -/
def ReplacesNoRecordInUse (skb : ι → Packet) (s : State ι) (i : ι) : Prop :=
  s.pc i = .update → ∀ e, s.entries (skb i).ifname = some e → ∀ j, (s.pc j).record ≠ some e

/-- Every record an invocation got is still the map's record of its interface. -/
def Current (skb : ι → Packet) (s : State ι) : Prop :=
  ∀ i e, (s.pc i).record = some e → s.entries (skb i).ifname = some e

theorem Current.answer {skb : ι → Packet} {s t : State ι} {i : ι} (h : Current skb s)
    (hkeep : ReplacesNoRecordInUse skb s i) (ht : Answer skb s i t) : Current skb t := by
  intro j e he
  rcases record_answer ht he with hold | hnew
  · have hentry := h j e hold
    rcases entries_answer ht with hsame | ⟨hpc, hassign⟩
    · rw [hsame, hentry]
    · have hne : (skb j).ifname ≠ (skb i).ifname := by
        intro hname
        rw [hname] at hentry
        exact hkeep hpc e hentry j hold
      rw [hassign, assign_of_ne _ _ hne, hentry]
  · exact hnew

/-- An update that replaces a record in use leaves its holder behind. -/
theorem not_current_of_replaced {skb : ι → Packet} {s t : State ι} {i : ι}
    (hwell : WellFormed skb s) (hkeep : ¬ ReplacesNoRecordInUse skb s i)
    (ht : Answer skb s i t) : ¬ Current skb t := by
  intro h
  simp only [ReplacesNoRecordInUse, not_forall, not_not] at hkeep
  obtain ⟨hpc, e, hentry, j, hj⟩ := hkeep
  have hlt := hwell.entries_lt hentry
  have hcurrent := h j e (record_kept ht hj)
  rw [hwell.name_of_record hj hentry] at hcurrent
  cases ht with
  | installed _ =>
    simp only [State.setPc, State.install, assign_self, Option.some.injEq] at hcurrent
    omega
  | missing hpc' _ => simp [hpc] at hpc'
  | found _ hpc' _ => simp [hpc] at hpc'
  | vanished hpc' _ => simp [hpc] at hpc'
  | added _ _ _ _ hpc' => simp [hpc] at hpc'
  | idle hpc' => simp [hpc, Pc.returned] at hpc'

/-- A holder left behind stays behind: the map never gets an old record back. -/
theorem not_current_answer {skb : ι → Packet} {s t : State ι} {i : ι} (hwell : WellFormed skb s)
    (h : ¬ Current skb s) (ht : Answer skb s i t) : ¬ Current skb t := by
  intro hcurrent
  apply h
  intro j e he
  have hlt := hwell.record_lt he
  have hentry := hcurrent j e (record_kept ht he)
  rcases entries_answer ht with hsame | ⟨_, hassign⟩
  · rwa [hsame] at hentry
  · rw [hassign, assign_apply] at hentry
    split at hentry
    · cases hentry
      omega
    · exact hentry

theorem current_run_iff (skb : ι → Packet) (order : List ι) :
    Current skb (run skb order) ↔
      ∀ p ∈ visits (step skb) start order, ReplacesNoRecordInUse skb p.1 p.2 := by
  constructor
  · intro h p hp
    by_contra hkeep
    obtain ⟨pre, post, heq, hstate⟩ := (mem_visits_iff (step skb) start p.1 p.2 order).mp hp
    have hwell := wellFormed_visited skb order hp
    have hanswer := step_answer skb p.1 p.2
    have hlost := foldl_invariant (step skb) (fun s => WellFormed skb s ∧ ¬ Current skb s)
      (fun s i hs => ⟨hs.1.answer (step_answer skb s i),
        not_current_answer hs.1 hs.2 (step_answer skb s i)⟩)
      (step skb p.1 p.2) post
      ⟨hwell.answer hanswer, not_current_of_replaced hwell hkeep hanswer⟩
    apply hlost.2
    have hrun : run skb order = post.foldl (step skb) (step skb p.1 p.2) := by
      rw [run, heq, List.foldl_append, List.foldl_cons, ← hstate]
    rwa [← hrun]
  · intro h
    refine foldl_invariant_of_visits (step skb) (Current skb) (ReplacesNoRecordInUse skb) ?_ _
      order h ?_
    · intro s i hkeep hs
      exact hs.answer hkeep (step_answer skb s i)
    · intro i e he
      cases he

/-- Invocations on different interfaces never replace each other's records. -/
theorem replacesNoRecordInUse_of_injective (skb : ι → Packet)
    (hinjective : ∀ i j, (skb i).ifname = (skb j).ifname → i = j) (order : List ι) :
    ∀ p ∈ visits (step skb) start order, ReplacesNoRecordInUse skb p.1 p.2 := by
  intro p hp hpc e hentry j hj
  have hwell := wellFormed_visited skb order hp
  have hsame := hinjective j p.2 (hwell.name_of_record hj hentry)
  rw [hsame, hpc] at hj
  cases hj

/-! ### The balance of a record -/

def amount (c : Counter) : List (Counter × UInt64) → UInt64
  | [] => 0
  | (d, a) :: rest => (if d = c then a else 0) + amount c rest

/-- What an invocation still owes to a record. -/
def owed (e : ℕ) (c : Counter) (p : Pc) : UInt64 :=
  if p.record = some e then amount c p.todo else 0

/-- What a record gets from an invocation in the end. -/
def credit (skb : ι → Packet) (e : ℕ) (c : Counter) (i : ι) (p : Pc) : UInt64 :=
  if p.record = some e then amount c (adds (skb i)) else 0

variable [Fintype ι]

def Balanced (skb : ι → Packet) (s : State ι) : Prop :=
  ∀ e c, (s.memory e).get c + ∑ i, owed e c (s.pc i) = ∑ i, credit skb e c i (s.pc i)

omit [DecidableEq ι] in
theorem balanced_start (skb : ι → Packet) : Balanced skb start := by
  intro e c
  simp [start, owed, credit, Pc.record]

/-- Moving an invocation keeps the balance when it changes debt and credit alike. -/
theorem Balanced.setPc {skb : ι → Packet} {s : State ι} (h : Balanced skb s) (i : ι) (p : Pc)
    (hmove : ∀ e c, owed e c p + credit skb e c i (s.pc i) =
      owed e c (s.pc i) + credit skb e c i p) :
    Balanced skb (s.setPc i p) := by
  intro e c
  have howed := sum_update (fun _ => owed e c) s.pc i p
  have hcredit := sum_update (credit skb e c) s.pc i p
  have hbalance := h e c
  have hrest := hmove e c
  simp only [State.setPc]
  grind

omit [DecidableEq ι] in
/-- A new record is empty, and nobody has got it yet. -/
theorem Balanced.install {skb : ι → Packet} {s : State ι} (h : Balanced skb s)
    (hwell : WellFormed skb s) (ifname : String) : Balanced skb (s.install ifname) := by
  intro e c
  by_cases he : e = s.fresh
  · subst e
    have hnone : ∀ i, (s.pc i).record ≠ some s.fresh := by
      intro i hi
      have hlt := hwell.record_lt hi
      omega
    simp [State.install, owed, credit, hnone]
  · have hmemory : (s.install ifname).memory e = s.memory e := by
      simp [State.install, he]
    rw [hmemory]
    exact h e c

/-- A paid add moves from the debt to the record. -/
theorem Balanced.pay {skb : ι → Packet} {s : State ι} (h : Balanced skb s) (i : ι) (e : ℕ)
    (c : Counter) (a : UInt64) (rest : List (Counter × UInt64))
    (hpc : s.pc i = .adding e ((c, a) :: rest)) :
    Balanced skb ((s.fetchAndAdd e c a).setPc i (.adding e rest)) := by
  intro f d
  have howed := sum_update (fun _ => owed f d) s.pc i (.adding e rest)
  have hcredit := sum_update_of_eq (credit skb f d) s.pc i (.adding e rest)
    (by rw [hpc]; rfl)
  have hbalance := h f d
  have hmemory : ((s.fetchAndAdd e c a).memory f).get d =
      (s.memory f).get d + if f = e ∧ c = d then a else 0 := by
    by_cases hf : f = e
    · subst f
      simp [State.fetchAndAdd, NetStats.get_fetchAndAdd]
    · simp [State.fetchAndAdd, hf]
  have hpaid : owed f d (s.pc i) =
      owed f d (.adding e rest) + if f = e ∧ c = d then a else 0 := by
    rw [hpc]
    by_cases hf : f = e
    · subst f
      simp only [owed, Pc.record, Pc.todo, amount, if_true, true_and]
      exact add_comm _ _
    · simp [owed, Pc.record, hf, Ne.symm hf]
  change ((s.fetchAndAdd e c a).memory f).get d +
    ∑ j, owed f d (Function.update s.pc i (.adding e rest) j) =
      ∑ j, credit skb f d j (Function.update s.pc i (.adding e rest) j)
  rw [hcredit, hmemory]
  grind

theorem Balanced.answer {skb : ι → Packet} {s t : State ι} {i : ι} (h : Balanced skb s)
    (hwell : WellFormed skb s) (ht : Answer skb s i t) : Balanced skb t := by
  cases ht with
  | missing hpc hnone =>
    apply h.setPc
    intro e c
    rw [hpc]
    rfl
  | found e hpc hsome =>
    apply h.setPc
    intro f c
    rcases hpc with hpc | hpc <;> simp [hpc, owed, credit, Pc.record, Pc.todo]
  | installed hpc =>
    apply (h.install hwell _).setPc
    intro e c
    have hold : (s.install (skb i).ifname).pc i = .update := hpc
    rw [hold]
    rfl
  | vanished hpc hnone =>
    apply h.setPc
    intro e c
    rw [hpc]
    rfl
  | added e c a rest hpc => exact h.pay i e c a rest hpc
  | idle hpc => exact h

theorem balanced_run (skb : ι → Packet) (order : List ι) : Balanced skb (run skb order) := by
  have hboth := foldl_invariant (step skb) (fun s => WellFormed skb s ∧ Balanced skb s)
    (fun s i h => ⟨h.1.answer (step_answer skb s i), h.2.answer h.1 (step_answer skb s i)⟩)
    _ order ⟨wellFormed_start skb, balanced_start skb⟩
  exact hboth.2

/-! ### The counters when every invocation has returned -/

def AllReturned (s : State ι) : Prop := ∀ i, (s.pc i).returned = true

instance (s : State ι) : Decidable (AllReturned s) :=
  inferInstanceAs (Decidable (∀ i, (s.pc i).returned = true))

/-- The invocations of one program on one interface. -/
def invocations (skb : ι → Packet) (hook : Hook) (ifname : String) : Finset ι :=
  Finset.univ.filter (fun i => (skb i).ifname = ifname ∧ (skb i).hook = hook)

/-- The map's record of every interface with a packet holds the number and the total
length of its packets in each direction, in 64 bits. -/
def Counted (skb : ι → Packet) (s : State ι) : Prop :=
  ∀ i, ∃ stats, s.stats (skb i).ifname = some stats ∧
    stats.rcvPackets.toNat =
      (invocations skb .countIngress (skb i).ifname).card % 2 ^ 64 ∧
    stats.rcvBytes.toNat =
      (∑ j ∈ invocations skb .countIngress (skb i).ifname, (skb j).len.toNat) % 2 ^ 64 ∧
    stats.sndPackets.toNat =
      (invocations skb .countEgress (skb i).ifname).card % 2 ^ 64 ∧
    stats.sndBytes.toNat =
      (∑ j ∈ invocations skb .countEgress (skb i).ifname, (skb j).len.toNat) % 2 ^ 64

def packetCounter : Hook → Counter
  | .countIngress => .rcvPackets
  | .countEgress => .sndPackets

def byteCounter : Hook → Counter
  | .countIngress => .rcvBytes
  | .countEgress => .sndBytes

omit [DecidableEq ι] [Fintype ι] in
theorem amount_packetCounter (skb : Packet) (hook : Hook) :
    amount (packetCounter hook) (adds skb) = if skb.hook = hook then 1 else 0 := by
  cases hskb : skb.hook <;> cases hook <;> simp [adds, hskb, packetCounter, amount]

omit [DecidableEq ι] [Fintype ι] in
theorem amount_byteCounter (skb : Packet) (hook : Hook) :
    amount (byteCounter hook) (adds skb) =
      if skb.hook = hook then skb.len.toUInt64 else 0 := by
  cases hskb : skb.hook <;> cases hook <;> simp [adds, hskb, byteCounter, amount]

omit [DecidableEq ι] [Fintype ι] in
theorem exists_adding {skb : ι → Packet} {s : State ι} (hwell : WellFormed skb s)
    (hreturned : AllReturned s) (i : ι) : ∃ e, s.pc i = .adding e [] := by
  have hi := hreturned i
  cases hpc : s.pc i with
  | adding e todo =>
    cases todo with
    | nil => exact ⟨e, rfl⟩
    | cons add rest => simp [hpc, Pc.returned] at hi
  | gaveUp =>
    have hpresent := hwell.present (i := i) (by rw [hpc]; simp) (by rw [hpc]; simp)
    exact absurd hpc hpresent.2
  | lookup => simp [hpc, Pc.returned] at hi
  | update => simp [hpc, Pc.returned] at hi
  | relookup => simp [hpc, Pc.returned] at hi

omit [DecidableEq ι] in
/-- Without a debt left a record holds the packets of the invocations that got it. -/
theorem get_of_allReturned {skb : ι → Packet} {s : State ι} (hwell : WellFormed skb s)
    (hbalanced : Balanced skb s) (hreturned : AllReturned s) (e : ℕ) (c : Counter) :
    (s.memory e).get c =
      ∑ i, if (s.pc i).record = some e then amount c (adds (skb i)) else 0 := by
  have howed : ∀ i, owed e c (s.pc i) = 0 := by
    intro i
    obtain ⟨f, hpc⟩ := exists_adding hwell hreturned i
    simp [owed, hpc, Pc.todo, amount]
  have hbalance := hbalanced e c
  simpa only [howed, Finset.sum_const_zero, add_zero, credit] using hbalance

omit [DecidableEq ι] in
theorem packets_of_allReturned {skb : ι → Packet} {s : State ι} (hwell : WellFormed skb s)
    (hbalanced : Balanced skb s) (hreturned : AllReturned s) (e : ℕ) (hook : Hook) :
    ((s.memory e).get (packetCounter hook)).toNat =
      (Finset.univ.filter
        (fun i => (s.pc i).record = some e ∧ (skb i).hook = hook)).card % 2 ^ 64 := by
  rw [get_of_allReturned hwell hbalanced hreturned]
  simp only [amount_packetCounter, ← ite_and]
  rw [toNat_sum_ite]
  simp

omit [DecidableEq ι] in
theorem bytes_of_allReturned {skb : ι → Packet} {s : State ι} (hwell : WellFormed skb s)
    (hbalanced : Balanced skb s) (hreturned : AllReturned s) (e : ℕ) (hook : Hook) :
    ((s.memory e).get (byteCounter hook)).toNat =
      (∑ i ∈ Finset.univ.filter
        (fun i => (s.pc i).record = some e ∧ (skb i).hook = hook), (skb i).len.toNat) % 2 ^ 64 := by
  rw [get_of_allReturned hwell hbalanced hreturned]
  simp only [amount_byteCounter, ← ite_and]
  rw [toNat_sum_ite]
  simp

omit [DecidableEq ι] in
theorem counted_of_current {skb : ι → Packet} {s : State ι} (hwell : WellFormed skb s)
    (hbalanced : Balanced skb s) (hreturned : AllReturned s) (hcurrent : Current skb s) :
    Counted skb s := by
  intro i
  obtain ⟨e, hpc⟩ := exists_adding hwell hreturned i
  have hentry := hcurrent i e (by rw [hpc, Pc.record])
  have hholders : ∀ j, (s.pc j).record = some e ↔ (skb j).ifname = (skb i).ifname := by
    intro j
    constructor
    · intro hj
      exact hwell.name_of_record hj hentry
    · intro hname
      obtain ⟨f, hf⟩ := exists_adding hwell hreturned j
      have hrecord : (s.pc j).record = some f := by rw [hf, Pc.record]
      have hother := hcurrent j f hrecord
      rw [hname, hentry] at hother
      rw [hrecord, hother]
  have hpackets := packets_of_allReturned hwell hbalanced hreturned e
  have hbytes := bytes_of_allReturned hwell hbalanced hreturned e
  simp only [hholders] at hpackets hbytes
  exact ⟨s.memory e, by rw [State.stats, hentry]; rfl, hpackets .countIngress,
    hbytes .countIngress, hpackets .countEgress, hbytes .countEgress⟩

omit [DecidableEq ι] in
/-- A packet in a replaced record is missing from the count of its direction. -/
theorem current_of_counted {skb : ι → Packet} {s : State ι} (hwell : WellFormed skb s)
    (hbalanced : Balanced skb s) (hreturned : AllReturned s)
    (hcard : Fintype.card ι < 2 ^ 64) (hcounted : Counted skb s) : Current skb s := by
  intro i e he
  obtain ⟨stats, hstats, hrcv, _, hsnd, _⟩ := hcounted i
  obtain ⟨f, hentry, hmemory⟩ := Option.map_eq_some_iff.mp hstats
  have hcount : ∀ hook, (stats.get (packetCounter hook)).toNat =
      (invocations skb hook (skb i).ifname).card % 2 ^ 64 := by
    intro hook
    cases hook with
    | countIngress => exact hrcv
    | countEgress => exact hsnd
  have hpackets := packets_of_allReturned hwell hbalanced hreturned f (skb i).hook
  rw [hmemory, hcount, Nat.mod_eq_of_lt (lt_of_le_of_lt (Finset.card_le_univ _) hcard),
    Nat.mod_eq_of_lt (lt_of_le_of_lt (Finset.card_le_univ _) hcard)] at hpackets
  have hsubset : Finset.univ.filter
      (fun j => (s.pc j).record = some f ∧ (skb j).hook = (skb i).hook) ⊆
        invocations skb (skb i).hook (skb i).ifname := by
    intro j hj
    obtain ⟨hrecord, hhook⟩ := (Finset.mem_filter.mp hj).2
    exact Finset.mem_filter.mpr
      ⟨Finset.mem_univ j, hwell.name_of_record hrecord hentry, hhook⟩
  have hequal := Finset.eq_of_subset_of_card_le hsubset hpackets.le
  have hmem : i ∈ invocations skb (skb i).hook (skb i).ifname :=
    Finset.mem_filter.mpr ⟨Finset.mem_univ i, rfl, rfl⟩
  rw [← hequal] at hmem
  rw [(Finset.mem_filter.mp hmem).2.1] at he
  rw [hentry, he]

/-- Every packet is counted in every interleaving without an update that replaces a
record in use. With fewer than 2^64 invocations these are the only such interleavings. -/
theorem packets_counted (skb : ι → Packet) (order : List ι)
    (hreturned : AllReturned (run skb order)) :
    ((∀ p ∈ visits (step skb) start order, ReplacesNoRecordInUse skb p.1 p.2) →
      Counted skb (run skb order)) ∧
    (Fintype.card ι < 2 ^ 64 → Counted skb (run skb order) →
      ∀ p ∈ visits (step skb) start order, ReplacesNoRecordInUse skb p.1 p.2) := by
  have hwell := wellFormed_run skb order
  have hbalanced := balanced_run skb order
  constructor
  · intro hkeep
    exact counted_of_current hwell hbalanced hreturned ((current_run_iff skb order).mpr hkeep)
  · intro hcard hcounted
    exact (current_run_iff skb order).mp
      (current_of_counted hwell hbalanced hreturned hcard hcounted)

/-- Two packets on different interfaces, their requests answered in turn. -/
theorem packets_counted_two_interfaces :
    let skb : Fin 2 → Packet := fun i =>
      if i = 0 then ⟨.countIngress, "eth0", 60, 0, 0, 0⟩
      else ⟨.countEgress, "eth1", 1500, 0, 0, 0⟩
    let order : List (Fin 2) := [0, 1, 0, 1, 0, 1, 0, 1, 0, 1, 0, 1, 0, 1]
    AllReturned (run skb order) ∧ Counted skb (run skb order) := by
  intro skb order
  have hreturned : AllReturned (run skb order) := by decide
  refine ⟨hreturned, (packets_counted skb order hreturned).1 ?_⟩
  exact replacesNoRecordInUse_of_injective skb (by decide) order

/-- Two packets received on one interface both find it missing. The second one's update
is answered after the first one has counted, and the first packet is lost. -/
theorem first_packet_lost :
    ¬ ∀ (n : ℕ) (skb : Fin n → Packet) (order : List (Fin n)),
      AllReturned (run skb order) → Counted skb (run skb order) := by
  intro h
  let skb : Fin 2 → Packet := fun _ => ⟨.countIngress, "eth0", 60, 0, 0, 0⟩
  let order : List (Fin 2) := [0, 1, 0, 0, 0, 0, 0, 0, 1, 1, 1, 1, 1, 1]
  have hreturned : AllReturned (run skb order) := by decide
  obtain ⟨stats, hstats, hpackets, _⟩ := h 2 skb order hreturned 0
  have hone : ((run skb order).stats "eth0").map NetStats.rcvPackets = some 1 := by decide
  have htwo : (invocations skb .countIngress "eth0").card = 2 := by decide
  have heth : (skb 0).ifname = "eth0" := rfl
  rw [heth] at hstats hpackets
  rw [hstats, Option.map_some, Option.some.injEq] at hone
  rw [hone, htwo] at hpackets
  exact absurd hpackets (by decide)

end NodeMonitor.PacketCounts
