import NodeMonitor.Fleet

/-!
The fleet as one register for each host. A host that has a relay and a login name to itself
is not affected by the others: what the manager's table shows under its name is a function
of its own rounds, of the calls at its relay's address and of the restarts, and holds the
message its relay had received last when the manager last got through to it.
-/

namespace NodeMonitor.Registers

open Agent AgentManager AgentScores Fleet KeyedMaps Messages Relay Score UnorderedMaps

variable {H : Type*}

/-- Hosts with a relay of their own, whose agents run under different login names. -/
structure OwnRelays (H : Type*) extends Hosts H where
  address_injective : Function.Injective address
  username_injective : Function.Injective username
  username_ne_empty : ∀ host, username host ≠ ""

/-- A host's agent, the message its relay holds and what the manager knows of it. -/
structure Register where
  agent : Process := .running Agent.start
  current : Option MonitorInfo := none
  seen : Option (MonitorInfo × ℤ) := none

/-- The table entry for what the manager knows. -/
def entry (seen : MonitorInfo × ℤ) : AgentScore where
  info := seen.1
  score := calcScore seen.1
  timestamp := seen.2

/-- The world agrees with the hosts' registers. -/
structure Tracks (U : UnorderedMap String MonitorInfo) (fleet : OwnRelays H) (w : World U H)
    (r : H → Register) : Prop where
  agent : ∀ host, w.agents host = (r host).agent
  named : ∀ host info, (r host).current = some info → info.name = fleet.username host
  current : ∀ host k, U.find (w.relays (fleet.address host)) k =
    if k = fleet.username host then (r host).current else none
  unused : ∀ addr, (∀ host, fleet.address host ≠ addr) → U.find (w.relays addr) = empty
  seen : ∀ host, w.manager.agentScores (fleet.username host) = (r host).seen.map entry

variable (U : UnorderedMap String MonitorInfo) (fleet : OwnRelays H)

theorem start_tracks : Tracks U fleet (World.start U) (fun _ => {}) where
  agent _ := rfl
  named _ _ h := absurd h (by simp)
  current host k := by simp [World.start, U.find_clear]
  unused addr _ := U.find_clear
  seen host := by simp [World.start, AgentManager.initial]

variable {U fleet}

/-- A relay of one host answers with what it holds. -/
theorem Tracks.getMonitorInfo {w : World U H} {r : H → Register} (h : Tracks U fleet w r)
    (host : H) (response : MonitorInfo) :
    Relay.getMonitorInfo U (w.relays (fleet.address host)) response =
      (r host).current.getD response := by
  cases hfirst : U.first (w.relays (fleet.address host)) with
  | none =>
    have hempty := congrFun (U.first_none _ hfirst) (fleet.username host)
    rw [h.current host, if_pos rfl] at hempty
    rw [Relay.getMonitorInfo, hfirst, hempty]
    rfl
  | some first =>
    have hfind := U.first_find _ first.1 first.2 hfirst
    rw [h.current host] at hfind
    by_cases hk : first.1 = fleet.username host
    · rw [if_pos hk] at hfind
      rw [Relay.getMonitorInfo, hfirst, hfind]
      rfl
    · rw [if_neg hk] at hfind
      exact absurd hfind (by simp)

/-- What the manager gets is a host's current message, or empty. -/
theorem Tracks.received {w : World U H} {r : H → Register} (h : Tracks U fleet w r)
    (addr : String) (now : ℤ) (answered : Bool) :
    (ask U w addr now answered).reply.received = MonitorInfo.default ∨
      answered = true ∧ ∃ host info, addr = fleet.address host ∧ (r host).current = some info ∧
        (ask U w addr now answered).reply.received = info := by
  cases answered with
  | false => exact Or.inl rfl
  | true =>
    by_cases hused : ∃ host, fleet.address host = addr
    · obtain ⟨host, haddr⟩ := hused
      subst haddr
      have hanswer := h.getMonitorInfo host MonitorInfo.default
      cases hcurrent : (r host).current with
      | none =>
        rw [hcurrent] at hanswer
        exact Or.inl hanswer
      | some info =>
        rw [hcurrent] at hanswer
        exact Or.inr ⟨rfl, host, info, rfl, hcurrent, hanswer⟩
    · have hempty := h.unused addr (fun host haddr => hused ⟨host, haddr⟩)
      cases hfirst : U.first (w.relays addr) with
      | none =>
        refine Or.inl ?_
        simp [ask, RpcReply.received, Relay.getMonitorInfo, hfirst]
      | some first =>
        have hfind := U.first_find _ first.1 first.2 hfirst
        rw [hempty] at hfind
        exact absurd hfind (by simp)

variable [DecidableEq H]

/-- What an event means for one host. -/
def Register.step (fleet : Hosts H) (host : H) (r : Register) : Event H → Register
  | .round g x delivered =>
    if g = host then
      { r with
        agent := Agent.step runners (fleet.username host) r.agent x
        current :=
          if delivered then (pushed runners (fleet.username host) r.agent x).or r.current
          else r.current }
    else r
  | .poll addr now answered =>
    if addr = fleet.address host ∧ answered = true then
      { r with seen := (r.current.map (fun info => (info, now))).or r.seen }
    else r
  | .startAgent g => if g = host then { r with agent := .running Agent.start } else r
  | .startRelay addr => if addr = fleet.address host then { r with current := none } else r
  | .startManager => { r with seen := none }

def register (fleet : Hosts H) (host : H) (events : List (Event H)) : Register :=
  events.foldl (Register.step fleet host) {}

theorem Tracks.round {w : World U H} {r : H → Register} (h : Tracks U fleet w r) (g : H)
    (x : Sample) (delivered : Bool) :
    Tracks U fleet (Fleet.step U fleet.toHosts w (.round g x delivered))
      (fun host => (r host).step fleet.toHosts host (.round g x delivered)) := by
  refine ⟨?_, ?_, ?_, ?_, ?_⟩
  · intro host
    by_cases hg : g = host
    · subst hg
      simp [Fleet.step, Register.step, h.agent]
    · have hne : host ≠ g := Ne.symm hg
      simp [Fleet.step, Register.step, hg, hne, h.agent]
  · intro host info hinfo
    by_cases hg : g = host
    · subst hg
      simp only [Register.step, if_true] at hinfo
      cases delivered with
      | false => exact h.named g info hinfo
      | true =>
        simp only [if_true, Option.or_eq_some_iff] at hinfo
        rcases hinfo with hsent | ⟨_, hcurrent⟩
        · obtain ⟨s, _, _, hmessage⟩ := (pushed_eq_some_iff _ _ _ _).mp hsent
          rw [hmessage]
          rfl
        · exact h.named g info hcurrent
    · simp only [Register.step, hg, if_false] at hinfo
      exact h.named host info hinfo
  · intro host k
    by_cases hg : g = host
    · subst hg
      simp only [Fleet.step, Function.update_self, Register.step, if_true, h.agent]
      cases hsent : pushed runners (fleet.username g) (r g).agent x with
      | none =>
        simp only [receive, Option.none_or, ite_self]
        exact h.current g k
      | some info =>
        cases delivered with
        | false => exact h.current g k
        | true =>
          obtain ⟨s, _, _, hmessage⟩ := (pushed_eq_some_iff _ _ _ _).mp hsent
          have hname : info.name = fleet.username g := by rw [hmessage]; rfl
          simp only [receive, if_true, setMonitorInfo, U.find_set, assign_apply, hname,
            Option.some_or, h.current g k]
          split
          · rfl
          · rfl
    · have hne : fleet.address host ≠ fleet.address g :=
        fun heq => hg (fleet.address_injective heq).symm
      simp only [Fleet.step, Function.update_of_ne hne, Register.step, hg, if_false]
      exact h.current host k
  · intro addr haddr
    have hne : addr ≠ fleet.address g := fun heq => haddr g heq.symm
    simp only [Fleet.step, Function.update_of_ne hne]
    exact h.unused addr haddr
  · intro host
    by_cases hg : g = host
    · simp only [Register.step, hg, if_true]
      exact h.seen host
    · simp only [Register.step, hg, if_false]
      exact h.seen host

theorem Tracks.poll {w : World U H} {r : H → Register} (h : Tracks U fleet w r)
    (addr : String) (now : ℤ) (answered : Bool) :
    Tracks U fleet (Fleet.step U fleet.toHosts w (.poll addr now answered))
      (fun host => (r host).step fleet.toHosts host (.poll addr now answered)) := by
  have hsame : ∀ host, ((r host).step fleet.toHosts host (.poll addr now answered)).agent =
        (r host).agent ∧
      ((r host).step fleet.toHosts host (.poll addr now answered)).current =
        (r host).current := by
    intro host
    by_cases hat : addr = fleet.address host ∧ answered = true
    · simp [Register.step, hat]
    · simp [Register.step, hat]
  refine ⟨?_, ?_, ?_, h.unused, ?_⟩
  · intro host
    rw [(hsame host).1]
    exact h.agent host
  · intro host info hinfo
    rw [(hsame host).2] at hinfo
    exact h.named host info hinfo
  · intro host k
    rw [(hsame host).2]
    exact h.current host k
  · intro host
    simp only [Fleet.step, agentScores_pollAgent]
    by_cases hmine : addr = fleet.address host ∧ answered = true ∧ (r host).current.isSome
    · obtain ⟨haddr, hok, hsome⟩ := hmine
      obtain ⟨info, hcurrent⟩ := Option.isSome_iff_exists.mp hsome
      subst haddr hok
      have hreceived : (ask U w (fleet.address host) now true).reply.received = info := by
        have hanswer := h.getMonitorInfo host MonitorInfo.default
        rw [hcurrent] at hanswer
        exact hanswer
      have hname : serverName (ask U w (fleet.address host) now true) = fleet.username host := by
        rw [serverName, hreceived]
        exact h.named host info hcurrent
      simp only [Register.step, and_self, if_true, hcurrent, Option.map_some, Option.some_or]
      rw [← hname, assign_self, scoreEntry, hreceived]
      rfl
    · -- the entry stored belongs to another name
      have hother : fleet.username host ≠ serverName (ask U w addr now answered) := by
        rcases h.received addr now answered with hempty | ⟨hok, g, info, haddr, hcurrent, hinfo⟩
        · rw [serverName, hempty]
          exact fleet.username_ne_empty host
        · rw [serverName, hinfo, h.named g info hcurrent]
          intro heq
          obtain rfl : host = g := fleet.username_injective heq
          exact hmine ⟨haddr, hok, by rw [hcurrent]; rfl⟩
      have hseen : ((r host).step fleet.toHosts host (.poll addr now answered)).seen =
          (r host).seen := by
        by_cases hat : addr = fleet.address host ∧ answered = true
        · have hnone : (r host).current = none := by
            rw [← Option.not_isSome_iff_eq_none]
            exact fun hsome => hmine ⟨hat.1, hat.2, hsome⟩
          simp [Register.step, hat, hnone]
        · simp [Register.step, hat]
      rw [assign_of_ne _ _ hother, hseen]
      exact h.seen host

theorem Tracks.startAgent {w : World U H} {r : H → Register} (h : Tracks U fleet w r) (g : H) :
    Tracks U fleet (Fleet.step U fleet.toHosts w (.startAgent g))
      (fun host => (r host).step fleet.toHosts host (.startAgent g)) := by
  have hsame : ∀ host, ((r host).step fleet.toHosts host (.startAgent g)).current =
        (r host).current ∧
      ((r host).step fleet.toHosts host (.startAgent g)).seen = (r host).seen := by
    intro host
    by_cases hg : g = host
    · simp [Register.step, hg]
    · simp [Register.step, hg]
  refine ⟨?_, ?_, ?_, h.unused, ?_⟩
  · intro host
    by_cases hg : g = host
    · subst hg
      simp [Fleet.step, Register.step]
    · have hne : host ≠ g := Ne.symm hg
      simp [Fleet.step, Register.step, hg, hne, h.agent]
  · intro host info hinfo
    rw [(hsame host).1] at hinfo
    exact h.named host info hinfo
  · intro host k
    rw [(hsame host).1]
    exact h.current host k
  · intro host
    rw [(hsame host).2]
    exact h.seen host

theorem Tracks.startRelay {w : World U H} {r : H → Register} (h : Tracks U fleet w r)
    (addr : String) :
    Tracks U fleet (Fleet.step U fleet.toHosts w (.startRelay addr))
      (fun host => (r host).step fleet.toHosts host (.startRelay addr)) := by
  refine ⟨?_, ?_, ?_, ?_, ?_⟩
  · intro host
    by_cases hat : addr = fleet.address host
    · simpa [Fleet.step, Register.step, hat] using h.agent host
    · simpa [Fleet.step, Register.step, hat] using h.agent host
  · intro host info hinfo
    by_cases hat : addr = fleet.address host
    · simp [Register.step, hat] at hinfo
    · simp only [Register.step, hat, if_false] at hinfo
      exact h.named host info hinfo
  · intro host k
    by_cases hat : addr = fleet.address host
    · subst hat
      simp [Fleet.step, Register.step, U.find_clear]
    · have hne : fleet.address host ≠ addr := Ne.symm hat
      simp only [Fleet.step, Function.update_of_ne hne, Register.step, hat, if_false]
      exact h.current host k
  · intro other hother
    by_cases hat : other = addr
    · subst hat
      simp [Fleet.step, U.find_clear]
    · simp only [Fleet.step, Function.update_of_ne hat]
      exact h.unused other hother
  · intro host
    by_cases hat : addr = fleet.address host
    · simpa [Fleet.step, Register.step, hat] using h.seen host
    · simpa [Fleet.step, Register.step, hat] using h.seen host

theorem Tracks.step {w : World U H} {r : H → Register} (h : Tracks U fleet w r) (e : Event H) :
    Tracks U fleet (Fleet.step U fleet.toHosts w e)
      (fun host => (r host).step fleet.toHosts host e) := by
  cases e with
  | round g x delivered => exact h.round g x delivered
  | poll addr now answered => exact h.poll addr now answered
  | startAgent g => exact h.startAgent g
  | startRelay addr => exact h.startRelay addr
  | startManager =>
    refine ⟨h.agent, h.named, h.current, h.unused, ?_⟩
    intro host
    simp [Fleet.step, Register.step, AgentManager.initial]

variable (U fleet)

theorem run_tracks (events : List (Event H)) :
    Tracks U fleet (Fleet.run U fleet.toHosts events)
      (fun host => register fleet.toHosts host events) := by
  induction events using List.reverseRecOn with
  | nil => exact start_tracks U fleet
  | append_singleton events e ih =>
    rw [run_concat]
    have hregister : (fun host => register fleet.toHosts host (events ++ [e])) =
        fun host => (register fleet.toHosts host events).step fleet.toHosts host e := by
      funext host
      simp [register, List.foldl_append]
    rw [hregister]
    exact ih.step e

/-- With a relay and a login name for every host, in every run with any losses and
restarts: the agent, the relay's answers and the manager's entry of a host are those of its
register, which no event of another host changes. -/
theorem fleet_refines_registers (events : List (Event H)) (host : H) :
    let w := Fleet.run U fleet.toHosts events
    let r := register fleet.toHosts host events
    w.agents host = r.agent ∧
      (∀ response, Relay.getMonitorInfo U (w.relays (fleet.address host)) response =
        r.current.getD response) ∧
      w.manager.agentScores (fleet.username host) = r.seen.map entry := by
  intro w r
  have htracks := run_tracks U fleet events
  exact ⟨htracks.agent host, htracks.getMonitorInfo host, htracks.seen host⟩

/-- Two hosts with a relay on each of them. -/
def OwnRelays.two : OwnRelays Bool where
  username host := if host then "node2" else "node1"
  address host := if host then "node2:50051" else "node1:50051"
  address_injective := by decide
  username_injective := by decide
  username_ne_empty := by decide

/-- The message of one host goes all the way through, that of the other one gets lost. -/
theorem fleet_refines_registers_two :
    let w := Fleet.run (listMap String MonitorInfo) OwnRelays.two.toHosts
      [.round false bareHost true, .round true bareHost false, .poll "node1:50051" 7 true,
        .startAgent false]
    w.manager.agentScores "node1" =
        some (entry (message "node1" Agent.start bareHost (record bareHost), 7)) ∧
      w.manager.agentScores "node2" = none := by
  intro w
  have hsent := pushed_bareHost "node1"
  constructor
  · refine (fleet_refines_registers (listMap String MonitorInfo) OwnRelays.two _ false).2.2.trans
      ?_
    simp [register, Register.step, OwnRelays.two, hsent]
  · refine (fleet_refines_registers (listMap String MonitorInfo) OwnRelays.two _ true).2.2.trans
      ?_
    simp [register, Register.step, OwnRelays.two]

end NodeMonitor.Registers
