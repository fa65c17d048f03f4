import NodeMonitor.Agent
import NodeMonitor.AgentScores
import NodeMonitor.Relay

/-!
The whole system: hosts with their agents, relays and one manager, in any interleaving of
their rounds, with calls that get lost and processes that are started again with nothing in
memory. Where every host has a relay and a login name of its own, the manager's table is one
register for each host, which holds the latest message that went all the way through.
-/

namespace NodeMonitor.Fleet

open Agent AgentManager AgentScores KeyedMaps Messages Relay Runs Score UnorderedMaps

/-- The login name under which a host's agent runs, and the address of its relay. -/
structure Hosts (H : Type*) where
  username : H → String
  address : H → String

/-- An agent's round, whose `SetMonitorInfo` may fail; the manager's call at an address,
which may fail; and the start of a new process. -/
inductive Event (H : Type*)
  | round (host : H) (x : Sample) (delivered : Bool)
  | poll (addr : String) (now : ℤ) (answered : Bool)
  | startAgent (host : H)
  | startRelay (addr : String)
  | startManager

variable (U : UnorderedMap String MonitorInfo) {H : Type*} [DecidableEq H]

structure World (H : Type*) where
  agents : H → Process
  relays : String → U.State
  manager : AgentManager.State

def World.start : World U H where
  agents := fun _ => .running Agent.start
  relays := fun _ => U.clear
  manager := AgentManager.initial

/-- What the manager's client comes back with. -/
def ask (w : World U H) (addr : String) (now : ℤ) (answered : Bool) : Poll where
  reply := if answered then .ok (getMonitorInfo U (w.relays addr) MonitorInfo.default) else .failed
  now := now

/-- The relay's map after a round's call. -/
def receive (s : U.State) (sent : Option MonitorInfo) (delivered : Bool) : U.State :=
  match sent with
  | none => s
  | some info => if delivered then setMonitorInfo U s info else s

def step (fleet : Hosts H) (w : World U H) : Event H → World U H
  | .round host x delivered =>
    let sent := pushed runners (fleet.username host) (w.agents host) x
    { w with
      agents := Function.update w.agents host
        (Agent.step runners (fleet.username host) (w.agents host) x)
      relays := Function.update w.relays (fleet.address host)
        (receive U (w.relays (fleet.address host)) sent delivered) }
  | .poll addr now answered => { w with manager := pollAgent w.manager (ask U w addr now answered) }
  | .startAgent host => { w with agents := Function.update w.agents host (.running Agent.start) }
  | .startRelay addr => { w with relays := Function.update w.relays addr U.clear }
  | .startManager => { w with manager := AgentManager.initial }

def run (fleet : Hosts H) (events : List (Event H)) : World U H :=
  events.foldl (step U fleet) (World.start U)

theorem run_concat (fleet : Hosts H) (events : List (Event H)) (e : Event H) :
    run U fleet (events ++ [e]) = step U fleet (run U fleet events) e := by
  simp [run, List.foldl_append]

/-! ### Where scores come from -/

/-- The message was made by the agent of a host in a round whose call arrived at the
relay's address. -/
def Delivered (fleet : Hosts H) (events : List (Event H)) (addr : String)
    (info : MonitorInfo) : Prop :=
  ∃ pre host x post s, events = pre ++ .round host x true :: post ∧ fleet.address host = addr ∧
    (run U fleet pre).agents host = .running s ∧ returns x = true ∧
      info = message (fleet.username host) s x (record x)

theorem Delivered.concat {fleet : Hosts H} {events : List (Event H)} {addr : String}
    {info : MonitorInfo} (h : Delivered U fleet events addr info) (e : Event H) :
    Delivered U fleet (events ++ [e]) addr info := by
  obtain ⟨pre, host, x, post, s, hevents, hrest⟩ := h
  exact ⟨pre, host, x, post ++ [e], s, by simp [hevents], hrest⟩

theorem pushed_eq_some_iff (username : String) (p : Process) (x : Sample) (info : MonitorInfo) :
    pushed runners username p x = some info ↔
      ∃ s, p = .running s ∧ returns x = true ∧ info = message username s x (record x) := by
  cases p with
  | stopped fault => simp [pushed]
  | running s =>
    cases hreturns : returns x with
    | true =>
      obtain ⟨hpoll, _⟩ := pollOnce_returns username s hreturns
      simp only [pushed, hpoll, Option.some.injEq]
      constructor
      · intro h
        exact ⟨s, rfl, trivial, h.symm⟩
      · intro h
        obtain ⟨s', hs, _, hinfo⟩ := h
        rw [Process.running.inj hs, hinfo]
    | false =>
      obtain ⟨fault, hpoll⟩ := pollOnce_faults username s hreturns
      simp [pushed, hpoll]

theorem pushed_bareHost (username : String) :
    pushed runners username (.running Agent.start) bareHost =
      some (message username Agent.start bareHost (record bareHost)) := by
  have hreturns : returns bareHost = true := by
    rw [returns, MemMonitor.updateOnce_eq]
    rfl
  exact (pushed_eq_some_iff username _ _ _).mpr ⟨Agent.start, rfl, hreturns, rfl⟩

/-- A relay holds messages of hosts that push to it, each under the name inside it. -/
theorem relay_holds (fleet : Hosts H) (events : List (Event H)) (addr k : String)
    (info : MonitorInfo) (h : U.find ((run U fleet events).relays addr) k = some info) :
    info.name = k ∧ Delivered U fleet events addr info := by
  induction events using List.reverseRecOn with
  | nil => simp [run, World.start, U.find_clear] at h
  | append_singleton events e ih =>
    have hkept (hold : U.find ((run U fleet events).relays addr) k = some info) :
        info.name = k ∧ Delivered U fleet (events ++ [e]) addr info := by
      obtain ⟨hname, hdelivered⟩ := ih hold
      exact ⟨hname, hdelivered.concat U e⟩
    rw [run_concat] at h
    cases e with
    | round host x delivered =>
      by_cases haddr : addr = fleet.address host
      · subst haddr
        simp only [step, Function.update_self] at h
        cases hsent : pushed runners (fleet.username host) ((run U fleet events).agents host) x with
        | none =>
          rw [hsent] at h
          exact hkept h
        | some sent =>
          rw [hsent] at h
          cases delivered with
          | false => exact hkept h
          | true =>
            simp only [receive, if_true, setMonitorInfo, U.find_set, assign_apply] at h
            by_cases hk : k = sent.name
            · rw [if_pos hk] at h
              obtain ⟨s, hs, hreturns, hmessage⟩ := (pushed_eq_some_iff _ _ _ _).mp hsent
              have hinfo : info = sent := (Option.some.inj h).symm
              refine ⟨by rw [hinfo, hk], events, host, x, [], s, rfl, rfl, hs, hreturns, ?_⟩
              rw [hinfo, hmessage]
            · rw [if_neg hk] at h
              exact hkept h
      · simp only [step, Function.update_of_ne haddr] at h
        exact hkept h
    | poll a now answered => exact hkept h
    | startAgent host => exact hkept h
    | startRelay a =>
      by_cases haddr : addr = a
      · subst haddr
        simp [step, U.find_clear] at h
      · simp only [step, Function.update_of_ne haddr] at h
        exact hkept h
    | startManager => exact hkept h

/-- An answer is empty or a message that arrived at the relay before. -/
theorem received_ask (fleet : Hosts H) (events : List (Event H)) (addr : String) (now : ℤ)
    (answered : Bool) :
    (ask U (run U fleet events) addr now answered).reply.received = MonitorInfo.default ∨
      answered = true ∧ Delivered U fleet events addr
        (ask U (run U fleet events) addr now answered).reply.received := by
  cases answered with
  | false => exact Or.inl rfl
  | true =>
    cases hfirst : U.first ((run U fleet events).relays addr) with
    | none =>
      refine Or.inl ?_
      simp [ask, RpcReply.received, getMonitorInfo, hfirst]
    | some entry =>
      have hfind := U.first_find _ entry.1 entry.2 hfirst
      refine Or.inr ⟨rfl, ?_⟩
      simpa [ask, RpcReply.received, getMonitorInfo, hfirst] using
        (relay_holds U fleet events addr entry.1 entry.2 hfind).2

/-- In every run with any losses and restarts, a table entry is the score of the message in
it, under the name in it; and unless that message is empty, some host's agent made it in a
round whose call arrived at a relay that answered the manager with it afterwards. -/
theorem scores_traceable (fleet : Hosts H) (events : List (Event H)) (k : String)
    (e : AgentScore) (h : (run U fleet events).manager.agentScores k = some e) :
    e.info.name = k ∧ e.score = calcScore e.info ∧ (e.info = MonitorInfo.default ∨
      ∃ before addr after, events = before ++ .poll addr e.timestamp true :: after ∧
        Delivered U fleet before addr e.info) := by
  induction events using List.reverseRecOn with
  | nil => simp [run, World.start, AgentManager.initial] at h
  | append_singleton events last ih =>
    have hkept (hold : (run U fleet events).manager.agentScores k = some e) :
        e.info.name = k ∧ e.score = calcScore e.info ∧ (e.info = MonitorInfo.default ∨
          ∃ before addr after,
            events ++ [last] = before ++ .poll addr e.timestamp true :: after ∧
              Delivered U fleet before addr e.info) := by
      obtain ⟨hname, hscore, hempty | ⟨before, addr, after, hevents, hdelivered⟩⟩ := ih hold
      · exact ⟨hname, hscore, Or.inl hempty⟩
      · exact ⟨hname, hscore, Or.inr ⟨before, addr, after ++ [last], by simp [hevents],
          hdelivered⟩⟩
    rw [run_concat] at h
    cases last with
    | round host x delivered => exact hkept h
    | startAgent host => exact hkept h
    | startRelay addr => exact hkept h
    | startManager => simp [step, AgentManager.initial] at h
    | poll addr now answered =>
      simp only [step, agentScores_pollAgent, assign_apply] at h
      by_cases hk : k = serverName (ask U (run U fleet events) addr now answered)
      · rw [if_pos hk] at h
        have he := (Option.some.inj h).symm
        subst he
        refine ⟨hk.symm, rfl, ?_⟩
        rcases received_ask U fleet events addr now answered with hempty | ⟨hok, hdelivered⟩
        · exact Or.inl hempty
        · subst hok
          exact Or.inr ⟨events, addr, [], rfl, hdelivered⟩
      · rw [if_neg hk] at h
        exact hkept h

/-- One host whose agent has nothing to read, and one poll of its relay. -/
theorem scores_traceable_once :
    ∃ e : AgentScore, e.info.name = "root" ∧ e.score = calcScore e.info ∧
      (e.info = MonitorInfo.default ∨ ∃ before addr after,
        [Event.round () bareHost true, .poll "relay" 7 true] =
            before ++ .poll addr e.timestamp true :: after ∧
          Delivered (listMap String MonitorInfo) ⟨fun _ => "root", fun _ => "relay"⟩ before addr
            e.info) := by
  have hsent := pushed_bareHost "root"
  have hentry : (run (listMap String MonitorInfo) ⟨fun _ => "root", fun _ => "relay"⟩
      [.round () bareHost true, .poll "relay" 7 true]).manager.agentScores "root" =
        some (scoreEntry
          ⟨.ok (message "root" Agent.start bareHost (record bareHost)), 7⟩) := by
    simp only [run, List.foldl_cons, List.foldl_nil, step, World.start, hsent, receive, if_true,
      agentScores_pollAgent, ask, Function.update_self]
    rfl
  exact ⟨_, scores_traceable _ _ _ "root" _ hentry⟩

end NodeMonitor.Fleet
