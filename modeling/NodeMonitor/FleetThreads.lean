import NodeMonitor.Fleet
import NodeMonitor.RelayThreads

/-!
The fleet with all its threads. An agent computes a message, calls its relay and waits; the
relay serves the call under its mutex, step by step, next to other calls; the manager's
calls take time likewise. A request may get lost, a reply too, and a relay may start again
while it serves; agents and the manager start again between their calls. Every interleaving
is a run of the fleet in which each round and each poll happens at one moment of its call.
-/

namespace NodeMonitor.FleetThreads

open Agent AgentManager AtomicObjects LockedObjects Messages Relay RelayThreads Runs
  UnorderedMaps

/-- The threads that call relays. -/
inductive Client (H : Type*)
  | agent (host : H)
  | manager
  deriving DecidableEq

/-- A call of the manager, the time at which it will be over and whether its reply will
arrive. -/
structure Asked where
  addr : String
  now : ℤ
  answered : Bool

/-- What the manager's client comes back with, if the call was served. -/
def Asked.poll (asked : Asked) (response : Option MonitorInfo) : Poll where
  reply := if asked.answered then .ok (response.getD MonitorInfo.default) else .failed
  now := asked.now

/-- The messages of a host's rounds, `none` for a round that failed, and the polls. -/
structure Work (H : Type*) where
  rounds : H → List (Option MonitorInfo) := fun _ => []
  polls : List (String × ℤ) := []

variable (U : UnorderedMap String MonitorInfo) (m : Subscript U) {H : Type*} [DecidableEq H]

def Work.round (work : Work H) (host : H) (message : Option MonitorInfo) : Work H :=
  { work with rounds := Function.update work.rounds host (work.rounds host ++ [message]) }

def Work.poll (work : Work H) (addr : String) (now : ℤ) : Work H :=
  { work with polls := work.polls ++ [(addr, now)] }

@[simp] theorem Work.round_rounds (work : Work H) (host : H) (message : Option MonitorInfo) :
    (work.round host message).rounds =
      Function.update work.rounds host (work.rounds host ++ [message]) := rfl

@[simp] theorem Work.round_polls (work : Work H) (host : H) (message : Option MonitorInfo) :
    (work.round host message).polls = work.polls := rfl

omit [DecidableEq H] in
@[simp] theorem Work.poll_rounds (work : Work H) (addr : String) (now : ℤ) :
    (work.poll addr now).rounds = work.rounds := rfl

omit [DecidableEq H] in
@[simp] theorem Work.poll_polls (work : Work H) (addr : String) (now : ℤ) :
    (work.poll addr now).polls = work.polls ++ [(addr, now)] := rfl

abbrev RelayProcess (H : Type*) :=
  LockedObjects.World (Client H) Request (Option MonitorInfo) U.State Line

/-- `rounds` and `polling` are the calls agents and the manager are waiting for; `begun`
records what they have begun so far. -/
structure World (H : Type*) where
  agents : H → Process
  rounds : H → Option Sample
  relays : String → RelayProcess U H
  manager : AgentManager.State
  polling : Option Asked
  begun : Work H

def World.start : World U H where
  agents := fun _ => .running Agent.start
  rounds := fun _ => none
  relays := fun _ => LockedObjects.World.start U.clear
  manager := AgentManager.initial
  polling := none
  begun := {}

/-- `round` and `poll` go as far as the request, `turn` is a step of a handler, and `back`
the end of a call for its client. -/
inductive Action (H : Type*)
  | round (host : H) (x : Sample) (sent : Bool)
  | poll (asked : Asked) (sent : Bool)
  | turn (addr : String) (c : Client H) (turn : Turn)
  | back (c : Client H)
  | startAgent (host : H)
  | startRelay (addr : String)
  | startManager

variable {U} in
/-- The relays when one of them does something. -/
def World.relayDoes (w : World U H) (addr : String)
    (action : LockedObjects.Action (Client H) Request) : String → RelayProcess U H :=
  Function.update w.relays addr (LockedObjects.step (handlers U m) (w.relays addr) action)

variable {U} in
/-- A round of an agent that is not in its call. -/
def World.round (fleet : Fleet.Hosts H) (w : World U H) (host : H) (x : Sample) (sent : Bool) :
    World U H :=
  match w.rounds host with
  | some _ => w
  | none =>
    let username := fleet.username host
    let agents := Function.update w.agents host (Agent.step runners username (w.agents host) x)
    match pushed runners username (w.agents host) x with
    | none => { w with agents := agents, begun := w.begun.round host none }
    | some info => { w with
        agents := agents
        begun := w.begun.round host (some info)
        rounds := Function.update w.rounds host (some x)
        relays :=
          if sent then w.relayDoes m (fleet.address host) (.call (.agent host) (.set info))
          else w.relays }

variable {U} in
def World.poll (w : World U H) (asked : Asked) (sent : Bool) : World U H :=
  match w.polling with
  | some _ => w
  | none => { w with
      polling := some asked
      begun := w.begun.poll asked.addr asked.now
      relays := if sent then w.relayDoes m asked.addr (.call .manager .get) else w.relays }

variable {U} in
/-- The end of a call: nobody works on it any more, or its handler has returned. -/
def World.back (fleet : Fleet.Hosts H) (w : World U H) : Client H → World U H
  | .agent host =>
    match w.rounds host, (w.relays (fleet.address host)).phase (.agent host) with
    | some _, .idle => { w with rounds := Function.update w.rounds host none }
    | some _, .done _ _ => { w with
        rounds := Function.update w.rounds host none
        relays := w.relayDoes m (fleet.address host) (.reply (.agent host)) }
    | _, _ => w
  | .manager =>
    match w.polling with
    | none => w
    | some asked =>
      match (w.relays asked.addr).phase .manager with
      | .idle => { w with
          polling := none
          manager := pollAgent w.manager ⟨.failed, asked.now⟩ }
      | .done _ response => { w with
          polling := none
          relays := w.relayDoes m asked.addr (.reply .manager)
          manager := pollAgent w.manager (asked.poll response) }
      | _ => w

def step (fleet : Fleet.Hosts H) (w : World U H) : Action H → World U H
  | .round host x sent => w.round m fleet host x sent
  | .poll asked sent => w.poll m asked sent
  | .turn addr c turn => { w with relays := w.relayDoes m addr (turn.action c) }
  | .back c => w.back m fleet c
  | .startAgent host =>
    match w.rounds host with
    | some _ => w
    | none => { w with agents := Function.update w.agents host (.running Agent.start) }
  | .startRelay addr =>
    { w with relays := Function.update w.relays addr ((w.relays addr).restart U.clear) }
  | .startManager =>
    match w.polling with
    | some _ => w
    | none => { w with manager := AgentManager.initial }

def run (fleet : Fleet.Hosts H) (schedule : List (Action H)) : World U H :=
  schedule.foldl (step U m fleet) (World.start U)

/-! ### The run of the fleet -/

variable {U} in
/-- What has happened in the fleet when the client's call is served. -/
def World.served (w : World U H) : Client H → List (Fleet.Event H)
  | .agent host => (w.rounds host).toList.map (fun x => .round host x true)
  | .manager => w.polling.toList.map (fun asked => .poll asked.addr asked.now asked.answered)

variable {U} in
/-- And when the client finds out that nobody serves it. -/
def World.lost (fleet : Fleet.Hosts H) (w : World U H) : Client H → List (Fleet.Event H)
  | .agent host =>
    match w.rounds host, (w.relays (fleet.address host)).phase (.agent host) with
    | some x, .idle => [.round host x false]
    | _, _ => []
  | .manager =>
    match w.polling with
    | none => []
    | some asked =>
      match (w.relays asked.addr).phase .manager with
      | .idle => [.poll asked.addr asked.now false]
      | _ => []

/-- The events of the fleet that a step stands for. A call is served by the turn after
which its operation has taken effect. -/
def happened (fleet : Fleet.Hosts H) (w : World U H) : Action H → List (Fleet.Event H)
  | .round host x _ =>
    match w.rounds host, pushed runners (fleet.username host) (w.agents host) x with
    | none, none => [.round host x false]
    | _, _ => []
  | .poll _ _ => []
  | .turn addr c turn =>
    match ((w.relays addr).phase c).stage,
      ((w.relayDoes m addr (turn.action c) addr).phase c).stage with
    | .called _, .committed _ _ => w.served c
    | _, _ => []
  | .back c => w.lost fleet c
  | .startAgent host =>
    match w.rounds host with
    | some _ => []
    | none => [.startAgent host]
  | .startRelay addr => [.startRelay addr]
  | .startManager =>
    match w.polling with
    | some _ => []
    | none => [.startManager]

def history (fleet : Fleet.Hosts H) (schedule : List (Action H)) : List (Fleet.Event H) :=
  (visits (step U m fleet) (World.start U) schedule).flatMap
    (fun v => happened U m fleet v.1 v.2)

/-- The fleet and the rounds and polls made in it. -/
structure Ledger (H : Type*) where
  world : Fleet.World U H
  made : Work H

def Ledger.start : Ledger U H where
  world := Fleet.World.start U
  made := {}

variable {U} in
def Ledger.step (fleet : Fleet.Hosts H) (f : Ledger U H) (e : Fleet.Event H) : Ledger U H where
  world := Fleet.step U fleet f.world e
  made :=
    match e with
    | .round host x _ =>
      f.made.round host (pushed runners (fleet.username host) (f.world.agents host) x)
    | .poll addr now _ => f.made.poll addr now
    | _ => f.made

def ledger (fleet : Fleet.Hosts H) (events : List (Fleet.Event H)) : Ledger U H :=
  events.foldl (Ledger.step fleet) (Ledger.start U)

@[simp] theorem Ledger.step_world (fleet : Fleet.Hosts H) (f : Ledger U H) (e : Fleet.Event H) :
    (f.step fleet e).world = Fleet.step U fleet f.world e := rfl

@[simp] theorem Ledger.made_round (fleet : Fleet.Hosts H) (f : Ledger U H) (host : H)
    (x : Sample) (delivered : Bool) : (f.step fleet (.round host x delivered)).made =
      f.made.round host (pushed runners (fleet.username host) (f.world.agents host) x) := rfl

@[simp] theorem Ledger.made_poll (fleet : Fleet.Hosts H) (f : Ledger U H) (addr : String)
    (now : ℤ) (answered : Bool) :
    (f.step fleet (.poll addr now answered)).made = f.made.poll addr now := rfl

theorem ledger_world (fleet : Fleet.Hosts H) (events : List (Fleet.Event H)) :
    (ledger U fleet events).world = Fleet.run U fleet events := by
  induction events using List.reverseRecOn with
  | nil => rfl
  | append_singleton events e ih =>
    rw [Fleet.run_concat, ← ih, ledger, List.foldl_append]
    rfl

end NodeMonitor.FleetThreads
