import NodeMonitor.FleetThreads

/-!
The threads simulate the fleet. The call a client waits for has not been served yet, will
not be served any more, or has been served and the reply is on its way; the fleet makes the
round or the poll when the call is served, or when the client learns that it will not be.
-/

namespace NodeMonitor.FleetThreads

open Agent AgentManager AtomicObjects LockedObjects Messages Relay RelayThreads Runs
  UnorderedMaps

variable (U : UnorderedMap String MonitorInfo) (m : Subscript U) {H : Type*}

/-! ### The relation -/

abbrev AtomicRelay (H : Type*) := Atomic (Client H) Request (Option MonitorInfo) U.State

/-- The fleet's agent `q` for the agent `p`: it makes the round when the call is served, or
when it turns out to be lost. -/
inductive RoundView (username : String) (p : Process) (begun : List (Option MonitorInfo))
    (stage : Stage Request (Option MonitorInfo)) (q : Process) (made : List (Option MonitorInfo)) :
    Option Sample → Prop
  | between (h : q = p) (hmade : made = begun) : RoundView username p begun stage q made none
  | pending {x : Sample} {info : MonitorInfo} (hsent : pushed runners username q x = some info)
      (hstep : p = Agent.step runners username q x)
      (hstage : stage = .idle ∨ stage = .called (.set info)) (hmade : made ++ [some info] = begun) :
      RoundView username p begun stage q made (some x)
  | settled {x : Sample} {request : Request} {response : Option MonitorInfo}
      (hstage : stage = .committed request response) (h : q = p) (hmade : made = begun) :
      RoundView username p begun stage q made (some x)

/-- The fleet's manager `q` for the manager `s`, whose tables change at the end of a call. -/
inductive PollView (s : AgentManager.State) (begun : List (String × ℤ))
    (stage : String → Stage Request (Option MonitorInfo)) (q : AgentManager.State)
    (made : List (String × ℤ)) : Option Asked → Prop
  | between (h : q = s) (hmade : made = begun) : PollView s begun stage q made none
  | pending {asked : Asked} (hstage : stage asked.addr = .idle ∨ stage asked.addr = .called .get)
      (h : q = s) (hmade : made ++ [(asked.addr, asked.now)] = begun) :
      PollView s begun stage q made (some asked)
  | settled {asked : Asked} {request : Request} {response : Option MonitorInfo}
      (hstage : stage asked.addr = .committed request response)
      (h : q = pollAgent s (asked.poll response)) (hmade : made = begun) :
      PollView s begun stage q made (some asked)

variable {U}

/-- Where a client has a call. -/
def World.place (fleet : Fleet.Hosts H) (w : World U H) : Client H → Option String
  | .agent host => (w.rounds host).map (fun _ => fleet.address host)
  | .manager => w.polling.map Asked.addr

def View (fleet : Fleet.Hosts H) (w : World U H) (a : String → AtomicRelay U H)
    (f : Ledger U H) : Client H → Prop
  | .agent host => RoundView (fleet.username host) (w.agents host) (w.begun.rounds host)
      ((a (fleet.address host)).stage (.agent host)) (f.world.agents host) (f.made.rounds host)
      (w.rounds host)
  | .manager => PollView w.manager w.begun.polls (fun addr => (a addr).stage .manager)
      f.world.manager f.made.polls w.polling

/-- The relays are atomic objects with the fleet's maps, in which a client has no other call
than the one it waits for. -/
structure Simulates (fleet : Fleet.Hosts H) (w : World U H) (a : String → AtomicRelay U H)
    (f : Ledger U H) : Prop where
  relays : ∀ addr, Abstracts (handlers U m) (serveRequest U) (w.relays addr) (a addr)
  shared : ∀ addr, (a addr).shared = f.world.relays addr
  elsewhere : ∀ c addr, w.place fleet c ≠ some addr → (a addr).stage c = .idle
  views : ∀ c, View fleet w a f c

/-- Nothing that concerns the client has changed. -/
def Same (w w' : World U H) (f f' : Ledger U H) : Client H → Prop
  | .agent host => w'.rounds host = w.rounds host ∧ w'.agents host = w.agents host ∧
      f'.world.agents host = f.world.agents host ∧
      w'.begun.rounds host = w.begun.rounds host ∧ f'.made.rounds host = f.made.rounds host
  | .manager => w'.polling = w.polling ∧ w'.manager = w.manager ∧
      f'.world.manager = f.world.manager ∧ w'.begun.polls = w.begun.polls ∧
      f'.made.polls = f.made.polls

variable {m} {fleet : Fleet.Hosts H} {w w' : World U H} {a a' : String → AtomicRelay U H}
  {f f' : Ledger U H}

theorem Same.place {c : Client H} (h : Same w w' f f' c) : w'.place fleet c = w.place fleet c := by
  cases c with
  | agent host => simp only [World.place, h.1]
  | manager => simp only [World.place, h.1]

theorem Same.view {c : Client H} (h : Same w w' f f' c)
    (hstage : ∀ addr, (a' addr).stage c = (a addr).stage c) (hview : View fleet w a f c) :
    View fleet w' a' f' c := by
  cases c with
  | agent host =>
    obtain ⟨hcall, hstate, hfleet, hbegun, hmade⟩ := h
    simp only [View, hcall, hstate, hfleet, hbegun, hmade, hstage]
    exact hview
  | manager =>
    obtain ⟨hcall, hstate, hfleet, hbegun, hmade⟩ := h
    simp only [View, hcall, hstate, hfleet, hbegun, hmade, hstage]
    exact hview

theorem Simulates.agent (h : Simulates m fleet w a f) {host : H} (hround : w.rounds host = none) :
    f.world.agents host = w.agents host ∧ f.made.rounds host = w.begun.rounds host := by
  have hview := h.views (.agent host)
  simp only [View, hround] at hview
  cases hview with
  | between hagent hmade => exact ⟨hagent, hmade⟩

theorem Simulates.manager (h : Simulates m fleet w a f) (hpolling : w.polling = none) :
    f.world.manager = w.manager ∧ f.made.polls = w.begun.polls := by
  have hview := h.views .manager
  simp only [View, hpolling] at hview
  cases hview with
  | between hmanager hmade => exact ⟨hmanager, hmade⟩

/-- At any time the fleet has made all rounds but perhaps the last. -/
theorem Simulates.made_prefix (h : Simulates m fleet w a f) (host : H) :
    f.made.rounds host <+: w.begun.rounds host := by
  have hview := h.views (.agent host)
  cases hround : w.rounds host with
  | none => exact (h.agent hround).2 ▸ List.prefix_rfl
  | some x =>
    simp only [View, hround] at hview
    cases hview with
    | pending _ _ _ hmade => exact ⟨_, hmade⟩
    | settled _ _ hmade => exact hmade ▸ List.prefix_rfl

/-- A relay works on calls only that are waited for. -/
theorem Simulates.place_of_called (h : Simulates m fleet w a f) {addr : String} {c : Client H}
    {request : Request} (hcalled : (a addr).stage c = .called request) :
    w.place fleet c = some addr := by
  by_contra hne
  rw [h.elsewhere _ _ hne] at hcalled
  exact absurd hcalled (by simp)

/-- A call on which nobody works any more is on no relay. -/
theorem Simulates.idle_of_place (h : Simulates m fleet w a f) {addr : String} {c : Client H}
    (hplace : w.place fleet c = some addr) (hidle : (a addr).stage c = .idle) (other : String) :
    (a other).stage c = .idle := by
  by_cases hother : other = addr
  · rw [hother, hidle]
  · refine h.elsewhere c other ?_
    rw [hplace]
    exact fun heq => hother (Option.some.inj heq).symm

theorem Simulates.free (h : Simulates m fleet w a f) {addr : String}
    (hfree : (w.relays addr).holder = none) : (w.relays addr).shared = f.world.relays addr := by
  rw [← h.shared]
  cases (h.relays addr).guards with
  | free _ _ heq => exact heq
  | held u _ _ hheld => exact absurd (hfree.symm.trans hheld) (by simp)

theorem same_but_agent {host : H}
    (hagents : ∀ other, other ≠ host → Same w w' f f' (.agent other))
    (hmanager : Same w w' f f' .manager) (d : Client H) (hd : d ≠ .agent host) :
    Same w w' f f' d := by
  cases d with
  | agent other => exact hagents other (fun heq => hd (by rw [heq]))
  | manager => exact hmanager

theorem same_but_manager (hagents : ∀ host, Same w w' f f' (.agent host)) (d : Client H)
    (hd : d ≠ .manager) : Same w w' f f' d := by
  cases d with
  | agent host => exact hagents host
  | manager => exact absurd rfl hd

/-- One client goes on, and the others are left alone. -/
theorem Simulates.client (h : Simulates m fleet w a f) (c : Client H)
    (hsame : ∀ d, d ≠ c → Same w w' f f' d)
    (hstage : ∀ d, d ≠ c → ∀ addr, (a' addr).stage d = (a addr).stage d)
    (hrelays : ∀ addr, Abstracts (handlers U m) (serveRequest U) (w'.relays addr) (a' addr))
    (hshared : ∀ addr, (a' addr).shared = f'.world.relays addr)
    (hidle : ∀ addr, w'.place fleet c ≠ some addr → (a' addr).stage c = .idle)
    (hview : View fleet w' a' f' c) : Simulates m fleet w' a' f' where
  relays := hrelays
  shared := hshared
  elsewhere d addr hplace := by
    by_cases hd : d = c
    · subst hd
      exact hidle addr hplace
    · rw [hstage d hd]
      rw [(hsame d hd).place] at hplace
      exact h.elsewhere d addr hplace
  views d := by
    by_cases hd : d = c
    · subst hd
      exact hview
    · exact (hsame d hd).view (hstage d hd) (h.views d)

variable [DecidableEq H]

/-- The relays after a client's call at one of them has come to another stage. -/
def moved (a : String → AtomicRelay U H) (addr : String) (c : Client H) (s : U.State)
    (stage : Stage Request (Option MonitorInfo)) : String → AtomicRelay U H :=
  Function.update a addr ⟨s, Function.update (a addr).stage c stage⟩

@[simp] theorem moved_stage (a : String → AtomicRelay U H) (addr : String) (c : Client H)
    (s : U.State) (stage : Stage Request (Option MonitorInfo)) :
    (moved a addr c s stage addr).stage c = stage := by
  simp [moved]

theorem moved_stage_of_ne (a : String → AtomicRelay U H) (addr : String) {c d : Client H}
    (s : U.State) (stage : Stage Request (Option MonitorInfo)) (h : d ≠ c) (other : String) :
    (moved a addr c s stage other).stage d = (a other).stage d := by
  by_cases hother : other = addr
  · subst hother
    simp [moved, Function.update_of_ne h]
  · simp [moved, Function.update_of_ne hother]

/-- One relay does something for one client. -/
theorem Simulates.moved (h : Simulates m fleet w a f) (c : Client H)
    (stage : Stage Request (Option MonitorInfo)) {addr : String} {process : RelayProcess U H}
    {s : U.State}
    (hat : w.place fleet c = none ∨ w.place fleet c = some addr)
    (hsame : ∀ d, d ≠ c → Same w w' f f' d)
    (hrelays : w'.relays = Function.update w.relays addr process)
    (hprocess : Abstracts (handlers U m) (serveRequest U) process
      ⟨s, Function.update (a addr).stage c stage⟩)
    (hshared : f'.world.relays = Function.update f.world.relays addr s)
    (hidle : w'.place fleet c ≠ some addr → stage = .idle)
    (hview : View fleet w' (moved a addr c s stage) f' c) :
    Simulates m fleet w' (FleetThreads.moved a addr c s stage) f' := by
  refine h.client c hsame (fun d hd => moved_stage_of_ne a addr s stage hd) ?_ ?_ ?_ hview
  · intro other
    by_cases hother : other = addr
    · subst hother
      simpa [hrelays, FleetThreads.moved] using hprocess
    · simpa [hrelays, FleetThreads.moved, Function.update_of_ne hother] using h.relays other
  · intro other
    by_cases hother : other = addr
    · subst hother
      simp [hshared, FleetThreads.moved]
    · simpa [hshared, FleetThreads.moved, Function.update_of_ne hother] using h.shared other
  · intro other hplace
    by_cases hother : other = addr
    · subst hother
      rw [moved_stage]
      exact hidle hplace
    · rw [FleetThreads.moved, Function.update_of_ne hother]
      refine h.elsewhere c other (fun heq => ?_)
      rcases hat with hnone | hsome
      · exact absurd (hnone.symm.trans heq) (by simp)
      · exact hother (Option.some.inj (heq.symm.trans hsome))

/-! ### Steps -/

theorem relays_of_lost (f : Ledger U H) (host : H) (x : Sample) :
    (f.step fleet (.round host x false)).world.relays = f.world.relays := by
  simp only [Ledger.step_world, Fleet.step]
  cases pushed runners (fleet.username host) (f.world.agents host) x with
  | none => exact Function.update_eq_self ..
  | some info => exact Function.update_eq_self ..

theorem Simulates.round (h : Simulates m fleet w a f) (host : H) (x : Sample) (sent : Bool) :
    ∃ a', Simulates m fleet (w.round m fleet host x sent) a'
      ((happened U m fleet w (.round host x sent)).foldl (Ledger.step fleet) f) := by
  cases hround : w.rounds host with
  | some y => exact ⟨a, by simpa only [World.round, happened, hround, List.foldl_nil] using h⟩
  | none =>
    obtain ⟨hagent, hmade⟩ := h.agent hround
    have hidle : ∀ addr, (a addr).stage (.agent host) = .idle := by
      intro addr
      exact h.elsewhere _ addr (by simp [World.place, hround])
    cases hsent : pushed runners (fleet.username host) (w.agents host) x with
    | none =>
      refine ⟨a, ?_⟩
      simp only [World.round, happened, hround, hsent, List.foldl_cons, List.foldl_nil]
      refine h.client (.agent host) ?_ (fun _ _ _ => rfl) h.relays ?_ ?_ ?_
      · exact same_but_agent (fun other hne => by simp [Same, Fleet.step, hne])
          (by simp [Same, Fleet.step])
      · intro addr
        rw [relays_of_lost]
        exact h.shared addr
      · intro addr _
        exact hidle addr
      · simp only [View, Function.update_self, hround]
        exact .between (by simp [Fleet.step, hagent]) (by simp [hmade, hagent, hsent])
    | some info =>
      simp only [World.round, happened, hround, hsent, List.foldl_nil]
      have hsame : ∀ relays d, d ≠ .agent host → Same w { w with
          agents := Function.update w.agents host
            (Agent.step runners (fleet.username host) (w.agents host) x)
          begun := w.begun.round host (some info)
          rounds := Function.update w.rounds host (some x)
          relays := relays } f f d := fun relays =>
        same_but_agent (fun other hne => by simp [Same, hne]) (by simp [Same])
      cases sent with
      | false =>
        refine ⟨a, h.client (.agent host) (hsame _) (fun _ _ _ => rfl) h.relays h.shared
          (fun addr _ => hidle addr) ?_⟩
        simp only [View, Function.update_self]
        exact .pending (by rw [hagent]; exact hsent) (by rw [hagent]) (Or.inl (hidle _))
          (by simp [hmade])
      | true =>
        refine ⟨_, h.moved (.agent host) (.called (.set info)) ?_ (hsame _) rfl
          ((h.relays _).call (hidle _) (.set info)) ?_ ?_ ?_⟩
        · exact Or.inl (by simp [World.place, hround])
        · rw [h.shared, Function.update_eq_self]
        · intro hplace
          exact absurd hplace (by simp [World.place])
        · simp only [View, Function.update_self, moved_stage]
          exact .pending (by rw [hagent]; exact hsent) (by rw [hagent]) (Or.inr rfl)
            (by simp [hmade])

theorem Simulates.poll (h : Simulates m fleet w a f) (asked : Asked) (sent : Bool) :
    ∃ a', Simulates m fleet (w.poll m asked sent) a' f := by
  cases hpolling : w.polling with
  | some other => exact ⟨a, by simpa only [World.poll, hpolling] using h⟩
  | none =>
    obtain ⟨hmanager, hmade⟩ := h.manager hpolling
    have hidle : ∀ addr, (a addr).stage .manager = .idle := by
      intro addr
      exact h.elsewhere _ addr (by simp [World.place, hpolling])
    have hsame : ∀ relays d, d ≠ .manager →
        Same w { w with
          polling := some asked
          begun := w.begun.poll asked.addr asked.now
          relays := relays } f f d := fun relays =>
      same_but_manager (fun host => by simp [Same])
    simp only [World.poll, hpolling]
    cases sent with
    | false =>
      exact ⟨a, h.client .manager (hsame _) (fun _ _ _ => rfl) h.relays h.shared
        (fun addr _ => hidle addr) (.pending (Or.inl (hidle _)) hmanager (by simp [hmade]))⟩
    | true =>
      refine ⟨_, h.moved .manager (.called .get) ?_ (hsame _) rfl
        ((h.relays _).call (hidle _) .get) ?_ ?_ ?_⟩
      · exact Or.inl (by simp [World.place, hpolling])
      · rw [h.shared, Function.update_eq_self]
      · intro hplace
        exact absurd hplace (by simp [World.place])
      · refine .pending (Or.inr ?_) hmanager (by simp [hmade])
        simp

/-- A turn of a handler that serves the call of an agent. -/
theorem Simulates.served_agent (h : Simulates m fleet w a f) {addr : String} {host : H}
    {request : Request} (hcalled : (a addr).stage (.agent host) = .called request)
    {process : RelayProcess U H} (hprocess : Abstracts (handlers U m) (serveRequest U) process
      ⟨serve U (a addr).shared request, Function.update (a addr).stage (.agent host)
        (.committed request (respond U (a addr).shared request))⟩) :
    ∃ a', Simulates m fleet { w with relays := Function.update w.relays addr process } a'
      ((w.served (.agent host)).foldl (Ledger.step fleet) f) := by
  have hplace := h.place_of_called hcalled
  obtain ⟨x, hround, haddr⟩ := Option.map_eq_some_iff.mp hplace
  subst haddr
  have hview := h.views (.agent host)
  simp only [View, hround] at hview
  cases hview with
  | settled hstage _ _ =>
    rw [hcalled] at hstage
    exact absurd hstage (by simp)
  | @pending _ info hsent hstep hstage hmade =>
    obtain rfl : request = .set info := by
      rcases hstage with hstage | hstage
      · rw [hcalled] at hstage
        exact absurd hstage (by simp)
      · rw [hcalled] at hstage
        exact Stage.called.inj hstage
    simp only [World.served, hround, Option.toList_some, List.map_cons, List.map_nil,
      List.foldl_cons, List.foldl_nil]
    refine ⟨_, h.moved (.agent host) _ ?_ ?_ rfl hprocess ?_ ?_ ?_⟩
    · exact Or.inr hplace
    · exact same_but_agent (fun other hne => by simp [Same, Fleet.step, hne])
        (by simp [Same, Fleet.step])
    · simp only [Ledger.step_world, Fleet.step, hsent, Fleet.receive, if_true, serve, h.shared]
    · intro hne
      exact absurd hplace hne
    · simp only [View, moved_stage, hround]
      exact .settled rfl (by simp [Fleet.step, hstep]) (by simp [hsent, hmade])

/-- A turn of a handler that serves the call of the manager. -/
theorem Simulates.served_manager (h : Simulates m fleet w a f) {addr : String}
    {request : Request} (hcalled : (a addr).stage .manager = .called request)
    {process : RelayProcess U H} (hprocess : Abstracts (handlers U m) (serveRequest U) process
      ⟨serve U (a addr).shared request, Function.update (a addr).stage .manager
        (.committed request (respond U (a addr).shared request))⟩) :
    ∃ a', Simulates m fleet { w with relays := Function.update w.relays addr process } a'
      ((w.served .manager).foldl (Ledger.step fleet) f) := by
  have hplace := h.place_of_called hcalled
  obtain ⟨asked, hpolling, haddr⟩ := Option.map_eq_some_iff.mp hplace
  subst haddr
  have hview := h.views .manager
  simp only [View, hpolling] at hview
  cases hview with
  | settled hstage _ _ =>
    rw [hcalled] at hstage
    exact absurd hstage (by simp)
  | pending hstage hmanager hmade =>
    obtain rfl : request = .get := by
      rcases hstage with hstage | hstage
      · rw [hcalled] at hstage
        exact absurd hstage (by simp)
      · rw [hcalled] at hstage
        exact Stage.called.inj hstage
    simp only [World.served, hpolling, Option.toList_some, List.map_cons, List.map_nil,
      List.foldl_cons, List.foldl_nil]
    refine ⟨_, h.moved .manager _ ?_ ?_ rfl hprocess ?_ ?_ ?_⟩
    · exact Or.inr hplace
    · exact same_but_manager (fun host => by simp [Same, Fleet.step])
    · simp only [Ledger.step_world, Fleet.step, serve, h.shared, Function.update_eq_self]
    · intro hne
      exact absurd rfl hne
    · simp only [View]
      refine .settled (moved_stage ..) ?_ (by simpa using hmade)
      simp only [Ledger.step_world, Fleet.step, hmanager, h.shared]
      rfl

theorem Simulates.back_agent (h : Simulates m fleet w a f) (host : H) :
    ∃ a', Simulates m fleet (w.back m fleet (.agent host)) a'
      ((w.lost fleet (.agent host)).foldl (Ledger.step fleet) f) := by
  cases hround : w.rounds host with
  | none => exact ⟨a, by simpa only [World.back, World.lost, hround, List.foldl_nil] using h⟩
  | some x =>
    have hat := (h.relays (fleet.address host)).stage_at (.agent host)
    have hview := h.views (.agent host)
    have hplace : w.place fleet (.agent host) = some (fleet.address host) := by
      simp [World.place, hround]
    have hdone : ∀ relays d, d ≠ .agent host → Same w { w with
        rounds := Function.update w.rounds host none, relays := relays } f f d := fun relays =>
      same_but_agent (fun other hne => by simp [Same, hne]) (by simp [Same])
    simp only [View, hround] at hview
    cases hphase : (w.relays (fleet.address host)).phase (.agent host) with
    | idle =>
      rw [hphase, Phase.stage] at hat
      simp only [World.back, World.lost, hround, hphase, List.foldl_cons, List.foldl_nil]
      cases hview with
      | settled hstage _ _ =>
        rw [hat] at hstage
        exact absurd hstage (by simp)
      | @pending _ info hsent hstep _ hmade =>
        refine ⟨a, h.client (.agent host) ?_ (fun _ _ _ => rfl) h.relays ?_ ?_ ?_⟩
        · exact same_but_agent (fun other hne => by simp [Same, Fleet.step, hne])
            (by simp [Same, Fleet.step])
        · intro addr
          rw [relays_of_lost]
          exact h.shared addr
        · intro addr _
          exact h.idle_of_place hplace hat addr
        · simp only [View, Function.update_self]
          exact .between (by simp [Fleet.step, hstep]) (by simp [hsent, hmade])
    | done request response =>
      rw [hphase, Phase.stage] at hat
      simp only [World.back, World.lost, hround, hphase, List.foldl_nil]
      cases hview with
      | pending _ _ hstage _ =>
        rw [hat] at hstage
        exact absurd hstage (by simp)
      | settled _ hagent hmade =>
        obtain ⟨_, hreply⟩ := (h.relays (fleet.address host)).reply hat
        refine ⟨_, h.moved (.agent host) .idle ?_ (hdone _) rfl hreply ?_
          (fun _ => rfl) ?_⟩
        · exact Or.inr hplace
        · rw [h.shared, Function.update_eq_self]
        · simp only [View, Function.update_self]
          exact .between hagent hmade
    | _ =>
      refine ⟨a, ?_⟩
      simpa only [World.back, World.lost, hround, hphase, List.foldl_nil] using h

theorem Simulates.back_manager (h : Simulates m fleet w a f) :
    ∃ a', Simulates m fleet (w.back m fleet .manager) a'
      ((w.lost fleet .manager).foldl (Ledger.step fleet) f) := by
  cases hpolling : w.polling with
  | none => exact ⟨a, by simpa only [World.back, World.lost, hpolling, List.foldl_nil] using h⟩
  | some asked =>
    have hat := (h.relays asked.addr).stage_at .manager
    have hview := h.views .manager
    have hplace : w.place fleet .manager = some asked.addr := by
      simp [World.place, hpolling]
    simp only [View, hpolling] at hview
    cases hphase : (w.relays asked.addr).phase .manager with
    | idle =>
      rw [hphase, Phase.stage] at hat
      simp only [World.back, World.lost, hpolling, hphase, List.foldl_cons, List.foldl_nil]
      cases hview with
      | settled hstage _ _ =>
        rw [hat] at hstage
        exact absurd hstage (by simp)
      | pending _ hmanager hmade =>
        refine ⟨a, h.client .manager ?_ (fun _ _ _ => rfl) h.relays h.shared ?_ ?_⟩
        · exact same_but_manager (fun host => by simp [Same, Fleet.step])
        · intro addr _
          exact h.idle_of_place hplace hat addr
        · refine .between ?_ (by simpa using hmade)
          simp [Fleet.step, Fleet.ask, hmanager]
    | done request response =>
      rw [hphase, Phase.stage] at hat
      simp only [World.back, World.lost, hpolling, hphase, List.foldl_nil]
      cases hview with
      | pending hstage _ _ =>
        rw [hat] at hstage
        exact absurd hstage (by simp)
      | settled hstage hmanager hmade =>
        rw [hat] at hstage
        obtain ⟨_, rfl⟩ := Stage.committed.inj hstage
        obtain ⟨_, hreply⟩ := (h.relays asked.addr).reply hat
        refine ⟨_, h.moved .manager .idle ?_ ?_ rfl hreply ?_
          (fun _ => rfl) (.between hmanager hmade)⟩
        · exact Or.inr hplace
        · exact same_but_manager (fun host => by simp [Same])
        · rw [h.shared, Function.update_eq_self]
    | _ =>
      refine ⟨a, ?_⟩
      simpa only [World.back, World.lost, hpolling, hphase, List.foldl_nil] using h

theorem Simulates.startAgent (h : Simulates m fleet w a f) (host : H) :
    ∃ a', Simulates m fleet (step U m fleet w (.startAgent host)) a'
      ((happened U m fleet w (.startAgent host)).foldl (Ledger.step fleet) f) := by
  refine ⟨a, ?_⟩
  cases hround : w.rounds host with
  | some x => simpa only [step, happened, hround, List.foldl_nil] using h
  | none =>
    simp only [step, happened, hround, List.foldl_cons, List.foldl_nil]
    refine h.client (.agent host) ?_ (fun _ _ _ => rfl) h.relays h.shared ?_ ?_
    · exact same_but_agent (fun other hne => by simp [Same, Ledger.step, Fleet.step, hne])
        (by simp [Same, Ledger.step, Fleet.step])
    · intro addr _
      exact h.elsewhere _ addr (by simp [World.place, hround])
    · simp only [View, Function.update_self, hround]
      exact .between (by simp [Fleet.step]) (h.agent hround).2

theorem Simulates.startManager (h : Simulates m fleet w a f) :
    ∃ a', Simulates m fleet (step U m fleet w .startManager) a'
      ((happened U m fleet w .startManager).foldl (Ledger.step fleet) f) := by
  refine ⟨a, ?_⟩
  cases hpolling : w.polling with
  | some asked => simpa only [step, happened, hpolling, List.foldl_nil] using h
  | none =>
    simp only [step, happened, hpolling, List.foldl_cons, List.foldl_nil]
    refine h.client .manager ?_ (fun _ _ _ => rfl) h.relays h.shared ?_ ?_
    · exact same_but_manager (fun host => by simp [Same, Ledger.step, Fleet.step])
    · intro addr _
      exact h.elsewhere _ addr (by simp [World.place, hpolling])
    · simp only [View]
      exact .between rfl (h.manager hpolling).2

/-- The calls a relay was serving are lost, the replies it has sent are not. -/
theorem Simulates.startRelay (h : Simulates m fleet w a f) (addr : String) :
    ∃ a', Simulates m fleet (step U m fleet w (.startRelay addr)) a'
      ((happened U m fleet w (.startRelay addr)).foldl (Ledger.step fleet) f) := by
  refine ⟨Function.update a addr ⟨U.clear, fun c => ((a addr).stage c).answered⟩, ?_⟩
  have hstage : ∀ other c,
      (Function.update a addr ⟨U.clear, fun c => ((a addr).stage c).answered⟩ other).stage c =
        (a other).stage c ∨
      (Function.update a addr ⟨U.clear, fun c => ((a addr).stage c).answered⟩ other).stage c =
        .idle ∧ ∀ request response, (a other).stage c ≠ .committed request response := by
    intro other c
    by_cases hother : other = addr
    · subst hother
      rw [Function.update_self]
      cases hc : (a other).stage c with
      | committed request response => exact Or.inl (by simp [hc, Stage.answered])
      | _ => exact Or.inr (by simp [hc, Stage.answered])
    · exact Or.inl (by rw [Function.update_of_ne hother])
  simp only [step, happened, List.foldl_cons, List.foldl_nil]
  refine ⟨?_, ?_, ?_, ?_⟩
  · intro other
    by_cases hother : other = addr
    · subst hother
      simpa using (h.relays other).restart U.clear
    · simpa [hother] using h.relays other
  · intro other
    by_cases hother : other = addr
    · subst hother
      simp [Fleet.step]
    · simpa [Fleet.step, hother] using h.shared other
  · intro c other hplace
    rcases hstage other c with hsame | ⟨hidle, _⟩
    · rw [hsame]
      exact h.elsewhere c other hplace
    · exact hidle
  · intro c
    cases c with
    | agent host =>
      have hview := h.views (.agent host)
      simp only [View] at hview ⊢
      rcases hstage (fleet.address host) (.agent host) with hsame | ⟨hidle, hnot⟩
      · rw [hsame]
        exact hview
      · rw [hidle]
        cases hround : w.rounds host with
        | none =>
          rw [hround] at hview
          cases hview with
          | between heq hmade => exact .between heq hmade
        | some x =>
          rw [hround] at hview
          cases hview with
          | pending hsent hstep _ hmade => exact .pending hsent hstep (Or.inl rfl) hmade
          | settled hcommitted _ _ => exact absurd hcommitted (hnot _ _)
    | manager =>
      have hview := h.views .manager
      simp only [View] at hview ⊢
      cases hpolling : w.polling with
      | none =>
        rw [hpolling] at hview
        cases hview with
        | between heq hmade => exact .between heq hmade
      | some asked =>
        rw [hpolling] at hview
        rcases hstage asked.addr .manager with hsame | ⟨hidle, hnot⟩
        · cases hview with
          | pending hcalled heq hmade => exact .pending (by rw [hsame]; exact hcalled) heq hmade
          | settled hcommitted heq hmade =>
            exact .settled (by rw [hsame]; exact hcommitted) heq hmade
        · cases hview with
          | pending _ heq hmade => exact .pending (Or.inl hidle) heq hmade
          | settled hcommitted _ _ => exact absurd hcommitted (hnot _ _)

theorem Simulates.turn (h : Simulates m fleet w a f) (addr : String) (c : Client H)
    (turn : Turn) :
    ∃ a', Simulates m fleet (step U m fleet w (.turn addr c turn)) a'
      ((happened U m fleet w (.turn addr c turn)).foldl (Ledger.step fleet) f) := by
  rcases (h.relays addr).turn (handlers_implement U m) c turn with
    hkeep | ⟨request, hcalled, hserved⟩
  · have hnone : happened U m fleet w (.turn addr c turn) = [] := by
      simp only [happened, World.relayDoes, Function.update_self, ← (h.relays addr).stage_at,
        ← hkeep.stage_at]
      cases (a addr).stage c <;> rfl
    rw [hnone]
    refine ⟨a, ?_, h.shared, h.elsewhere, h.views⟩
    intro other
    by_cases hother : other = addr
    · subst hother
      simpa [step, World.relayDoes] using hkeep
    · simpa [step, World.relayDoes, hother] using h.relays other
  · have hsome : happened U m fleet w (.turn addr c turn) = w.served c := by
      simp only [happened, World.relayDoes, Function.update_self, ← (h.relays addr).stage_at,
        ← hserved.stage_at, hcalled]
    rw [hsome]
    cases c with
    | agent host => exact h.served_agent hcalled hserved
    | manager => exact h.served_manager hcalled hserved

theorem Simulates.step (h : Simulates m fleet w a f) (action : Action H) :
    ∃ a', Simulates m fleet (step U m fleet w action) a'
      ((happened U m fleet w action).foldl (Ledger.step fleet) f) := by
  cases action with
  | round host x sent => exact h.round host x sent
  | poll asked sent => exact h.poll asked sent
  | turn addr c turn => exact h.turn addr c turn
  | back c =>
    cases c with
    | agent host => exact h.back_agent host
    | manager => exact h.back_manager
  | startAgent host => exact h.startAgent host
  | startRelay addr => exact h.startRelay addr
  | startManager => exact h.startManager

variable (U m fleet)

omit [DecidableEq H] in
theorem start_simulates : Simulates m fleet (World.start U)
    (fun _ => Atomic.start U.clear) (Ledger.start U) where
  relays _ := start_abstracts U.clear
  shared _ := rfl
  elsewhere _ _ _ := rfl
  views c := by
    cases c with
    | agent host => exact .between rfl rfl
    | manager => exact .between rfl rfl

theorem run_simulates (schedule : List (Action H)) :
    ∃ a, Simulates m fleet (run U m fleet schedule) a
      (ledger U fleet (history U m fleet schedule)) := by
  induction schedule using List.reverseRecOn with
  | nil => exact ⟨_, start_simulates U m fleet⟩
  | append_singleton schedule action ih =>
    obtain ⟨a, ha⟩ := ih
    have hrun : run U m fleet (schedule ++ [action]) =
        FleetThreads.step U m fleet (run U m fleet schedule) action := by
      simp [run, List.foldl_append]
    have hhistory : history U m fleet (schedule ++ [action]) =
        history U m fleet schedule ++ happened U m fleet (run U m fleet schedule) action := by
      simp [history, visits_append, visits, run]
    rw [hrun, hhistory, ledger, List.foldl_append]
    exact ha.step action

end NodeMonitor.FleetThreads
