import NodeMonitor.AgentScores
import NodeMonitor.Relay

/-!
Agents, relays and one manager together. Agents push messages to the relay at
their address and the manager polls the relays, in any order; every call succeeds.
A relay answers a poll with a message pushed to it, except that before its first
push it answers OK with an empty message, which the manager stores as an agent.
-/

namespace NodeMonitor.Deployment

open Messages KeyedMaps Runs UnorderedMaps Relay AgentManager AgentScores

variable (U : UnorderedMap String MonitorInfo)

inductive Event
  | push (addr : String) (info : MonitorInfo)
  | poll (addr : String) (now : ℤ)

structure World where
  relays : String → U.State
  manager : AgentManager.State

def start : World U := ⟨fun _ => U.clear, AgentManager.initial⟩

/-- What the manager's loop gets when it asks the relay at an address. -/
def askRelay (w : World U) (addr : String) (now : ℤ) : Poll :=
  ⟨.ok (getMonitorInfo U (w.relays addr) MonitorInfo.default), now⟩

def step (w : World U) : Event → World U
  | .push addr info =>
    { w with
      relays := Function.update w.relays addr (setMonitorInfo U (w.relays addr) info) }
  | .poll addr now => { w with manager := pollAgent w.manager (askRelay U w addr now) }

def run (events : List Event) : World U := events.foldl (step U) (start U)

/-- The messages pushed to one relay. -/
def Event.pushedTo (addr : String) : Event → Option MonitorInfo
  | .push a info => if a = addr then some info else none
  | .poll _ _ => none

def pushes (addr : String) (events : List Event) : List MonitorInfo :=
  events.filterMap (Event.pushedTo addr)

theorem mem_pushes_iff (addr : String) (events : List Event) (info : MonitorInfo) :
    info ∈ pushes addr events ↔ Event.push addr info ∈ events := by
  unfold pushes
  rw [List.mem_filterMap]
  constructor
  · intro h
    obtain ⟨e, he, hpushed⟩ := h
    cases e with
    | push a i =>
      by_cases ha : a = addr
      · simp only [Event.pushedTo, ha, if_true, Option.some.injEq] at hpushed
        rw [← ha, ← hpushed] at *
        exact he
      · simp [Event.pushedTo, ha] at hpushed
    | poll a now => simp [Event.pushedTo] at hpushed
  · intro h
    exact ⟨_, h, by simp [Event.pushedTo]⟩

@[simp]
theorem pushes_cons_push (addr a : String) (info : MonitorInfo) (rest : List Event) :
    pushes addr (.push a info :: rest) =
      if a = addr then info :: pushes addr rest else pushes addr rest := by
  by_cases ha : a = addr
  · simp [pushes, Event.pushedTo, ha]
  · simp [pushes, Event.pushedTo, ha]

@[simp]
theorem pushes_cons_poll (addr a : String) (now : ℤ) (rest : List Event) :
    pushes addr (.poll a now :: rest) = pushes addr rest := rfl

/-- A relay has served exactly the pushes made to its address. -/
theorem relays_foldl (w : World U) (addr : String) (events : List Event) :
    (events.foldl (step U) w).relays addr =
      ((pushes addr events).map Request.set).foldl (serve U) (w.relays addr) := by
  induction events generalizing w with
  | nil => rfl
  | cons e rest ih =>
    rw [List.foldl_cons, ih (step U w e)]
    cases e with
    | push a info =>
      by_cases ha : a = addr
      · subst a
        simp [step, serve]
      · have hne : addr ≠ a := fun h => ha h.symm
        simp [step, ha, hne]
    | poll a now => rfl

theorem relays_run (addr : String) (events : List Event) :
    (run U events).relays addr =
      ((pushes addr events).map Request.set).foldl (serve U) U.clear :=
  relays_foldl U (start U) addr events

/-- The entry the manager stores for a poll was pushed to the polled relay before. -/
def Genuine (pre : List Event) (addr : String) (now : ℤ) : Prop :=
  let asked := askRelay U (run U pre) addr now
  ∃ info, Event.push addr info ∈ pre ∧ info.name = serverName asked ∧
    (scoreEntry asked).info = info

/-- Every poll comes after a push to the polled relay. -/
def PushedBeforePolled (events : List Event) : Prop :=
  ∀ pre addr now post, events = pre ++ .poll addr now :: post →
    ∃ info, Event.push addr info ∈ pre

theorem genuine_iff (pre : List Event) (addr : String) (now : ℤ) :
    Genuine U pre addr now ↔ ∃ info, Event.push addr info ∈ pre := by
  constructor
  · intro h
    obtain ⟨info, hpushed, _⟩ := h
    exact ⟨info, hpushed⟩
  · intro h
    obtain ⟨sent, hsent⟩ := h
    have hne : ((pushes addr pre).map Request.set).filterMap Request.sent ≠ [] := by
      rw [filterMap_sent_sets]
      exact List.ne_nil_of_mem ((mem_pushes_iff addr pre sent).mpr hsent)
    obtain ⟨info, hget, hlatest⟩ := getMonitorInfo_run U _ MonitorInfo.default hne
    rw [filterMap_sent_sets] at hlatest
    have hasked : askRelay U (run U pre) addr now = ⟨.ok info, now⟩ := by
      rw [askRelay, relays_run, hget]
    refine ⟨info, (mem_pushes_iff addr pre info).mp (latest_mem _ hlatest).1, ?_, ?_⟩
    · rw [hasked]
      rfl
    · rw [hasked]
      rfl

/-- A relay asked before its first push answers with an empty message, which is scored
under the empty name. -/
theorem unpushed_relay_scored (s : AgentManager.State) (pre : List Event) (addr : String)
    (now : ℤ) (h : pushes addr pre = []) :
    (pollAgent s (askRelay U (run U pre) addr now)).agentScores "" =
      some { info := MonitorInfo.default, score := 100, timestamp := now } := by
  have hempty : ((pushes addr pre).map Request.set).filterMap Request.sent = [] := by
    rw [filterMap_sent_sets, h]
  have hreceived : (askRelay U (run U pre) addr now).reply.received = MonitorInfo.default := by
    rw [askRelay, relays_run]
    exact getMonitorInfo_clear U _ MonitorInfo.default hempty
  exact (pollAgent_default s _ hreceived).1

/-- Every table entry was stored by some poll of the run. -/
theorem agentScores_run (events : List Event) (k : String) (e : AgentScore)
    (h : (run U events).manager.agentScores k = some e) :
    ∃ pre addr now post, events = pre ++ .poll addr now :: post ∧
      k = serverName (askRelay U (run U pre) addr now) ∧
      e = scoreEntry (askRelay U (run U pre) addr now) := by
  induction events using List.reverseRecOn with
  | nil => simp [run, start, AgentManager.initial] at h
  | append_singleton events last ih =>
    have hrun : run U (events ++ [last]) = step U (run U events) last := by
      simp [run, List.foldl_append]
    rw [hrun] at h
    cases last with
    | push addr info =>
      obtain ⟨pre, addr', now, post, heq, hk, he⟩ := ih h
      exact ⟨pre, addr', now, post ++ [.push addr info], by simp [heq], hk, he⟩
    | poll addr now =>
      simp only [step, agentScores_pollAgent, assign_apply] at h
      by_cases hk : k = serverName (askRelay U (run U events) addr now)
      · rw [if_pos hk] at h
        exact ⟨events, addr, now, [], rfl, hk, (Option.some.inj h).symm⟩
      · rw [if_neg hk] at h
        obtain ⟨pre, addr', now', post, heq, hk', he⟩ := ih h
        exact ⟨pre, addr', now', post ++ [.poll addr now], by simp [heq], hk', he⟩

/-- The manager stores only pushed messages exactly when it polls no relay before
that relay's first push; then every entry of the table is a pushed message. -/
theorem stored_entries_genuine_iff (events : List Event) :
    ((∀ pre addr now post, events = pre ++ .poll addr now :: post → Genuine U pre addr now) ↔
      PushedBeforePolled events) ∧
    (PushedBeforePolled events → ∀ k e, (run U events).manager.agentScores k = some e →
      ∃ pre addr now post, events = pre ++ .poll addr now :: post ∧ e.timestamp = now ∧
        ∃ info, Event.push addr info ∈ pre ∧ info.name = k ∧ e.info = info) := by
  refine ⟨⟨?_, ?_⟩, ?_⟩
  · intro hgenuine pre addr now post heq
    exact (genuine_iff U pre addr now).mp (hgenuine pre addr now post heq)
  · intro hpushed pre addr now post heq
    exact (genuine_iff U pre addr now).mpr (hpushed pre addr now post heq)
  · intro hpushed k e h
    obtain ⟨pre, addr, now, post, heq, hk, he⟩ := agentScores_run U events k e h
    obtain ⟨info, hmem, hname, hinfo⟩ :=
      (genuine_iff U pre addr now).mpr (hpushed pre addr now post heq)
    refine ⟨pre, addr, now, post, heq, ?_, info, hmem, ?_, ?_⟩
    · rw [he]
      rfl
    · rw [hk]
      exact hname
    · rw [he]
      exact hinfo

/-- A manager that polls before any push stores an agent nobody pushed. -/
theorem early_poll_invents_agent :
    ¬ ∀ (U : UnorderedMap String MonitorInfo) (events : List Event) pre addr now post,
      events = pre ++ .poll addr now :: post → Genuine U pre addr now := by
  intro h
  have hgenuine := h (listMap String MonitorInfo)
    [.poll "10.0.0.1:50051" 0, .push "10.0.0.1:50051" { name := "root" }] []
    "10.0.0.1:50051" 0 [.push "10.0.0.1:50051" { name := "root" }] rfl
  obtain ⟨info, hpushed, _⟩ := hgenuine
  exact absurd hpushed List.not_mem_nil

end NodeMonitor.Deployment
