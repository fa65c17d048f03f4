import NodeMonitor.FleetSimulation
import NodeMonitor.Registers

/-!
Scores do not go back in time. Where every host has a relay and a login name to itself, the
message behind its score is that of one of its rounds, and the later one looks, in whatever
way the calls of agents and manager overlap, the later the round.
-/

namespace NodeMonitor.Freshness

open Agent AgentManager FleetThreads KeyedMaps Messages Registers Score UnorderedMaps

variable {H : Type*} [DecidableEq H]

/-- A host's register with the numbers of its rounds: of the one whose message its relay
holds, and of the last one the manager has got the message of. -/
structure Numbered where
  register : Register := {}
  rounds : List (Option MonitorInfo) := []
  held : Option ℕ := none
  shown : ℕ := 0

/-- The message of a host's next round. -/
def Numbered.message (fleet : Fleet.Hosts H) (host : H) (n : Numbered) (x : Sample) :
    Option MonitorInfo := pushed runners (fleet.username host) n.register.agent x

def Numbered.step (fleet : Fleet.Hosts H) (host : H) (n : Numbered) (e : Fleet.Event H) :
    Numbered :=
  let next := { n with register := n.register.step fleet host e }
  match e with
  | .round g x delivered =>
    if g = host then
      { next with
        rounds := n.rounds ++ [n.message fleet host x]
        held := if delivered && (n.message fleet host x).isSome then some n.rounds.length
          else n.held }
    else next
  | .poll addr _ answered =>
    if addr = fleet.address host ∧ answered = true then
      { next with shown := n.held.getD n.shown }
    else next
  | .startRelay addr => if addr = fleet.address host then { next with held := none } else next
  | _ => next

def numbered (fleet : Fleet.Hosts H) (host : H) (events : List (Fleet.Event H)) : Numbered :=
  events.foldl (Numbered.step fleet host) {}

/-- The numbers belong to the messages, and what the relay holds is not older than what the
manager has got. -/
structure Ordered (n : Numbered) : Prop where
  current : ∀ info, n.register.current = some info →
    ∃ k, n.held = some k ∧ n.rounds[k]? = some (some info)
  cleared : n.register.current = none → n.held = none
  seen : ∀ info now, n.register.seen = some (info, now) →
    n.rounds[n.shown]? = some (some info)
  shown_le_held : ∀ k, n.held = some k → n.shown ≤ k
  shown_le_length : n.shown ≤ n.rounds.length

theorem ordered_start : Ordered {} where
  current _ h := absurd h (by simp)
  cleared _ := rfl
  seen _ _ h := absurd h (by simp)
  shown_le_held _ h := absurd h (by simp)
  shown_le_length := Nat.zero_le _

variable {fleet : Fleet.Hosts H} {host : H} {n : Numbered}

theorem Ordered.held_lt (h : Ordered n) {k : ℕ} (hk : n.held = some k) : k < n.rounds.length := by
  cases hcurrent : n.register.current with
  | none =>
    rw [h.cleared hcurrent] at hk
    exact absurd hk (by simp)
  | some info =>
    obtain ⟨l, hl, hround⟩ := h.current info hcurrent
    obtain rfl : l = k := Option.some.inj (hl.symm.trans hk)
    exact (List.getElem?_eq_some_iff.mp hround).1

/-- Later rounds leave the messages of the earlier ones. -/
theorem getElem?_append_of_eq {rounds : List (Option MonitorInfo)} {k : ℕ} {info : MonitorInfo}
    (h : rounds[k]? = some (some info)) (more : List (Option MonitorInfo)) :
    (rounds ++ more)[k]? = some (some info) := by
  obtain ⟨hk, _⟩ := List.getElem?_eq_some_iff.mp h
  rw [List.getElem?_append_left hk]
  exact h

/-- A round whose message does not arrive. -/
theorem Ordered.append (h : Ordered n) (message : Option MonitorInfo) {r : Register}
    (hcurrent : r.current = n.register.current) (hseen : r.seen = n.register.seen) :
    Ordered { n with register := r, rounds := n.rounds ++ [message] } where
  current info hinfo := by
    obtain ⟨k, hk, hround⟩ := h.current info (hcurrent.symm.trans hinfo)
    exact ⟨k, hk, getElem?_append_of_eq hround [message]⟩
  cleared hnone := h.cleared (hcurrent.symm.trans hnone)
  seen info now hinfo := getElem?_append_of_eq (h.seen info now (hseen.symm.trans hinfo)) [message]
  shown_le_held := h.shown_le_held
  shown_le_length := by
    rw [List.length_append]
    exact Nat.le_add_right_of_le h.shown_le_length

/-- And one whose message does. -/
theorem Ordered.deliver (h : Ordered n) (info : MonitorInfo) {r : Register}
    (hcurrent : r.current = some info) (hseen : r.seen = n.register.seen) :
    Ordered { n with
      register := r
      rounds := n.rounds ++ [some info]
      held := some n.rounds.length } where
  current sent hsent := by
    obtain rfl : info = sent := Option.some.inj (hcurrent.symm.trans hsent)
    exact ⟨n.rounds.length, rfl, List.getElem?_concat_length⟩
  cleared hnone := absurd (hcurrent.symm.trans hnone) (by simp)
  seen sent now hsent :=
    getElem?_append_of_eq (h.seen sent now (hseen.symm.trans hsent)) [some info]
  shown_le_held k hk := by
    obtain rfl : n.rounds.length = k := Option.some.inj hk
    exact h.shown_le_length
  shown_le_length := by
    rw [List.length_append]
    exact Nat.le_add_right_of_le h.shown_le_length

theorem Ordered.round (h : Ordered n) (x : Sample) (delivered : Bool) :
    Ordered (n.step fleet host (.round host x delivered)) := by
  cases hmessage : n.message fleet host x with
  | none =>
    have hsent : pushed runners (fleet.username host) n.register.agent x = none := hmessage
    simp only [Numbered.step, if_true, hmessage, Option.isSome_none, Bool.and_false]
    exact h.append none (by simp [Register.step, hsent]) (by simp [Register.step])
  | some info =>
    have hsent : pushed runners (fleet.username host) n.register.agent x = some info := hmessage
    simp only [Numbered.step, if_true, hmessage, Option.isSome_some, Bool.and_true]
    cases delivered with
    | false => exact h.append (some info) (by simp [Register.step]) (by simp [Register.step])
    | true => exact h.deliver info (by simp [Register.step, hsent]) (by simp [Register.step])

/-- The manager gets what the relay holds, if anything. -/
theorem Ordered.poll (h : Ordered n) (addr : String) (now : ℤ) (answered : Bool) :
    Ordered (n.step fleet host (.poll addr now answered)) := by
  simp only [Numbered.step, Register.step]
  by_cases hat : addr = fleet.address host ∧ answered = true
  · rw [if_pos hat, if_pos hat]
    cases hcurrent : n.register.current with
    | none =>
      have hheld := h.cleared hcurrent
      refine ⟨?_, fun _ => hheld, ?_, ?_, ?_⟩
      · exact fun info hinfo => absurd hinfo (by simp)
      · simpa [hheld] using h.seen
      · intro k hk
        exact absurd (hheld.symm.trans hk) (by simp)
      · simpa [hheld] using h.shown_le_length
    | some info =>
      obtain ⟨k, hheld, hround⟩ := h.current info hcurrent
      refine ⟨?_, ?_, ?_, ?_, ?_⟩
      · intro other hother
        exact h.current other (hcurrent.trans hother)
      · exact fun hnone => absurd hnone (by simp)
      · intro other time hother
        simp only [Option.map_some, Option.some_or, Option.some.injEq, Prod.mk.injEq] at hother
        simpa [hheld, ← hother.1] using hround
      · intro l hl
        simp only [hheld, Option.getD_some] at hl ⊢
        exact (Option.some.inj hl).le
      · simp only [hheld, Option.getD_some]
        exact (h.held_lt hheld).le
  · rw [if_neg hat, if_neg hat]
    exact h

theorem Ordered.step (h : Ordered n) (e : Fleet.Event H) :
    Ordered (n.step fleet host e) ∧ n.shown ≤ (n.step fleet host e).shown := by
  cases e with
  | round g x delivered =>
    by_cases hg : g = host
    · subst hg
      exact ⟨h.round x delivered, by simp [Numbered.step]⟩
    · simp only [Numbered.step, Register.step, hg, if_false]
      exact ⟨h, le_rfl⟩
  | poll addr now answered =>
    refine ⟨h.poll addr now answered, ?_⟩
    simp only [Numbered.step]
    split
    · cases hheld : n.held with
      | none => exact le_rfl
      | some k => exact h.shown_le_held k hheld
    · exact le_rfl
  | startAgent g =>
    by_cases hg : g = host
    · simp only [Numbered.step, Register.step, hg, if_true]
      exact ⟨⟨h.current, h.cleared, h.seen, h.shown_le_held, h.shown_le_length⟩, le_rfl⟩
    · simp only [Numbered.step, Register.step, hg, if_false]
      exact ⟨h, le_rfl⟩
  | startRelay addr =>
    simp only [Numbered.step, Register.step]
    split
    · refine ⟨⟨?_, fun _ => rfl, h.seen, ?_, h.shown_le_length⟩, le_rfl⟩
      · exact fun info hinfo => absurd hinfo (by simp)
      · exact fun k hk => absurd hk (by simp)
    · exact ⟨h, le_rfl⟩
  | startManager =>
    refine ⟨⟨h.current, h.cleared, ?_, h.shown_le_held, h.shown_le_length⟩, le_rfl⟩
    exact fun info now hinfo => absurd hinfo (by simp [Numbered.step, Register.step])

theorem foldl_ordered (events : List (Fleet.Event H)) (h : Ordered n) :
    Ordered (events.foldl (Numbered.step fleet host) n) ∧
      n.shown ≤ (events.foldl (Numbered.step fleet host) n).shown := by
  induction events generalizing n with
  | nil => exact ⟨h, le_rfl⟩
  | cons e rest ih =>
    obtain ⟨hstep, hle⟩ := h.step e
    obtain ⟨hrest, hle'⟩ := ih hstep
    exact ⟨hrest, hle.trans hle'⟩

/-- What becomes of the register when the relay holds the message of a round: the manager has
nothing new, or something that is not older. -/
structure Newer (k : ℕ) (seen : Option (MonitorInfo × ℤ)) (n : Numbered) : Prop where
  held : ∀ l, n.held = some l → k ≤ l
  length : k ≤ n.rounds.length
  seen : n.register.seen = none ∨ n.register.seen = seen ∨ k ≤ n.shown

theorem Newer.step {k : ℕ} {seen : Option (MonitorInfo × ℤ)} (h : Newer k seen n)
    (hordered : Ordered n) (e : Fleet.Event H) : Newer k seen (n.step fleet host e) := by
  have hle : k ≤ n.shown → k ≤ (n.step fleet host e).shown := fun hk =>
    hk.trans (hordered.step e).2
  cases e with
  | round g x delivered =>
    by_cases hg : g = host
    · simp only [Numbered.step, Register.step, hg, if_true]
      refine ⟨?_, ?_, h.seen⟩
      · intro l hl
        simp only at hl
        split at hl
        · exact (Option.some.inj hl) ▸ h.length
        · exact h.held l hl
      · rw [List.length_append]
        exact Nat.le_add_right_of_le h.length
    · simp only [Numbered.step, Register.step, hg, if_false]
      exact h
  | poll addr now answered =>
    simp only [Numbered.step, Register.step]
    by_cases hat : addr = fleet.address host ∧ answered = true
    · rw [if_pos hat, if_pos hat]
      refine ⟨h.held, h.length, ?_⟩
      cases hcurrent : n.register.current with
      | none => simpa [hordered.cleared hcurrent] using h.seen
      | some info =>
        obtain ⟨l, hl, _⟩ := hordered.current info hcurrent
        exact Or.inr (Or.inr (by simpa [hl] using h.held l hl))
    · rw [if_neg hat, if_neg hat]
      exact h
  | startAgent g =>
    by_cases hg : g = host
    · simp only [Numbered.step, Register.step, hg, if_true]
      exact ⟨h.held, h.length, h.seen⟩
    · simp only [Numbered.step, Register.step, hg, if_false]
      exact h
  | startRelay addr =>
    simp only [Numbered.step, Register.step]
    split
    · exact ⟨fun l hl => absurd hl (by simp), h.length, h.seen⟩
    · exact h
  | startManager => exact ⟨h.held, h.length, Or.inl rfl⟩

theorem foldl_newer {k : ℕ} {seen : Option (MonitorInfo × ℤ)} (h : Newer k seen n)
    (hordered : Ordered n) (events : List (Fleet.Event H)) :
    Newer k seen (events.foldl (Numbered.step fleet host) n) := by
  induction events generalizing n with
  | nil => exact h
  | cons e rest ih => exact ih (h.step hordered e) (hordered.step e).1

theorem ordered_numbered (fleet : Fleet.Hosts H) (host : H) (events : List (Fleet.Event H)) :
    Ordered (numbered fleet host events) := (foldl_ordered events ordered_start).1

theorem shown_append (fleet : Fleet.Hosts H) (host : H) (first later : List (Fleet.Event H)) :
    (numbered fleet host first).shown ≤ (numbered fleet host (first ++ later)).shown := by
  rw [numbered, numbered, List.foldl_append]
  exact (foldl_ordered later (ordered_numbered fleet host first)).2

/-! ### In the fleet, and in its threads -/

theorem numbered_concat (fleet : Fleet.Hosts H) (host : H) (events : List (Fleet.Event H))
    (e : Fleet.Event H) :
    numbered fleet host (events ++ [e]) = (numbered fleet host events).step fleet host e := by
  simp [numbered, List.foldl_append]

theorem step_register (e : Fleet.Event H) :
    (n.step fleet host e).register = n.register.step fleet host e := by
  cases e with
  | round g x delivered =>
    simp only [Numbered.step]
    split <;> rfl
  | poll addr now answered =>
    simp only [Numbered.step]
    split <;> rfl
  | startRelay addr =>
    simp only [Numbered.step]
    split <;> rfl
  | _ => rfl

theorem numbered_register (fleet : Fleet.Hosts H) (host : H) (events : List (Fleet.Event H)) :
    (numbered fleet host events).register = register fleet host events := by
  induction events using List.reverseRecOn with
  | nil => rfl
  | append_singleton events e ih =>
    rw [numbered_concat, step_register, ih, register, register, List.foldl_append]
    rfl

variable (U : UnorderedMap String MonitorInfo) (m : Subscript U)

/-- The rounds counted are those made in the fleet. -/
theorem numbered_rounds (fleet : OwnRelays H) (host : H) (events : List (Fleet.Event H)) :
    (numbered fleet.toHosts host events).rounds =
      (ledger U fleet.toHosts events).made.rounds host := by
  induction events using List.reverseRecOn with
  | nil => rfl
  | append_singleton events e ih =>
    have hledger : ledger U fleet.toHosts (events ++ [e]) =
        (ledger U fleet.toHosts events).step fleet.toHosts e := by
      simp [ledger, List.foldl_append]
    rw [numbered_concat, hledger]
    cases e with
    | round g x delivered =>
      by_cases hg : g = host
      · subst hg
        have hagent := (run_tracks U fleet events).agent g
        simp [Numbered.step, Numbered.message, ih, numbered_register, ledger_world, hagent]
      · simp [Numbered.step, hg, Ne.symm hg, ih]
    | poll addr now answered =>
      simp only [Numbered.step, Ledger.made_poll, Work.poll_rounds, ← ih]
      split <;> rfl
    | startAgent g => exact ih
    | startRelay addr =>
      simp only [Numbered.step]
      split
      · exact ih
      · exact ih
    | startManager => exact ih

/-- The numbers after a schedule of the threads. -/
def numbersAfter (fleet : Fleet.Hosts H) (host : H) (schedule : List (Action H)) : Numbered :=
  numbered fleet host (FleetThreads.history U m fleet schedule)

theorem numbersAfter_take (fleet : Fleet.Hosts H) (host : H) (schedule : List (Action H))
    {i j : ℕ} (h : i ≤ j) : ∃ later, numbersAfter U m fleet host (schedule.take j) =
      List.foldl (Numbered.step fleet host) (numbersAfter U m fleet host (schedule.take i))
        later := by
  have hsplit : schedule.take i ++ (schedule.take j).drop i = schedule.take j := by
    have hparts := List.take_append_drop i (schedule.take j)
    rwa [List.take_take, Nat.min_eq_left h] at hparts
  rw [← hsplit, numbersAfter, FleetThreads.history, Runs.visits_append, List.flatMap_append,
    numbered, List.foldl_append]
  exact ⟨_, rfl⟩

variable {U m} {fleet : OwnRelays H} {schedule : List (Action H)}
  {a : String → AtomicRelay U H}

/-- Between the manager's calls its entry is that of the host's register. -/
theorem entry_of_between (host : H)
    (h : Simulates m fleet.toHosts (FleetThreads.run U m fleet.toHosts schedule) a
      (ledger U fleet.toHosts (FleetThreads.history U m fleet.toHosts schedule)))
    (hpolling : (FleetThreads.run U m fleet.toHosts schedule).polling = none) :
    (FleetThreads.run U m fleet.toHosts schedule).manager.agentScores (fleet.username host) =
      (numbersAfter U m fleet.toHosts host schedule).register.seen.map entry := by
  obtain ⟨hmanager, _⟩ := h.manager hpolling
  rw [ledger_world] at hmanager
  rw [← hmanager, numbersAfter, numbered_register]
  exact (run_tracks U fleet _).seen host

/-- While the mutex is free the relay answers with what the register holds. -/
theorem answer_of_free (host : H)
    (h : Simulates m fleet.toHosts (FleetThreads.run U m fleet.toHosts schedule) a
      (ledger U fleet.toHosts (FleetThreads.history U m fleet.toHosts schedule)))
    (hfree : ((FleetThreads.run U m fleet.toHosts schedule).relays
      (fleet.address host)).holder = none) (response : MonitorInfo) :
    Relay.getMonitorInfo U ((FleetThreads.run U m fleet.toHosts schedule).relays
        (fleet.address host)).shared response =
      (numbersAfter U m fleet.toHosts host schedule).register.current.getD response := by
  rw [h.free hfree, ledger_world, numbersAfter, numbered_register]
  exact (run_tracks U fleet _).getMonitorInfo host response

/-- A round made in the fleet was begun by its agent. -/
theorem round_of_made {host : H} {k : ℕ} {info : MonitorInfo}
    (h : Simulates m fleet.toHosts (FleetThreads.run U m fleet.toHosts schedule) a
      (ledger U fleet.toHosts (FleetThreads.history U m fleet.toHosts schedule)))
    (hround : (numbersAfter U m fleet.toHosts host schedule).rounds[k]? = some (some info)) :
    ((FleetThreads.run U m fleet.toHosts schedule).begun.rounds host)[k]? =
      some (some info) := by
  rw [numbersAfter, numbered_rounds U] at hround
  obtain ⟨more, hmore⟩ := h.made_prefix host
  rw [← hmore]
  exact getElem?_append_of_eq hround more

/-- The states of a run, explained by numbers of a host's rounds: of the one whose message
the manager shows, and of the one whose message the host's relay holds. -/
structure Explained (fleet : Fleet.Hosts H) (host : H) (w : ℕ → FleetThreads.World U H)
    (shown : ℕ → ℕ) (held : ℕ → Option ℕ) : Prop where
  monotone : Monotone shown
  shows : ∀ i e, (w i).polling = none →
    (w i).manager.agentScores (fleet.username host) = some e →
      ((w i).begun.rounds host)[shown i]? = some (some e.info) ∧ e.score = calcScore e.info
  holds : ∀ i response, ((w i).relays (fleet.address host)).holder = none →
    some (Relay.getMonitorInfo U ((w i).relays (fleet.address host)).shared response) =
      match held i with
      | none => some response
      | some k => (((w i).begun.rounds host)[k]?).join
  fresh : ∀ i j k e, i ≤ j → (w i).polling = none → (w j).polling = none → held i = some k →
    (w j).manager.agentScores (fleet.username host) = some e →
      (w i).manager.agentScores (fleet.username host) ≠ some e → k ≤ shown j

variable (U m)

/-- Between two rounds of a host the manager asks its relay, while the other host's call is
lost. -/
def interleaved : List (Action Bool) :=
  [.round false bareHost true, .turn "node1:50051" (.agent false) .acquire,
    .turn "node1:50051" (.agent false) .work, .poll ⟨"node1:50051", 7, true⟩ true,
    .turn "node1:50051" (.agent false) .work, .turn "node1:50051" (.agent false) .release,
    .round true bareHost false, .back (.agent false), .round false bareHost true,
    .turn "node1:50051" .manager .acquire, .turn "node1:50051" .manager .work,
    .turn "node1:50051" .manager .work, .turn "node1:50051" .manager .release, .back .manager]

end NodeMonitor.Freshness
