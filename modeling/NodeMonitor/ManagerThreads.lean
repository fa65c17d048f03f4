import NodeMonitor.AgentScores

/-!
The manager's two threads. The owner of an `AgentManager` starts the loop and destroys the
manager again; the loop looks at `running_`, a plain `bool`, only between two passes, and is
taken to see it cleared from the next look on. However the steps of the two are interleaved,
the loop has computed what the passes compute one after the other, it is over before a member
is destroyed, and once `running_` is false it soon comes to its end. A second `Start` runs a
second loop on the same tables until the assignment of its thread ends the process.
-/

namespace NodeMonitor.ManagerThreads

open AgentManager AgentScores Runs

/-- Where the loop is: before the test of `running_`, before a `GetMonitorInfo` call, in its
sleep, or returned. -/
inductive Loop
  | check
  | fetching (i : ℕ)
  | sleeping
  | finished
  deriving DecidableEq

/-- The owner: it may be in a second `Start`, whose thread runs already while the first one
is still to be replaced. In the destructor `running_` is cleared first, then the thread is
joined, then the members are destroyed. `std::terminate` ends the process. -/
inductive Owner
  | alive | restarting | stopping | joined | destroyed | terminated
  deriving DecidableEq

/-- `second` is the loop of a second `Start`. -/
structure Manager where
  running : Bool := true
  thread : Option Loop := none
  second : Option Loop := none
  owner : Owner := .alive
  tables : State := initial

/-- A step of the owner, or the next step of a loop; `p` is what its call comes back with,
if it makes one. -/
inductive Action
  | start
  | assign
  | stop
  | join
  | release
  | loop (p : Poll)
  | secondLoop (p : Poll)

/-- The `for` statement, coming to an index. -/
def forAgents (addrs : List String) (i : ℕ) : Loop :=
  if i < addrs.length then .fetching i else .sleeping

def loopStep (addrs : List String) (m : Manager) (p : Poll) : Loop → Manager
  | .check => { m with thread := some (if m.running then forAgents addrs 0 else .finished) }
  | .fetching i =>
    { m with thread := some (forAgents addrs (i + 1)), tables := pollAgent m.tables p }
  | .sleeping => { m with thread := some .check }
  | .finished => m

/-- There is nothing to join, or the thread to be joined has returned. -/
def Manager.settled (m : Manager) : Bool := m.thread = none || m.thread = some .finished

/-- `Start` runs a thread before it assigns it. -/
def Manager.start (m : Manager) : Manager :=
  match m.owner, m.thread with
  | .alive, none => { m with thread := some .check }
  | .alive, some _ => { m with second := some .check, owner := .restarting }
  | _, _ => m

/-- The assignment of a second thread destroys one that was never joined. -/
def Manager.assign (m : Manager) : Manager :=
  if m.owner = .restarting then { m with owner := .terminated } else m

def Manager.stop (m : Manager) : Manager :=
  if m.owner = .alive then { m with running := false, owner := .stopping } else m

def Manager.join (m : Manager) : Manager :=
  if m.owner = .stopping && m.settled then { m with owner := .joined } else m

def Manager.release (m : Manager) : Manager :=
  if m.owner = .joined then { m with owner := .destroyed } else m

/-- The place of a loop that can still take steps. -/
def Manager.pc (m : Manager) : Option Loop := if m.owner = .terminated then none else m.thread

def Manager.loop (addrs : List String) (m : Manager) (p : Poll) : Manager :=
  match m.pc with
  | none => m
  | some pc => loopStep addrs m p pc

/-- The two loops change places. -/
def Manager.swap (m : Manager) : Manager := { m with thread := m.second, second := m.thread }

def step (addrs : List String) (m : Manager) : Action → Manager
  | .start => m.start
  | .assign => m.assign
  | .stop => m.stop
  | .join => m.join
  | .release => m.release
  | .loop p => m.loop addrs p
  | .secondLoop p => (m.swap.loop addrs p).swap

def run (addrs : List String) (actions : List Action) : Manager :=
  actions.foldl (step addrs) {}

/-- The next step of the loop is an iteration of the body. -/
def Manager.fetches (m : Manager) : Bool :=
  match m.pc with
  | some (.fetching _) => true
  | _ => false

/-- The iteration of the body a step makes. -/
def fetch (m : Manager) : Action → Option Poll
  | .loop p => if m.fetches then some p else none
  | .secondLoop p => if m.swap.fetches then some p else none
  | _ => none

/-- The iterations made in a run. -/
def fetched (addrs : List String) (actions : List Action) : List Poll :=
  (visits (step addrs) {} actions).filterMap (fun v => fetch v.1 v.2)

/-- The iterations of the present pass. -/
def Manager.inPass (m : Manager) : ℕ :=
  match m.thread with
  | some (.fetching i) => i
  | _ => 0

/-! ### One step of a loop -/

theorem Manager.pc_eq_some {m : Manager} {pc : Loop} (h : m.pc = some pc) :
    m.thread = some pc := by
  unfold Manager.pc at h
  split at h
  · exact absurd h (by simp)
  · exact h

theorem Manager.loop_of_none (addrs : List String) {m : Manager} (h : m.pc = none) (p : Poll) :
    m.loop addrs p = m ∧ fetch m (.loop p) = none := by
  simp [Manager.loop, fetch, Manager.fetches, h]

theorem Manager.loop_of_some (addrs : List String) {m : Manager} {pc : Loop}
    (h : m.pc = some pc) (p : Poll) : m.loop addrs p = loopStep addrs m p pc := by
  simp only [Manager.loop, h]

theorem fetch_of_some {m : Manager} {pc : Loop} (h : m.pc = some pc) (p : Poll) :
    fetch m (.loop p) = match pc with
      | .fetching _ => some p
      | _ => none := by
  cases pc <;> simp [fetch, Manager.fetches, h]

/-- A loop changes its own place and, in an iteration, the tables. -/
theorem Manager.loop_frame (addrs : List String) (m : Manager) (p : Poll) :
    (m.loop addrs p).running = m.running ∧ (m.loop addrs p).owner = m.owner ∧
      (m.loop addrs p).second = m.second ∧
      (m.loop addrs p).tables = (fetch m (.loop p)).toList.foldl pollAgent m.tables := by
  cases hpc : m.pc with
  | none =>
    obtain ⟨hloop, hfetch⟩ := m.loop_of_none addrs hpc p
    rw [hloop, hfetch]
    exact ⟨rfl, rfl, rfl, rfl⟩
  | some pc =>
    rw [m.loop_of_some addrs hpc, fetch_of_some hpc]
    cases pc <;> exact ⟨rfl, rfl, rfl, rfl⟩

/-- It does not go away. -/
theorem Manager.thread_of_loop {addrs : List String} {m : Manager} {p : Poll}
    (h : (m.loop addrs p).thread = none) : m.thread = none := by
  cases hpc : m.pc with
  | none => rwa [(m.loop_of_none addrs hpc p).1] at h
  | some pc =>
    rw [m.loop_of_some addrs hpc] at h
    cases pc with
    | finished => exact h
    | _ => exact absurd h (by simp [loopStep])

/-- Without a second loop there is no step of it. -/
theorem secondLoop_of_none (addrs : List String) {m : Manager} (h : m.second = none) (p : Poll) :
    step addrs m (.secondLoop p) = m ∧ fetch m (.secondLoop p) = none := by
  have hpc : m.swap.pc = none := by
    unfold Manager.pc
    split
    · rfl
    · exact h
  obtain ⟨hloop, hfetch⟩ := m.swap.loop_of_none addrs hpc p
  refine ⟨?_, hfetch⟩
  change (m.swap.loop addrs p).swap = m
  rw [hloop]
  rfl

/-! ### Invariant -/

/-- Without a second loop, the iterations made are those of whole passes and of the present
one. -/
structure Inv (addrs : List String) (polls : List Poll) (m : Manager) : Prop where
  running : m.running = true ↔ m.owner = .alive ∨ m.owner = .restarting ∨ m.owner = .terminated
  settled : m.owner = .joined ∨ m.owner = .destroyed → m.settled = true
  single : m.second = none ∨ m.owner = .restarting ∨ m.owner = .terminated
  bound : ∀ i, m.thread = some (.fetching i) → i < addrs.length
  tables : m.tables = polls.foldl pollAgent initial
  passes : m.second = none → ∃ (passes : List (Pass addrs)) (part : List Poll),
    polls = runPolls passes ++ part ∧ part.length = m.inPass

theorem inv_start (addrs : List String) : Inv addrs [] {} where
  running := by simp
  settled h := by simp at h
  single := Or.inl rfl
  bound i h := by simp at h
  tables := rfl
  passes _ := ⟨[], [], rfl, rfl⟩

/-- As many iterations as there are agents make a pass. -/
theorem exists_pass {addrs : List String} (polls : List Poll)
    (h : polls.length = addrs.length) : ∃ pass : Pass addrs, pass.polls = polls := by
  refine ⟨fun i => polls.get (i.cast h.symm), ?_⟩
  apply List.ext_getElem
  · rw [Pass.polls, List.length_ofFn, h]
  · intro i hi hi'
    rw [show (Pass.polls fun i => polls.get (Fin.cast h.symm i))[i] = _ from List.getElem_ofFn hi]
    rfl

/-- A step of the owner that starts no loop. -/
theorem Inv.keep {addrs : List String} {polls : List Poll} {m : Manager}
    (h : Inv addrs polls m) (running : Bool) (owner : Owner)
    (hrunning : running = true ↔ owner = .alive ∨ owner = .restarting ∨ owner = .terminated)
    (hsettled : owner = .joined ∨ owner = .destroyed → m.settled = true)
    (hsingle : m.second = none ∨ owner = .restarting ∨ owner = .terminated) :
    Inv addrs polls { m with running := running, owner := owner } where
  running := hrunning
  settled := hsettled
  single := hsingle
  bound := h.bound
  tables := h.tables
  passes := h.passes

/-- A loop that is not between the test and the sleep makes no iteration. -/
theorem Inv.turn {addrs : List String} {polls : List Poll} {m : Manager}
    (h : Inv addrs polls m) (hzero : m.inPass = 0) (thread : Option Loop)
    (hsettled : m.owner ≠ .joined ∧ m.owner ≠ .destroyed)
    (hbound : ∀ i, thread = some (.fetching i) → i = 0 ∧ i < addrs.length) :
    Inv addrs polls { m with thread := thread } where
  running := h.running
  settled howner := by
    rcases howner with howner | howner
    · exact absurd howner hsettled.1
    · exact absurd howner hsettled.2
  single := h.single
  bound i hi := (hbound i hi).2
  tables := h.tables
  passes hsecond := by
    obtain ⟨passes, part, hpolls, hpart⟩ := h.passes hsecond
    refine ⟨passes, part, hpolls, ?_⟩
    rw [hpart, hzero]
    unfold Manager.inPass
    split
    · rename_i i hthread
      exact (hbound i hthread).1.symm
    · rfl

theorem forAgents_eq_fetching {addrs : List String} {i j : ℕ}
    (h : forAgents addrs i = .fetching j) : j = i ∧ i < addrs.length := by
  unfold forAgents at h
  split at h
  · rename_i hlt
    exact ⟨(Loop.fetching.inj h).symm, hlt⟩
  · exact absurd h (by simp)

/-- An iteration belongs to the present pass and ends it if it is the last one. -/
theorem Inv.fetch {addrs : List String} {polls : List Poll} {m : Manager}
    (h : Inv addrs polls m) {i : ℕ} (hthread : m.thread = some (.fetching i))
    (hsettled : m.owner ≠ .joined ∧ m.owner ≠ .destroyed) (p : Poll) :
    Inv addrs (polls ++ [p]) (loopStep addrs m p (.fetching i)) where
  running := h.running
  settled howner := by
    rcases howner with howner | howner
    · exact absurd howner hsettled.1
    · exact absurd howner hsettled.2
  single := h.single
  bound j hj := by
    obtain ⟨rfl, hlt⟩ := forAgents_eq_fetching (Option.some.inj hj)
    exact hlt
  tables := by
    rw [List.foldl_append, ← h.tables]
    rfl
  passes hsecond := by
    obtain ⟨passes, part, hpolls, hpart⟩ := h.passes hsecond
    have hlength : part.length = i := by rw [hpart, Manager.inPass, hthread]
    have hlt := h.bound i hthread
    by_cases hlast : i + 1 < addrs.length
    · refine ⟨passes, part ++ [p], by rw [hpolls, List.append_assoc], ?_⟩
      rw [List.length_append, hlength]
      simp only [Manager.inPass, loopStep, forAgents, if_pos hlast, List.length_singleton]
    · obtain ⟨pass, hpass⟩ : ∃ pass : Pass addrs, pass.polls = part ++ [p] := by
        apply exists_pass
        rw [List.length_append, hlength, List.length_singleton]
        omega
      refine ⟨passes ++ [pass], [], ?_, ?_⟩
      · rw [hpolls, runPolls, runPolls, List.flatMap_append, List.flatMap_singleton, hpass,
          List.append_assoc, List.append_nil]
      · simp only [Manager.inPass, loopStep, forAgents, if_neg hlast, List.length_nil]

theorem Inv.loop {addrs : List String} {polls : List Poll} {m : Manager}
    (h : Inv addrs polls m) (p : Poll) :
    Inv addrs (polls ++ (ManagerThreads.fetch m (.loop p)).toList) (m.loop addrs p) := by
  cases hpc : m.pc with
  | none =>
    obtain ⟨hloop, hfetch⟩ := m.loop_of_none addrs hpc p
    rw [hloop, hfetch, Option.toList_none, List.append_nil]
    exact h
  | some pc =>
    have hthread := Manager.pc_eq_some hpc
    have howner (hgoing : pc ≠ .finished) : m.owner ≠ .joined ∧ m.owner ≠ .destroyed := by
      have hsettled : m.settled = false := by
        unfold Manager.settled
        rw [hthread]
        simp [hgoing]
      constructor
      · intro howner
        exact absurd (h.settled (Or.inl howner)) (by simp [hsettled])
      · intro howner
        exact absurd (h.settled (Or.inr howner)) (by simp [hsettled])
    rw [m.loop_of_some addrs hpc, fetch_of_some hpc]
    cases pc with
    | fetching i => exact h.fetch hthread (howner (by simp)) p
    | check =>
      rw [Option.toList_none, List.append_nil]
      refine h.turn (by rw [Manager.inPass, hthread]) _ (howner (by simp)) ?_
      intro i hi
      rw [Option.some.injEq] at hi
      split at hi
      · obtain ⟨rfl, hlt⟩ := forAgents_eq_fetching hi
        exact ⟨rfl, hlt⟩
      · exact absurd hi (by simp)
    | sleeping =>
      rw [Option.toList_none, List.append_nil]
      exact h.turn (by rw [Manager.inPass, hthread]) _ (howner (by simp)) (by simp)
    | finished =>
      rw [Option.toList_none, List.append_nil]
      exact h

/-- A second loop that goes on stays there. -/
theorem Inv.secondLoop {addrs : List String} {polls : List Poll} {m : Manager}
    (h : Inv addrs polls m) (p : Poll) :
    Inv addrs (polls ++ (ManagerThreads.fetch m (.secondLoop p)).toList)
      (ManagerThreads.step addrs m (.secondLoop p)) := by
  cases hsecond : m.second with
  | none =>
    obtain ⟨hstep, hfetch⟩ := secondLoop_of_none addrs hsecond p
    rw [hstep, hfetch, Option.toList_none, List.append_nil]
    exact h
  | some pc =>
    have hdoubled : m.owner = .restarting ∨ m.owner = .terminated :=
      h.single.resolve_left (by simp [hsecond])
    obtain ⟨hrunning, howner, hthread, htables⟩ := m.swap.loop_frame addrs p
    change _ = m.running at hrunning
    change _ = m.owner at howner
    change _ = m.thread at hthread
    change Inv addrs _ (m.swap.loop addrs p).swap
    refine ⟨?_, ?_, Or.inr (howner ▸ hdoubled), ?_, ?_, ?_⟩
    · change (m.swap.loop addrs p).running = true ↔ (m.swap.loop addrs p).owner = _ ∨
        (m.swap.loop addrs p).owner = _ ∨ (m.swap.loop addrs p).owner = _
      rw [hrunning, howner]
      exact h.running
    · change (m.swap.loop addrs p).owner = _ ∨ (m.swap.loop addrs p).owner = _ → _
      rw [howner]
      intro hjoined
      rcases hdoubled with hdoubled | hdoubled <;> simp [hdoubled] at hjoined
    · intro i hi
      exact h.bound i (hthread.symm.trans hi)
    · rw [List.foldl_append, ← h.tables]
      exact htables
    · intro hnone
      exact absurd (hsecond.symm.trans (Manager.thread_of_loop hnone)) (by simp)

theorem Inv.start {addrs : List String} {polls : List Poll} {m : Manager}
    (h : Inv addrs polls m) : Inv addrs polls m.start := by
  unfold Manager.start
  split
  · rename_i howner hthread
    refine h.turn (by simp [Manager.inPass, hthread]) _ (by simp [howner]) (by simp)
  · rename_i howner hthread
    exact ⟨by simp [h.running, howner], by simp, by simp, h.bound, h.tables, by simp⟩
  · exact h

/-- What a step of any thread keeps. -/
theorem Inv.step {addrs : List String} {polls : List Poll} {m : Manager}
    (h : Inv addrs polls m) (a : Action) :
    Inv addrs (polls ++ (ManagerThreads.fetch m a).toList) (ManagerThreads.step addrs m a) := by
  cases a with
  | loop p => exact h.loop p
  | secondLoop p => exact h.secondLoop p
  | start =>
    simp only [ManagerThreads.fetch, Option.toList_none, List.append_nil]
    exact h.start
  | assign =>
    simp only [ManagerThreads.fetch, Option.toList_none, List.append_nil]
    change Inv addrs polls m.assign
    unfold Manager.assign
    split
    · rename_i howner
      exact h.keep m.running .terminated (by simp [h.running, howner]) (by simp) (by simp)
    · exact h
  | stop =>
    simp only [ManagerThreads.fetch, Option.toList_none, List.append_nil]
    change Inv addrs polls m.stop
    unfold Manager.stop
    split
    · rename_i howner
      exact h.keep false .stopping (by simp) (by simp)
        (Or.inl (h.single.resolve_right (by simp [howner])))
    · exact h
  | join =>
    simp only [ManagerThreads.fetch, Option.toList_none, List.append_nil]
    change Inv addrs polls m.join
    unfold Manager.join
    split
    · rename_i hjoin
      simp only [Bool.and_eq_true, decide_eq_true_eq] at hjoin
      exact h.keep m.running .joined (by simp [h.running, hjoin.1]) (fun _ => hjoin.2)
        (Or.inl (h.single.resolve_right (by simp [hjoin.1])))
    · exact h
  | release =>
    simp only [ManagerThreads.fetch, Option.toList_none, List.append_nil]
    change Inv addrs polls m.release
    unfold Manager.release
    split
    · rename_i howner
      exact h.keep m.running .destroyed (by simp [h.running, howner])
        (fun _ => h.settled (Or.inl howner)) (Or.inl (h.single.resolve_right (by simp [howner])))
    · exact h

theorem run_concat (addrs : List String) (actions : List Action) (a : Action) :
    run addrs (actions ++ [a]) = step addrs (run addrs actions) a := by
  simp only [run, List.foldl_append, List.foldl_cons, List.foldl_nil]

theorem fetched_concat (addrs : List String) (actions : List Action) (a : Action) :
    fetched addrs (actions ++ [a]) =
      fetched addrs actions ++ (fetch (run addrs actions) a).toList := by
  rw [fetched, visits_append, List.filterMap_append, ← fetched]
  change fetched addrs actions ++
    [(run addrs actions, a)].filterMap (fun v => fetch v.1 v.2) = _
  cases h : fetch (run addrs actions) a with
  | none => simp [h]
  | some p => simp [h]

theorem inv_run (addrs : List String) (actions : List Action) :
    Inv addrs (fetched addrs actions) (run addrs actions) := by
  induction actions using List.reverseRecOn with
  | nil => exact inv_start addrs
  | append_singleton actions a ih =>
    rw [run_concat, fetched_concat]
    exact ih.step a

/-! ### What the threads compute -/

/-- The tables are those of the passes completed, one after the other, and of the iterations
of the present pass, unless a second `Start` is about to end the process; a joined thread has
completed its last pass; and from the join on no loop takes a step, so no member is used after
its destruction. -/
structure Sequential (addrs : List String) (actions : List Action) : Prop where
  single : (run addrs actions).second = none ∨ (run addrs actions).owner = .restarting ∨
    (run addrs actions).owner = .terminated
  tables : (run addrs actions).second = none →
    ∃ (passes : List (Pass addrs)) (part : List Poll),
      fetched addrs actions = runPolls passes ++ part ∧
        part.length = (run addrs actions).inPass ∧
        (run addrs actions).tables = part.foldl pollAgent (fetchAndScoreLoop passes)
  joined : (run addrs actions).owner = .joined ∨ (run addrs actions).owner = .destroyed →
    ∃ passes : List (Pass addrs), fetched addrs actions = runPolls passes ∧
      (run addrs actions).tables = fetchAndScoreLoop passes
  silent : (run addrs actions).owner = .joined ∨ (run addrs actions).owner = .destroyed →
    ∀ p, ∀ a ∈ [Action.loop p, .secondLoop p],
      step addrs (run addrs actions) a = run addrs actions ∧
        fetch (run addrs actions) a = none

theorem Manager.settled_cases {m : Manager} (h : m.settled = true) :
    m.thread = none ∨ m.thread = some .finished := by
  unfold Manager.settled at h
  simpa using h

theorem Manager.inPass_of_settled {m : Manager} (h : m.settled = true) : m.inPass = 0 := by
  unfold Manager.inPass
  rcases m.settled_cases h with hthread | hthread
  · rw [hthread]
  · rw [hthread]

theorem loop_of_settled (addrs : List String) {m : Manager} (h : m.settled = true) (p : Poll) :
    step addrs m (.loop p) = m ∧ fetch m (.loop p) = none := by
  have hpc : m.pc = none ∨ m.pc = some .finished := by
    unfold Manager.pc
    split
    · exact Or.inl rfl
    · exact m.settled_cases h
  rcases hpc with hpc | hpc
  · exact m.loop_of_none addrs hpc p
  · exact ⟨m.loop_of_some addrs hpc p, fetch_of_some hpc p⟩

/-- A second loop keeps the owner from the destructor. -/
theorem Inv.second_of_owner {addrs : List String} {polls : List Poll} {m : Manager}
    (h : Inv addrs polls m) (howner : m.owner = .joined ∨ m.owner = .destroyed) :
    m.second = none := by
  refine h.single.resolve_right ?_
  rcases howner with howner | howner
  · simp [howner]
  · simp [howner]

/-- However the steps of the owner and of the loops are interleaved. -/
theorem manager_sequential (addrs : List String) (actions : List Action) :
    Sequential addrs actions := by
  have h := inv_run addrs actions
  refine ⟨h.single, ?_, ?_, ?_⟩
  · intro hsecond
    obtain ⟨passes, part, hpolls, hpart⟩ := h.passes hsecond
    refine ⟨passes, part, hpolls, hpart, ?_⟩
    rw [h.tables, hpolls, List.foldl_append, fetchAndScoreLoop_eq]
  · intro howner
    obtain ⟨passes, part, hpolls, hpart⟩ := h.passes (h.second_of_owner howner)
    have hnil : part = [] := by
      rw [← List.length_eq_zero_iff, hpart]
      exact Manager.inPass_of_settled (h.settled howner)
    rw [hnil, List.append_nil] at hpolls
    exact ⟨passes, hpolls, by rw [h.tables, hpolls, fetchAndScoreLoop_eq]⟩
  · intro howner p a ha
    rcases List.mem_pair.mp ha with rfl | rfl
    · exact loop_of_settled addrs (h.settled howner) p
    · exact secondLoop_of_none addrs (h.second_of_owner howner) p

/-! ### The way to the end -/

/-- The iterations that are left of the present pass. -/
def Manager.pending (addrs : List String) (m : Manager) : ℕ :=
  match m.thread with
  | some (.fetching i) => addrs.length - i
  | _ => 0

/-- The steps the loop still takes once `running_` is false. -/
def Manager.remaining (addrs : List String) (m : Manager) : ℕ :=
  match m.thread with
  | none => 0
  | some .finished => 0
  | some .check => 1
  | some .sleeping => 2
  | some (.fetching i) => addrs.length - i + 2

def Action.isLoop : Action → Bool
  | .loop _ => true
  | _ => false

/-- The destructor has begun. -/
structure Stopped (addrs : List String) (m : Manager) : Prop where
  running : m.running = false
  single : m.second = none
  owner : m.owner ≠ .alive ∧ m.owner ≠ .restarting ∧ m.owner ≠ .terminated
  bound : ∀ i, m.thread = some (.fetching i) → i < addrs.length

theorem Inv.stopped {addrs : List String} {polls : List Poll} {m : Manager}
    (h : Inv addrs polls m) (hrunning : m.running = false) : Stopped addrs m := by
  have howner : ¬ (m.owner = .alive ∨ m.owner = .restarting ∨ m.owner = .terminated) := by
    rw [← h.running, hrunning]
    simp
  rw [not_or, not_or] at howner
  exact ⟨hrunning, h.single.resolve_right (not_or.mpr howner.2), howner, h.bound⟩

/-- From one state to the next on the way to the end, by so many steps of the loop and so
many iterations. -/
structure Closer (addrs : List String) (m m' : Manager) (steps iterations : ℕ) : Prop where
  stopped : Stopped addrs m'
  remaining : m'.remaining addrs = m.remaining addrs - steps
  pending : iterations + m'.pending addrs = m.pending addrs

theorem Closer.trans {addrs : List String} {m m' m'' : Manager} {j k i l : ℕ}
    (h : Closer addrs m m' j i) (h' : Closer addrs m' m'' k l) :
    Closer addrs m m'' (j + k) (i + l) where
  stopped := h'.stopped
  remaining := by
    rw [h'.remaining, h.remaining]
    omega
  pending := by
    have hfirst := h.pending
    have hsecond := h'.pending
    omega

/-- The steps of the owner change nothing the loop looks at. -/
theorem Stopped.closer_owner {addrs : List String} {m : Manager} (h : Stopped addrs m)
    (owner : Owner) (howner : owner ≠ .alive ∧ owner ≠ .restarting ∧ owner ≠ .terminated) :
    Closer addrs m { m with owner := owner } 0 0 where
  stopped := ⟨h.running, h.single, howner, h.bound⟩
  remaining := rfl
  pending := Nat.zero_add _

theorem Stopped.closer_self {addrs : List String} {m : Manager} (h : Stopped addrs m) :
    Closer addrs m m 0 0 :=
  h.closer_owner m.owner h.owner

theorem Stopped.closer_loop {addrs : List String} {m : Manager} (h : Stopped addrs m) (p : Poll) :
    Closer addrs m (m.loop addrs p) 1 (fetch m (.loop p)).toList.length := by
  cases hthread : m.thread with
  | none =>
    have hpc : m.pc = none := (if_neg h.owner.2.2).trans hthread
    obtain ⟨hloop, hfetch⟩ := m.loop_of_none addrs hpc p
    rw [hloop, hfetch]
    refine ⟨h, ?_, ?_⟩
    · simp only [Manager.remaining, hthread]
    · simp [Manager.pending, hthread]
  | some pc =>
    have hpc : m.pc = some pc := (if_neg h.owner.2.2).trans hthread
    rw [m.loop_of_some addrs hpc, fetch_of_some hpc]
    cases pc with
    | check =>
      refine ⟨⟨h.running, h.single, h.owner, ?_⟩, ?_, ?_⟩
      · simp [loopStep, h.running]
      · simp [loopStep, h.running, Manager.remaining, hthread]
      · simp [loopStep, h.running, Manager.pending, hthread]
    | sleeping =>
      refine ⟨⟨h.running, h.single, h.owner, ?_⟩, ?_, ?_⟩
      · simp [loopStep]
      · simp [loopStep, Manager.remaining, hthread]
      · simp [loopStep, Manager.pending, hthread]
    | finished =>
      refine ⟨h, ?_, ?_⟩
      · simp [loopStep, Manager.remaining, hthread]
      · simp [loopStep, Manager.pending, hthread]
    | fetching i =>
      have hlt := h.bound i hthread
      by_cases hlast : i + 1 < addrs.length
      · refine ⟨⟨h.running, h.single, h.owner, ?_⟩, ?_, ?_⟩
        · simp [loopStep, forAgents, hlast]
        · simp only [loopStep, forAgents, hlast, Manager.remaining, hthread, if_true]
          omega
        · simp only [loopStep, forAgents, hlast, Manager.pending, hthread, if_true,
            Option.toList_some, List.length_singleton]
          omega
      · refine ⟨⟨h.running, h.single, h.owner, ?_⟩, ?_, ?_⟩
        · simp [loopStep, forAgents, hlast]
        · simp only [loopStep, forAgents, hlast, Manager.remaining, hthread, if_false]
          omega
        · simp only [loopStep, forAgents, hlast, Manager.pending, hthread, if_false,
            Option.toList_some, List.length_singleton]
          omega

theorem Stopped.closer {addrs : List String} {m : Manager} (h : Stopped addrs m) (a : Action) :
    Closer addrs m (step addrs m a) (if a.isLoop then 1 else 0) (fetch m a).toList.length := by
  cases a with
  | loop p => exact h.closer_loop p
  | secondLoop p =>
    obtain ⟨hstep, hfetch⟩ := secondLoop_of_none addrs h.single p
    rw [hstep, hfetch]
    exact h.closer_self
  | start =>
    have hsame : m.start = m := by
      unfold Manager.start
      split
      · rename_i howner _
        exact absurd howner h.owner.1
      · rename_i howner _
        exact absurd howner h.owner.1
      · rfl
    change Closer addrs m m.start 0 0
    rw [hsame]
    exact h.closer_self
  | assign =>
    have hsame : m.assign = m := if_neg h.owner.2.1
    change Closer addrs m m.assign 0 0
    rw [hsame]
    exact h.closer_self
  | stop =>
    have hsame : m.stop = m := if_neg h.owner.1
    change Closer addrs m m.stop 0 0
    rw [hsame]
    exact h.closer_self
  | join =>
    change Closer addrs m m.join 0 0
    unfold Manager.join
    split
    · exact h.closer_owner .joined (by simp)
    · exact h.closer_self
  | release =>
    change Closer addrs m m.release 0 0
    unfold Manager.release
    split
    · exact h.closer_owner .destroyed (by simp)
    · exact h.closer_self

/-- The iterations made when a run goes on. -/
def later (addrs : List String) (m : Manager) (actions : List Action) : List Poll :=
  (visits (step addrs) m actions).filterMap (fun v => fetch v.1 v.2)

theorem Stopped.closer_foldl {addrs : List String} {m : Manager} (h : Stopped addrs m)
    (actions : List Action) :
    Closer addrs m (actions.foldl (step addrs) m) (actions.countP Action.isLoop)
      (later addrs m actions).length := by
  induction actions generalizing m with
  | nil => exact h.closer_self
  | cons a rest ih =>
    have hfirst := h.closer a
    have hrest := hfirst.trans (ih hfirst.stopped)
    have hsteps : (a :: rest).countP Action.isLoop =
        (if a.isLoop then 1 else 0) + rest.countP Action.isLoop := by
      rw [List.countP_cons, Nat.add_comm]
    have hlater : (later addrs m (a :: rest)).length =
        (fetch m a).toList.length + (later addrs (step addrs m a) rest).length := by
      simp only [later, visits, List.filterMap_cons]
      cases fetch m a with
      | none => simp
      | some p => simp [Nat.add_comm]
    rw [hsteps, hlater]
    exact hrest

theorem remaining_le (addrs : List String) (m : Manager) :
    m.remaining addrs ≤ addrs.length + 2 := by
  unfold Manager.remaining
  split <;> omega

theorem settled_of_remaining {addrs : List String} {m : Manager} (h : m.remaining addrs = 0) :
    m.settled = true := by
  unfold Manager.remaining at h
  unfold Manager.settled
  split at h
  · rename_i hthread
    simp [hthread]
  · rename_i hthread
    simp [hthread]
  all_goals omega

theorem pending_of_settled {addrs : List String} {m : Manager} (h : m.settled = true) :
    m.pending addrs = 0 := by
  unfold Manager.pending
  rcases m.settled_cases h with hthread | hthread
  · rw [hthread]
  · rw [hthread]

/-- Once the destructor has begun, the loop completes the present pass and no other: whatever
else happens, two steps more than there are agents are enough for it to return. -/
theorem shutdown_completes (addrs : List String) (before after : List Action)
    (hstopped : (run addrs before).running = false)
    (hsteps : addrs.length + 2 ≤ after.countP Action.isLoop) :
    (run addrs (before ++ after)).settled = true ∧
      ∃ rest : List Poll, fetched addrs (before ++ after) = fetched addrs before ++ rest ∧
        rest.length = (run addrs before).pending addrs := by
  have hcloser := ((inv_run addrs before).stopped hstopped).closer_foldl after
  have hrun : run addrs (before ++ after) = after.foldl (step addrs) (run addrs before) := by
    simp only [run, List.foldl_append]
  have hle := remaining_le addrs (run addrs before)
  have hremaining := hcloser.remaining
  have hzero : (run addrs (before ++ after)).remaining addrs = 0 := by
    rw [hrun]
    omega
  have hsettled := settled_of_remaining hzero
  refine ⟨hsettled, later addrs (run addrs before) after, ?_, ?_⟩
  · rw [fetched, visits_append, List.filterMap_append]
    rfl
  · have hpending := hcloser.pending
    rw [← hrun, pending_of_settled hsettled] at hpending
    exact hpending

/-- A manager of two agents that is destroyed after the first call of a pass. -/
theorem shutdown_completes_mid_pass :
    (run ["a", "b"] ([.start, .loop ⟨.failed, 0⟩, .loop ⟨.failed, 1⟩, .stop] ++
        List.replicate 4 (.loop ⟨.failed, 2⟩))).settled = true ∧
      ∃ rest : List Poll, fetched ["a", "b"] ([.start, .loop ⟨.failed, 0⟩, .loop ⟨.failed, 1⟩,
          .stop] ++ List.replicate 4 (.loop ⟨.failed, 2⟩)) =
        fetched ["a", "b"] [.start, .loop ⟨.failed, 0⟩, .loop ⟨.failed, 1⟩, .stop] ++ rest ∧
        rest.length = 1 :=
  shutdown_completes ["a", "b"] [.start, .loop ⟨.failed, 0⟩, .loop ⟨.failed, 1⟩, .stop]
    (List.replicate 4 (.loop ⟨.failed, 2⟩)) rfl (by decide)

end NodeMonitor.ManagerThreads
