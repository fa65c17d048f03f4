import NodeMonitor.AgentManager
import Mathlib.Data.List.FinRange

/-!
The score table over whole runs of the polling loop. Every iteration stores
exactly one entry, under the name in the message it ended up with, whether or not
the call succeeded. So a failed call leaves a trace in every table, and a table
entry survives a pass exactly when no later agent of the pass answers under the
same name.
-/

namespace NodeMonitor.AgentScores

open Messages Score KeyedMaps Runs AgentManager

@[simp]
theorem agentScores_pollAgent (s : State) (p : Poll) :
    (pollAgent s p).agentScores = assign s.agentScores (serverName p) (scoreEntry p) := rfl

/-- The score table is the assignment of one entry for each poll made so far. -/
theorem agentScores_foldl (s : State) (polls : List Poll) :
    (polls.foldl pollAgent s).agentScores =
      assignAll serverName scoreEntry s.agentScores polls := by
  induction polls generalizing s with
  | nil => rfl
  | cons p rest ih =>
    rw [List.foldl_cons, ih (pollAgent s p), agentScores_pollAgent]
    rfl

/-- An entry is stored under the name its message carries. -/
def KeysMatch (s : State) : Prop :=
  ∀ k e, s.agentScores k = some e → e.info.name = k

theorem initial_keysMatch : KeysMatch initial := by
  intro k e h
  simp [initial] at h

theorem pollAgent_keysMatch (s : State) (p : Poll) (hs : KeysMatch s) :
    KeysMatch (pollAgent s p) := by
  intro k e h
  rw [agentScores_pollAgent, assign_apply] at h
  by_cases hk : k = serverName p
  · rw [if_pos hk] at h
    rw [← Option.some.inj h, hk]
    rfl
  · rw [if_neg hk] at h
    exact hs k e h

theorem fetchAndScorePass_keysMatch {addrs : List String} (s : State) (pass : Pass addrs)
    (hs : KeysMatch s) : KeysMatch (fetchAndScorePass s pass) :=
  foldl_invariant pollAgent KeysMatch pollAgent_keysMatch s pass.polls hs

theorem visited_keysMatch {addrs : List String} (passes : List (Pass addrs))
    (v : State × Pass addrs) (hv : v ∈ visits fetchAndScorePass initial passes) :
    KeysMatch v.1 :=
  invariant_of_mem_visits fetchAndScorePass KeysMatch fetchAndScorePass_keysMatch initial passes
    initial_keysMatch hv

/-! ### Failed calls -/

/-- All polls of a run, pass after pass. -/
def runPolls {addrs : List String} (passes : List (Pass addrs)) : List Poll :=
  passes.flatMap Pass.polls

theorem fetchAndScoreLoop_eq {addrs : List String} (passes : List (Pass addrs)) :
    fetchAndScoreLoop passes = (runPolls passes).foldl pollAgent initial := by
  unfold fetchAndScoreLoop runPolls
  rw [List.foldl_flatMap]
  rfl

theorem mem_runPolls_iff {addrs : List String} (passes : List (Pass addrs)) (p : Poll) :
    p ∈ runPolls passes ↔ ∃ pass ∈ passes, ∃ i, pass i = p := by
  simp [runPolls, Pass.polls, List.mem_flatMap, List.mem_ofFn]

/-- The iteration changed no table and made no `WriteToMysql` call. -/
def LeavesIntact (s : State) (p : Poll) : Prop :=
  (pollAgent s p).agentScores = s.agentScores ∧
    (pollAgent s p).lastPerfSamples = s.lastPerfSamples ∧
      (pollAgent s p).netSamples = s.netSamples ∧ (pollAgent s p).mysqlRows = s.mysqlRows

/-- Every iteration makes its `WriteToMysql` call. -/
theorem not_leavesIntact (s : State) (p : Poll) : ¬ LeavesIntact s p := by
  intro h
  have hrows := congrArg List.length h.2.2.2
  simp [pollAgent] at hrows

/-- A default message, received or left by a failed call, is scored like any other: a
perfect score and a fresh baseline are stored under the empty name. -/
theorem pollAgent_default (s : State) (p : Poll)
    (hreceived : p.reply.received = MonitorInfo.default) :
    (pollAgent s p).agentScores "" =
        some { info := MonitorInfo.default, score := 100, timestamp := p.now } ∧
      (pollAgent s p).lastPerfSamples "" = some { score := 100 } ∧
      (pollAgent s p).netSamples = s.netSamples ∧
      ∃ row : MysqlRow, row.serverName = "" ∧ row.agentScore.score = 100 ∧
        (pollAgent s p).mysqlRows = s.mysqlRows ++ [row] := by
  have hname : serverName p = "" := by rw [serverName, hreceived]; rfl
  refine ⟨?_, ?_, ?_, mysqlRow _ _ _ _ _, ?_, ?_, rfl⟩
  · rw [agentScores_pollAgent, hname, assign_self, scoreEntry, hreceived, calcScore_default]
  · simp only [pollAgent, hname, hreceived, calcScore_default, assign_self]
    rfl
  · simp only [pollAgent, hreceived]
    rfl
  · exact hname
  · simp only [mysqlRow, scoreEntry, hreceived, calcScore_default]

theorem received_failed {p : Poll} (hp : p.reply = .failed) :
    p.reply.received = MonitorInfo.default := by
  rw [hp]
  rfl

/-- A name once scored stays in the table. -/
theorem agentScores_isSome_foldl (s : State) (polls : List Poll) (k : String)
    (h : (s.agentScores k).isSome) :
    ((polls.foldl pollAgent s).agentScores k).isSome := by
  rw [agentScores_foldl, assignAll_apply]
  cases latest serverName k polls <;> simp [h]

/-- A run with a failed call ends with an entry for an agent without a name. -/
theorem failed_call_scored {addrs : List String} (passes : List (Pass addrs)) (p : Poll)
    (hmem : p ∈ runPolls passes) (hp : p.reply = .failed) :
    ((fetchAndScoreLoop passes).agentScores "").isSome := by
  obtain ⟨pre, post, hsplit⟩ := List.append_of_mem hmem
  rw [fetchAndScoreLoop_eq, hsplit, List.foldl_append, List.foldl_cons]
  apply agentScores_isSome_foldl
  rw [(pollAgent_default _ p (received_failed hp)).1]
  rfl

/-- In a run every iteration with a failed call leaves the state intact exactly
when no call of the run fails; each failed call leaves an agent without a name
and with a perfect score in the table. -/
theorem failed_polls_intact_iff {addrs : List String} (passes : List (Pass addrs)) :
    ((∀ v ∈ visits pollAgent initial (runPolls passes),
        v.2.reply = .failed → LeavesIntact v.1 v.2) ↔
      ∀ pass ∈ passes, ∀ i, (pass i).reply ≠ .failed) ∧
    ∀ v ∈ visits pollAgent initial (runPolls passes), v.2.reply = .failed →
      (pollAgent v.1 v.2).agentScores "" =
        some { info := MonitorInfo.default, score := 100, timestamp := v.2.now } := by
  refine ⟨⟨?_, ?_⟩, ?_⟩
  · intro hintact pass hpass i hfailed
    have hmem : pass i ∈ runPolls passes := (mem_runPolls_iff _ _).mpr ⟨pass, hpass, i, rfl⟩
    obtain ⟨s, hs⟩ := exists_visit pollAgent initial hmem
    exact not_leavesIntact s (pass i) (hintact _ hs hfailed)
  · intro hok v hv hfailed
    obtain ⟨pass, hpass, i, hi⟩ := (mem_runPolls_iff _ _).mp (mem_of_mem_visits _ hv)
    exact absurd (hi ▸ hfailed) (hok pass hpass i)
  · intro v _ hfailed
    exact (pollAgent_default v.1 v.2 (received_failed hfailed)).1

/-- One unreachable agent, polled once, ends up in the score table. -/
theorem unreachable_agent_scored :
    ¬ ∀ (addrs : List String) (passes : List (Pass addrs)),
      ∀ v ∈ visits pollAgent initial (runPolls passes),
        v.2.reply = .failed → LeavesIntact v.1 v.2 := by
  intro h
  let down : Pass ["10.0.0.1:50051"] := fun _ => ⟨.failed, 0⟩
  have hintact := h _ [down] (initial, ⟨.failed, 0⟩) (List.mem_cons_self ..) rfl
  have hentry := (pollAgent_default initial ⟨.failed, 0⟩ rfl).1
  rw [hintact.1] at hentry
  simp [initial] at hentry

/-! ### One entry for every agent -/

/-- At the end of a pass the table has a separate entry for each configured
address, with the message and the score of that address. -/
def KeepsAll {addrs : List String} (pass : Pass addrs) (s : State) : Prop :=
  ∃ slot : Fin addrs.length → String, Function.Injective slot ∧
    ∀ i, ∃ e, s.agentScores (slot i) = some e ∧ e.info = (pass i).reply.received ∧
      e.score = calcScore (pass i).reply.received

theorem names_injective_of_keepsAll {addrs : List String} (pass : Pass addrs) (s : State)
    (hs : KeysMatch s) (h : KeepsAll pass s) :
    Function.Injective (fun i => serverName (pass i)) := by
  obtain ⟨slot, hslot, hentry⟩ := h
  have hname : ∀ i, serverName (pass i) = slot i := by
    intro i
    obtain ⟨e, he, hinfo, _⟩ := hentry i
    have hkey : e.info.name = slot i := hs (slot i) e he
    rw [← hkey, hinfo]
    rfl
  intro i j hij
  apply hslot
  rw [← hname i, ← hname j]
  exact hij

/-- With distinct names every poll of a pass is the latest under its name. -/
theorem latest_polls {addrs : List String} (pass : Pass addrs)
    (h : Function.Injective (fun i => serverName (pass i))) (i : Fin addrs.length) :
    latest serverName (serverName (pass i)) pass.polls = some (pass i) := by
  have hnodup : (pass.polls.map serverName).Nodup := by
    rw [Pass.polls, List.map_ofFn]
    exact List.nodup_ofFn_ofInjective h
  exact latest_of_nodup serverName hnodup (List.mem_ofFn.mpr ⟨i, rfl⟩)

theorem keepsAll_of_names_injective {addrs : List String} (pass : Pass addrs) (s : State)
    (h : Function.Injective (fun i => serverName (pass i))) :
    KeepsAll pass (fetchAndScorePass s pass) := by
  refine ⟨fun i => serverName (pass i), h, ?_⟩
  intro i
  refine ⟨scoreEntry (pass i), ?_, rfl, rfl⟩
  rw [fetchAndScorePass, agentScores_foldl, assignAll_apply, latest_polls pass h i]
  rfl

/-- Every pass of a run ends with every agent's own entry exactly when no two
agents of a pass answer under one name. -/
theorem scores_kept_iff {addrs : List String} (passes : List (Pass addrs)) :
    (∀ v ∈ visits fetchAndScorePass initial passes,
        KeepsAll v.2 (fetchAndScorePass v.1 v.2)) ↔
      ∀ pass ∈ passes, Function.Injective (fun i => serverName (pass i)) := by
  constructor
  · intro hkept pass hpass
    obtain ⟨s, hs⟩ := exists_visit fetchAndScorePass initial hpass
    have hkeys : KeysMatch (fetchAndScorePass s pass) :=
      fetchAndScorePass_keysMatch s pass (visited_keysMatch passes _ hs)
    exact names_injective_of_keepsAll pass _ hkeys (hkept _ hs)
  · intro hnames v hv
    exact keepsAll_of_names_injective v.2 v.1 (hnames v.2 (mem_of_mem_visits _ hv))

/-- Two hosts whose clients run under the same login name leave one entry. -/
theorem same_login_name_collides :
    ¬ ∀ (addrs : List String) (passes : List (Pass addrs)),
      (∀ pass ∈ passes, ∀ i, ∃ info, (pass i).reply = .ok info ∧ info.name ≠ "" ∧
          info.cpuStat ≠ []) →
        ∀ v ∈ visits fetchAndScorePass initial passes,
          KeepsAll v.2 (fetchAndScorePass v.1 v.2) := by
  intro h
  let answer (percent : ℚ) : MonitorInfo :=
    { name := "root", cpuStat := [{ cpuPercent := percent }] }
  let pass : Pass ["10.0.0.1:50051", "10.0.0.2:50051"] :=
    fun i => ⟨.ok (answer (if i.val = 0 then 10 else 90)), 0⟩
  have hkept : KeepsAll pass (fetchAndScorePass initial pass) := by
    refine h _ [pass] ?_ (initial, pass) (List.mem_cons_self ..)
    intro q hq i
    rw [List.mem_singleton.mp hq]
    exact ⟨_, rfl, by simp [answer], by simp [answer]⟩
  have hkeys : KeysMatch (fetchAndScorePass initial pass) :=
    fetchAndScorePass_keysMatch initial pass initial_keysMatch
  have hnames := names_injective_of_keepsAll pass _ hkeys hkept
  have hsame : serverName (pass 0) = serverName (pass 1) := rfl
  exact absurd (hnames hsame) (by decide)

end NodeMonitor.AgentScores
