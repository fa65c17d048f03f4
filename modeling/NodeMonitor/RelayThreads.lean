import NodeMonitor.LockedObjects
import NodeMonitor.Relay

/-!
The relay's handlers as threads. gRPC runs every request on a thread of its own; the
handlers take the mutex, and what they do to the map under it takes several steps, in
between of which the map holds an empty message under the name being set. Any interleaving
shows the calls and replies of the relay whose requests are served as a whole.
-/

namespace NodeMonitor.RelayThreads

open AtomicObjects LockedObjects Messages Relay UnorderedMaps

/-- The next step of a handler that holds the mutex. -/
inductive Line
  | index (request : MonitorInfo)
  | assign (request : MonitorInfo)
  | test
  | copy
  | invalid
  | finished (response : Option MonitorInfo)

/-- `SetMonitorInfo` gets a reference to the element and copies the request there;
`GetMonitorInfo` tests whether the map is empty and copies its first element, which there
must be, into the response. -/
def handlers (U : UnorderedMap String MonitorInfo) (m : Subscript U) :
    Program Request (Option MonitorInfo) U.State Line where
  enter
    | .set request => .index request
    | .get => .test
  work
    | .index request, s => (.assign request, m.slot s request.name)
    | .assign request, s => (.finished none, m.store s request.name request)
    | .test, s =>
      if (U.first s).isNone then (.finished (some MonitorInfo.default), s) else (.copy, s)
    | .copy, s =>
      match U.first s with
      | none => (.invalid, s)
      | some (_, info) => (.finished (some info), s)
    | .invalid, s => (.invalid, s)
    | .finished response, s => (.finished response, s)
  result
    | .finished response => some response
    | _ => none

/-- A request served as a whole: the message sent back and the map afterwards. -/
def serveRequest (U : UnorderedMap String MonitorInfo) (request : Request) (s : U.State) :
    Option MonitorInfo × U.State :=
  (respond U s request, serve U s request)

variable (U : UnorderedMap String MonitorInfo) (m : Subscript U)

theorem completes_set (s : U.State) (info : MonitorInfo) :
    Completes (handlers U m) (.index info) s none (setMonitorInfo U s info) := by
  rw [setMonitorInfo, ← m.store_slot]
  exact .worked rfl (.worked rfl (.done rfl _))

theorem completes_get (s : U.State) :
    Completes (handlers U m) .test s (some (getMonitorInfo U s MonitorInfo.default)) s := by
  cases hfirst : U.first s with
  | none =>
    have htest : (handlers U m).work .test s = (.finished (some MonitorInfo.default), s) := by
      simp [handlers, hfirst]
    refine .worked rfl ?_
    rw [htest, getMonitorInfo, hfirst]
    exact .done rfl s
  | some entry =>
    have htest : (handlers U m).work .test s = (.copy, s) := by simp [handlers, hfirst]
    have hcopy : (handlers U m).work .copy s = (.finished (some entry.2), s) := by
      simp [handlers, hfirst]
    refine .worked rfl ?_
    rw [htest, getMonitorInfo, hfirst]
    refine .worked rfl ?_
    rw [hcopy]
    exact .done rfl s

theorem handlers_implement : Implements (handlers U m) (serveRequest U) := by
  intro request s
  cases request with
  | set info => exact completes_set U m s info
  | get => exact completes_get U m s

/-! ### Any interleaving -/

variable {T : Type*} [DecidableEq T]

/-- No number of steps leads out of there. -/
theorem not_completes_invalid (s s' : U.State) (response : Option MonitorInfo) :
    ¬ Completes (handlers U m) .invalid s response s' := by
  intro h
  generalize hline : Line.invalid = line at h
  induction h with
  | done hresult _ =>
    subst hline
    exact absurd hresult (by simp [handlers])
  | worked _ _ ih =>
    subst hline
    exact ih rfl

/-- For any number of threads and in any interleaving of their steps: the calls and replies
are those of whole requests that take effect between them, whose run is the map whenever
the mutex is free; no two handlers are in their critical sections and none reads the first
element of an empty map; and every request can still be answered. -/
theorem relay_linearizable (schedule : List (Action T Request)) :
    let w := run (handlers U m) U.clear schedule
    (∃ events final, Accepts (serveRequest U) (Atomic.start U.clear) events final ∧
      shown events = w.history ∧
        (w.holder = none → w.shared = (committed events).foldl (serve U) U.clear)) ∧
    (∀ t u request other line line', w.phase t = .inside request line →
      w.phase u = .inside other line' → t = u) ∧
    (∀ t request, w.phase t ≠ .inside request .invalid) ∧
    ∀ t, Answerable (handlers U m) w t := by
  intro w
  obtain ⟨events, a, haccepts, hshown, ha⟩ :=
    run_abstracts (handlers_implement U m) U.clear schedule
  refine ⟨⟨events, a, haccepts, hshown, ?_⟩, ?_, ?_, answerable (handlers_implement U m) ha⟩
  · intro hfree
    have hshared : w.shared = a.shared := by
      cases ha.guards with
      | free _ _ heq => exact heq
      | held u _ _ hheld => exact absurd (hfree.symm.trans hheld) (by simp)
    rw [hshared, shared_of_accepts haccepts]
    rfl
  · intro t u request other line line' ht hu
    by_contra hne
    exact (ha.guards.inside ht).2.1 u (Ne.symm hne) other line' hu
  · intro t request hinside
    exact not_completes_invalid U m _ _ _ (ha.guards.inside hinside).2.2

/-! ### What a client may rely on -/

abbrev History (T : Type*) := List (Event T Request (Option MonitorInfo))

/-- A `SetMonitorInfo` of the message was called and answered. -/
def SetAnswered (history : History T) (info : MonitorInfo) : Prop :=
  ∃ t left mid right, history = left ++ .call t (.set info) :: mid ++ .reply t none :: right ∧
    ∀ e ∈ mid, e.thread ≠ t

/-- All calls that set the message were over when another message was set under its name,
from call to reply. -/
def Superseded (before during : History T) (info : MonitorInfo) : Prop :=
  ∃ early late newer, before = early ++ late ∧ Settled early (.set info) ∧
    (∀ t, .call t (.set info) ∉ late ++ during) ∧ SetAnswered late newer ∧
      newer.name = info.name

/-- A read from its call to its reply. -/
structure Read (history : History T) where
  before : History T
  during : History T
  after : History T
  thread : T
  answer : MonitorInfo
  split : history =
    before ++ .call thread .get :: during ++ .reply thread (some answer) :: after
  alone : ∀ e ∈ during, e.thread ≠ thread

abbrev Accepted (events : History T)
    (a : Atomic T Request (Option MonitorInfo) U.State) : Prop :=
  Accepts (serveRequest U) (Atomic.start U.clear) events a

/-- A read answers from the requests that took effect before it did itself. -/
theorem exists_effective {events history : History T}
    {final : Atomic T Request (Option MonitorInfo) U.State} (h : Accepted U events final)
    (hshown : shown events = history) (read : Read history) :
    ∃ effective a seen, Accepted U effective a ∧
      shown effective = read.before ++ .call read.thread .get :: seen ∧
      (∀ e ∈ seen, e ∈ read.during) ∧
      read.answer =
        getMonitorInfo U ((committed effective).foldl (serve U) U.clear) MonitorInfo.default := by
  have hsplit := hshown.trans read.split
  rw [List.append_assoc] at hsplit
  obtain ⟨first, rest, rfl, hfirst, hrest⟩ := shown_split hsplit
  obtain ⟨during, after, rfl, hduring, _⟩ := shown_split hrest
  obtain ⟨a, hbefore, hread⟩ := (accepts_append_iff _ _ _ _).mp h
  have halone : ∀ e ∈ shown during, e.thread ≠ read.thread := by
    rw [hduring]
    exact read.alone
  obtain ⟨pre, post, rfl, hresult⟩ := commit_between hread halone
  have hthere : first ++ .call read.thread .get :: (pre ++ .commit read.thread .get
      (some read.answer) :: post ++ .reply read.thread (some read.answer) :: after) =
      (first ++ .call read.thread .get :: pre) ++ (.commit read.thread .get
        (some read.answer) :: post ++ .reply read.thread (some read.answer) :: after) := by
    simp
  rw [hthere] at h
  obtain ⟨b, heffective, _⟩ := (accepts_append_iff _ _ _ _).mp h
  refine ⟨_, b, shown pre, heffective, ?_, ?_, ?_⟩
  · rw [shown_append, hfirst]
    rfl
  · intro e he
    rw [← hduring, shown_append]
    exact List.mem_append_left _ he
  · have hanswer := Option.some.inj hresult
    rw [hanswer, shared_of_accepts hbefore, ← List.foldl_append, committed_append]
    rfl

/-- A message that took effect was set by a call seen before. -/
theorem called_of_effective {events : History T}
    {a : Atomic T Request (Option MonitorInfo) U.State} (h : Accepted U events a)
    {request : Request} (hmem : request ∈ committed events) :
    ∃ t, .call t request ∈ shown events := by
  obtain ⟨t, hstage | hcall⟩ := called_of_committed h hmem
  · exact absurd hstage (by simp [Atomic.start])
  · exact ⟨t, hcall⟩

/-- What was set and answered is among the requests that took effect. -/
theorem effective_of_setAnswered {events rest : History T} {before : History T}
    {a b : Atomic T Request (Option MonitorInfo) U.State}
    (h : Accepts (serveRequest U) a events b) (hshown : shown events = before ++ rest)
    {info : MonitorInfo} (hset : SetAnswered before info) :
    Request.set info ∈ committed events := by
  obtain ⟨t, left, mid, right, rfl, hmid⟩ := hset
  have hanswered : shown events =
      left ++ .call t (.set info) :: mid ++ .reply t none :: (right ++ rest) := by
    rw [hshown]
    simp
  exact committed_of_answered h hanswered hmid

/-- A message nothing overwrote is not in front of other writes under its name. -/
theorem not_lastSet_of_newer {early late : List Request} {info newer : MonitorInfo}
    (hlate : .set info ∉ late) (hnewer : .set newer ∈ late) (hname : newer.name = info.name) :
    ¬ LastSet (early ++ late) info := by
  rintro ⟨before, after, hsplit, hlast⟩
  rcases List.append_eq_append_iff.mp hsplit with ⟨mid, rfl, hrest⟩ | ⟨mid, rfl, hrest⟩
  · exact hlate (by rw [hrest]; simp)
  · cases mid with
    | nil => exact hlate (by rw [← List.nil_append late, ← hrest]; simp)
    | cons first mid =>
      have hafter : after = mid ++ late := (List.cons.inj hrest).2
      exact hlast newer (by rw [hafter]; exact List.mem_append_right _ hnewer) hname

/-- A read shows the empty message or one that some client has set; never the empty one
once any message was set and answered before the read was called; and never a message that
another one had superseded by then. -/
theorem reads_are_fresh (schedule : List (Action T Request))
    (read : Read (run (handlers U m) U.clear schedule).history) :
    (read.answer = MonitorInfo.default ∨
      ∃ t, .call t (.set read.answer) ∈ read.before ++ read.during) ∧
    (∀ info, SetAnswered read.before info →
      ∃ t, .call t (.set read.answer) ∈ read.before ++ read.during) ∧
    ¬ Superseded read.before read.during read.answer := by
  obtain ⟨events, final, haccepts, hshown, _⟩ :=
    run_abstracts (handlers_implement U m) U.clear schedule
  obtain ⟨effective, a, seen, heffective, hseen, hduring, hanswer⟩ :=
    exists_effective U haccepts hshown read
  have hcalled : .set read.answer ∈ committed effective →
      ∃ t, .call t (.set read.answer) ∈ read.before ++ read.during := by
    intro hmem
    obtain ⟨t, hcall⟩ := called_of_effective U heffective hmem
    refine ⟨t, ?_⟩
    rw [hseen] at hcall
    rcases List.mem_append.mp hcall with hin | hin
    · exact List.mem_append_left _ hin
    · rcases List.mem_cons.mp hin with heq | hin
      · exact absurd (Event.call.inj heq).2 (by simp)
      · exact List.mem_append_right _ (hduring _ hin)
  have hlast : (∃ info, Request.set info ∈ committed effective) →
      LastSet (committed effective) read.answer := by
    intro hset
    rw [hanswer]
    exact lastSet_getMonitorInfo U _ _ hset
  have hmem : (∃ info, Request.set info ∈ committed effective) →
      .set read.answer ∈ committed effective := by
    intro hset
    obtain ⟨before, after, hsplit, _⟩ := hlast hset
    rw [hsplit]
    simp
  refine ⟨?_, ?_, ?_⟩
  · by_cases hset : ∃ info, Request.set info ∈ committed effective
    · exact Or.inr (hcalled (hmem hset))
    · refine Or.inl ?_
      rw [hanswer]
      exact getMonitorInfo_unset U _ _ (not_exists.mp hset)
  · intro info hset
    exact hcalled (hmem ⟨info, effective_of_setAnswered U heffective hseen hset⟩)
  · rintro ⟨early, late, newer, hbefore, hsettled, hnone, hset, hname⟩
    rw [hbefore, List.append_assoc] at hseen
    obtain ⟨first, rest, rfl, hfirst, hrest⟩ := List.filter_eq_append_iff.mp hseen
    obtain ⟨c, hearly, hafter⟩ := (accepts_append_iff _ _ _ _).mp heffective
    have hnewer := effective_of_setAnswered U hafter hrest hset
    -- the superseded message took effect in the early part only
    have hgone : .set read.answer ∉ committed rest := by
      intro hin
      obtain ⟨t, hstage | hcall⟩ := called_of_committed hafter hin
      · exact not_called_of_settled hearly (by rw [shown, hfirst]; exact hsettled) t hstage
      · rw [shown, hrest] at hcall
        rcases List.mem_append.mp hcall with hin | hin
        · exact hnone t (List.mem_append_left _ hin)
        · rcases List.mem_cons.mp hin with heq | hin
          · exact absurd (Event.call.inj heq).2 (by simp)
          · exact hnone t (List.mem_append_right _ (hduring _ hin))
    have hanswered := hlast ⟨newer, by
      rw [committed_append]
      exact List.mem_append_right _ hnewer⟩
    rw [committed_append] at hanswered
    exact not_lastSet_of_newer hgone hnewer hname hanswered

/-- Thread 0 sets a message while thread 1 waits for the mutex to read it. -/
def setThenGet : List (Action ℕ Request) :=
  [.call 0 (.set { name := "root" }), .acquire 0, .work 0, .work 0, .release 0, .reply 0,
    .call 1 .get, .call 2 (.set { name := "app" }), .acquire 1, .acquire 2, .work 1, .work 1,
    .release 1, .reply 1]

def setThenGetRead :
    Read (run (handlers (listMap String MonitorInfo) (listSubscript MonitorInfo.default)) []
      setThenGet).history where
  before := [.call 0 (.set { name := "root" }), .reply 0 none]
  during := [.call 2 (.set { name := "app" })]
  after := []
  thread := 1
  answer := { name := "root" }
  split := rfl
  alone := by simp [Event.thread]

theorem reads_are_fresh_setThenGet :
    (∃ t, .call t (.set { name := "root" }) ∈ setThenGetRead.before ++ setThenGetRead.during) ∧
      ¬ Superseded setThenGetRead.before setThenGetRead.during { name := "root" } := by
  have h := reads_are_fresh (listMap String MonitorInfo) (listSubscript MonitorInfo.default)
    setThenGet setThenGetRead
  exact ⟨h.2.1 { name := "root" } ⟨0, [], [], [], rfl, by simp⟩, h.2.2⟩

end NodeMonitor.RelayThreads
