import Mathlib.Data.List.Basic
import Mathlib.Logic.Function.Basic

/-!
Objects whose operations take effect at once. A thread calls an operation, the operation
commits at some later moment, and after that the thread is given the reply. A history shows
calls and replies only; it is explained by any sequence of events that the object accepts
and that shows the same.
-/

namespace NodeMonitor.AtomicObjects

variable {T O R S : Type*}

/-- Where a thread is with its current operation. -/
inductive Stage (O R : Type*)
  | idle
  | called (o : O)
  | committed (o : O) (r : R)

/-- What is left of an operation when nobody works on it any more. -/
def Stage.answered : Stage O R → Stage O R
  | committed o r => committed o r
  | _ => idle

inductive Event (T O R : Type*)
  | call (t : T) (o : O)
  | commit (t : T) (o : O) (r : R)
  | reply (t : T) (r : R)

namespace Event

def thread : Event T O R → T
  | call t _ => t
  | commit t _ _ => t
  | reply t _ => t

/-- The stage the event leaves its thread in. -/
def entered : Event T O R → Stage O R
  | call _ o => .called o
  | commit _ o r => .committed o r
  | reply _ _ => .idle

def visible : Event T O R → Bool
  | commit _ _ _ => false
  | _ => true

def operation : Event T O R → Option O
  | commit _ o _ => some o
  | _ => none

end Event

/-- What a client sees of a sequence of events. -/
def shown (events : List (Event T O R)) : List (Event T O R) := events.filter Event.visible

/-- The operations that took effect, in order. -/
def committed (events : List (Event T O R)) : List O := events.filterMap Event.operation

theorem shown_append (left right : List (Event T O R)) :
    shown (left ++ right) = shown left ++ shown right := List.filter_append ..

theorem committed_append (left right : List (Event T O R)) :
    committed (left ++ right) = committed left ++ committed right := List.filterMap_append ..

theorem shown_split {events left right : List (Event T O R)} {e : Event T O R}
    (h : shown events = left ++ e :: right) :
    ∃ first rest, events = first ++ e :: rest ∧ shown first = left ∧ shown rest = right := by
  obtain ⟨first, rest, rfl, hfirst, hrest⟩ := List.filter_eq_append_iff.mp h
  obtain ⟨hidden, rest, rfl, hhidden, _, hright⟩ := List.filter_eq_cons_iff.mp hrest
  refine ⟨first ++ hidden, rest, by rw [List.append_assoc], ?_, hright⟩
  rw [shown_append, shown, hfirst, shown, List.filter_eq_nil_iff.mpr hhidden, List.append_nil]

/-- The last event of a thread without calls and replies is a commit. -/
theorem commit_of_shown {events left right : List (Event T O R)} {t : T} {e : Event T O R}
    (hshown : ∀ e ∈ shown events, e.thread ≠ t) (hsplit : events = left ++ e :: right)
    (ht : e.thread = t) : ∃ o r, e = .commit t o r := by
  cases e with
  | commit u o r => exact ⟨o, r, by rw [← ht]; rfl⟩
  | call u o =>
    exact absurd ht (hshown _ (by rw [hsplit]; simp [shown, Event.visible]))
  | reply u r =>
    exact absurd ht (hshown _ (by rw [hsplit]; simp [shown, Event.visible]))

structure Atomic (T O R S : Type*) where
  shared : S
  stage : T → Stage O R

/-- All threads idle. -/
def Atomic.start (s : S) : Atomic T O R S := ⟨s, fun _ => .idle⟩

variable [DecidableEq T]

/-- The event is possible, and what it leads to. -/
inductive Next (apply : O → S → R × S) :
    Atomic T O R S → Event T O R → Atomic T O R S → Prop
  | call {a : Atomic T O R S} {t : T} (o : O) (h : a.stage t = .idle) :
      Next apply a (.call t o) { a with stage := Function.update a.stage t (.called o) }
  | commit {a : Atomic T O R S} {t : T} {o : O} (h : a.stage t = .called o) :
      Next apply a (.commit t o (apply o a.shared).1)
        ⟨(apply o a.shared).2,
          Function.update a.stage t (.committed o (apply o a.shared).1)⟩
  | reply {a : Atomic T O R S} {t : T} {o : O} {r : R} (h : a.stage t = .committed o r) :
      Next apply a (.reply t r) { a with stage := Function.update a.stage t .idle }

inductive Accepts (apply : O → S → R × S) :
    Atomic T O R S → List (Event T O R) → Atomic T O R S → Prop
  | nil (a : Atomic T O R S) : Accepts apply a [] a
  | cons {a b c : Atomic T O R S} {e : Event T O R} {rest : List (Event T O R)}
      (h : Next apply a e b) (hrest : Accepts apply b rest c) : Accepts apply a (e :: rest) c

variable {apply : O → S → R × S}

theorem accepts_append_iff (a c : Atomic T O R S) (left right : List (Event T O R)) :
    Accepts apply a (left ++ right) c ↔
      ∃ b, Accepts apply a left b ∧ Accepts apply b right c := by
  induction left generalizing a with
  | nil =>
    constructor
    · intro h
      exact ⟨a, .nil a, h⟩
    · rintro ⟨b, hleft, hright⟩
      cases hleft
      exact hright
  | cons e rest ih =>
    constructor
    · intro h
      cases h with
      | cons hnext hrest =>
        obtain ⟨b, hleft, hright⟩ := (ih _).mp hrest
        exact ⟨b, .cons hnext hleft, hright⟩
    · rintro ⟨b, hleft, hright⟩
      cases hleft with
      | cons hnext hrest => exact .cons hnext ((ih _).mpr ⟨b, hrest, hright⟩)

theorem stage_of_next {a b : Atomic T O R S} {e : Event T O R} (h : Next apply a e b) :
    b.stage = Function.update a.stage e.thread e.entered := by
  cases h <;> rfl

/-- The shared state is that of the operations carried out one after the other. -/
theorem shared_of_accepts {a b : Atomic T O R S} {events : List (Event T O R)}
    (h : Accepts apply a events b) :
    b.shared = (committed events).foldl (fun s o => (apply o s).2) a.shared := by
  induction h with
  | nil a => rfl
  | cons hnext _ ih =>
    rw [ih]
    cases hnext <;> rfl

/-- A thread's stage is the one its last event left it in. -/
theorem stage_since {a b : Atomic T O R S} {events : List (Event T O R)}
    (h : Accepts apply a events b) (t : T) :
    (b.stage t = a.stage t ∧ ∀ e ∈ events, e.thread ≠ t) ∨
      ∃ left e right, events = left ++ e :: right ∧ e.thread = t ∧
        (∀ later ∈ right, later.thread ≠ t) ∧ b.stage t = e.entered := by
  induction h with
  | nil a => exact Or.inl ⟨rfl, by simp⟩
  | @cons a b c e rest hnext _ ih =>
    rcases ih with ⟨hstage, hnone⟩ | ⟨left, last, right, hrest, hthread, hnone, hstage⟩
    · by_cases ht : e.thread = t
      · refine Or.inr ⟨[], e, rest, rfl, ht, hnone, ?_⟩
        rw [hstage, stage_of_next hnext, ht, Function.update_self]
      · refine Or.inl ⟨?_, List.forall_mem_cons.mpr ⟨ht, hnone⟩⟩
        rw [hstage, stage_of_next hnext, Function.update_of_ne (Ne.symm ht)]
    · exact Or.inr ⟨e :: left, last, right, by rw [hrest]; rfl, hthread, hnone, hstage⟩

/-- The result of a commit is the operation's on the state before it. -/
theorem result_of_commit {a b : Atomic T O R S} {t : T} {o : O} {r : R}
    {rest : List (Event T O R)} (h : Accepts apply a (.commit t o r :: rest) b) :
    a.stage t = .called o ∧ r = (apply o a.shared).1 := by
  cases h with
  | cons hnext _ => cases hnext with | commit hstage => exact ⟨hstage, rfl⟩

theorem stage_of_reply {a b : Atomic T O R S} {t : T} {r : R} {rest : List (Event T O R)}
    (h : Accepts apply a (.reply t r :: rest) b) : ∃ o, a.stage t = .committed o r := by
  cases h with
  | cons hnext _ => cases hnext with | reply hstage => exact ⟨_, hstage⟩

theorem shared_at {a b : Atomic T O R S} {left : List (Event T O R)}
    (h : Accepts apply a left b) {t : T} {o : O} {r : R} {c : Atomic T O R S}
    {rest : List (Event T O R)} (hcommit : Accepts apply b (.commit t o r :: rest) c) :
    r = (apply o ((committed left).foldl (fun s o => (apply o s).2) a.shared)).1 := by
  rw [← shared_of_accepts h]
  exact (result_of_commit hcommit).2

/-- A thread that has called and shows nothing since is still there or has committed once. -/
theorem stage_after_call {a b : Atomic T O R S} {t : T} {o : O}
    {events : List (Event T O R)} (h : Accepts apply a events b)
    (hcalled : a.stage t = .called o) (hshown : ∀ e ∈ shown events, e.thread ≠ t) :
    b.stage t = .called o ∨ ∃ left right r, events = left ++ .commit t o r :: right ∧
      r = (apply o ((committed left).foldl (fun s o => (apply o s).2) a.shared)).1 ∧
        b.stage t = .committed o r := by
  rcases stage_since h t with ⟨hstage, _⟩ | ⟨left, e, right, hsplit, ht, _, hstage⟩
  · exact Or.inl (hstage.trans hcalled)
  · obtain ⟨o', r, rfl⟩ := commit_of_shown hshown hsplit ht
    rw [hsplit] at h
    obtain ⟨c, hleft, hcommit⟩ := (accepts_append_iff _ _ _ _).mp h
    have hc : c.stage t = .called o' := (result_of_commit hcommit).1
    have hbefore : ∀ e ∈ shown left, e.thread ≠ t := by
      intro e he
      exact hshown e (by rw [hsplit, shown_append]; exact List.mem_append_left _ he)
    -- a commit before this one would have left the thread committed
    rcases stage_since hleft t with ⟨hsame, _⟩ | ⟨pre, e, post, hleftsplit, ht', _, hentered⟩
    · obtain rfl : o' = o := by
        rw [hsame, hcalled] at hc
        exact (Stage.called.inj hc).symm
      exact Or.inr ⟨left, right, r, hsplit, shared_at hleft hcommit, hstage⟩
    · obtain ⟨o'', r'', rfl⟩ := commit_of_shown hbefore hleftsplit ht'
      rw [hc] at hentered
      exact absurd hentered (by simp [Event.entered])

/-- An operation whose reply is shown took effect in between, with that result. -/
theorem commit_between {a b : Atomic T O R S} {t : T} {o : O} {r : R}
    {events rest : List (Event T O R)}
    (h : Accepts apply a (.call t o :: events ++ .reply t r :: rest) b)
    (hshown : ∀ e ∈ shown events, e.thread ≠ t) :
    ∃ left right, events = left ++ .commit t o r :: right ∧
      r = (apply o ((committed left).foldl (fun s o => (apply o s).2) a.shared)).1 := by
  cases h with
  | cons hcall hrest =>
    cases hcall with
    | call _ hidle =>
      obtain ⟨c, hevents, hreply⟩ := (accepts_append_iff _ _ _ _).mp hrest
      rcases stage_after_call hevents (Function.update_self ..) hshown with
        hstage | ⟨left, right, r', hsplit, hresult, hstage⟩
      · obtain ⟨o', hdone⟩ := stage_of_reply hreply
        rw [hstage] at hdone
        exact absurd hdone (by simp)
      · obtain ⟨o', hdone⟩ := stage_of_reply hreply
        rw [hstage] at hdone
        obtain ⟨_, rfl⟩ := Stage.committed.inj hdone
        exact ⟨left, right, hsplit, hresult⟩

/-- An operation that was answered took effect. -/
theorem committed_of_answered {a b : Atomic T O R S} {t : T} {o : O} {r : R}
    {events left mid right : List (Event T O R)} (h : Accepts apply a events b)
    (hshown : shown events = left ++ .call t o :: mid ++ .reply t r :: right)
    (hmid : ∀ e ∈ mid, e.thread ≠ t) : o ∈ committed events := by
  rw [List.append_assoc] at hshown
  obtain ⟨first, rest, rfl, _, hrest⟩ := shown_split hshown
  obtain ⟨during, after, rfl, hduring, _⟩ := shown_split hrest
  obtain ⟨c, _, hcall⟩ := (accepts_append_iff _ _ _ _).mp h
  obtain ⟨pre, post, rfl, _⟩ := commit_between hcall (by rw [hduring]; exact hmid)
  exact List.mem_filterMap.mpr ⟨.commit t o r, by simp, rfl⟩

/-- What took effect was called, before or in the course of the events. -/
theorem called_of_committed {a b : Atomic T O R S} {o : O} {events : List (Event T O R)}
    (h : Accepts apply a events b) (ho : o ∈ committed events) :
    ∃ t, a.stage t = .called o ∨ .call t o ∈ shown events := by
  obtain ⟨e, he, hop⟩ := List.mem_filterMap.mp ho
  obtain ⟨left, right, rfl⟩ := List.append_of_mem he
  cases e with
  | call t o' => exact absurd hop (by simp [Event.operation])
  | reply t r => exact absurd hop (by simp [Event.operation])
  | commit t o' r =>
    obtain rfl : o' = o := Option.some.inj hop
    obtain ⟨c, hleft, hcommit⟩ := (accepts_append_iff _ _ _ _).mp h
    have hcalled : c.stage t = .called o' := (result_of_commit hcommit).1
    refine ⟨t, ?_⟩
    rcases stage_since hleft t with ⟨hsame, _⟩ | ⟨pre, e, post, rfl, ht, _, hentered⟩
    · exact Or.inl (hsame.symm.trans hcalled)
    · rw [hcalled] at hentered
      cases e with
      | call u o =>
        obtain rfl : o' = o := Stage.called.inj hentered
        obtain rfl : u = t := ht
        exact Or.inr (by simp [shown, Event.visible])
      | commit u o r => exact absurd hentered (by simp [Event.entered])
      | reply u r => exact absurd hentered (by simp [Event.entered])

/-- Every call of the operation was followed by something of its thread. -/
def Settled (history : List (Event T O R)) (o : O) : Prop :=
  ∀ left t right, history = left ++ .call t o :: right → ∃ e ∈ right, e.thread = t

theorem not_called_of_settled {a : Atomic T O R S} {o : O} {s : S}
    {events : List (Event T O R)} (h : Accepts apply (Atomic.start s) events a)
    (hsettled : Settled (shown events) o) (t : T) : a.stage t ≠ .called o := by
  intro hcalled
  rcases stage_since h t with ⟨hsame, _⟩ | ⟨left, e, right, rfl, ht, hnone, hentered⟩
  · rw [hsame] at hcalled
    exact absurd hcalled (by simp [Atomic.start])
  · rw [hcalled] at hentered
    cases e with
    | call u o' =>
      obtain rfl : o = o' := Stage.called.inj hentered
      obtain rfl : u = t := ht
      obtain ⟨e, he, hthread⟩ := hsettled (shown left) u (shown right) (by
        rw [shown_append]; rfl)
      exact hnone e (List.mem_of_mem_filter he) hthread
    | commit u o' r => exact absurd hentered (by simp [Event.entered])
    | reply u r => exact absurd hentered (by simp [Event.entered])

end NodeMonitor.AtomicObjects
