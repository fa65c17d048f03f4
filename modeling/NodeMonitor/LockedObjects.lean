import NodeMonitor.AtomicObjects

/-!
Objects behind a lock. Each operation is a program that works on the shared state one step
at a time; a thread runs it while it holds the lock and answers after releasing it. However
the threads' steps are interleaved, the calls and replies are those of the object whose
operations take effect at once, each when its thread releases the lock.
-/

namespace NodeMonitor.LockedObjects

open AtomicObjects

variable {T O R S L : Type*}

/-- The operations as programs with a local state; a program is done when it has a result. -/
structure Program (O R S L : Type*) where
  enter : O → L
  work : L → S → L × S
  result : L → Option R

/-- The program, run alone from a state of the object, ends with a result. -/
inductive Completes (P : Program O R S L) : L → S → R → S → Prop
  | done {l : L} {r : R} (h : P.result l = some r) (s : S) : Completes P l s r s
  | worked {l : L} {s s' : S} {r : R} (h : P.result l = none)
      (hrest : Completes P (P.work l s).1 (P.work l s).2 r s') : Completes P l s r s'

/-- Run alone, the programs compute the operations. -/
def Implements (P : Program O R S L) (apply : O → S → R × S) : Prop :=
  ∀ o s, Completes P (P.enter o) s (apply o s).1 (apply o s).2

inductive Phase (O R L : Type*)
  | idle
  | waiting (o : O)
  | inside (o : O) (l : L)
  | done (o : O) (r : R)

structure World (T O R S L : Type*) where
  shared : S
  holder : Option T
  phase : T → Phase O R L
  history : List (Event T O R)

def World.start (s : S) : World T O R S L := ⟨s, none, fun _ => .idle, []⟩

inductive Action (T O : Type*)
  | call (t : T) (o : O)
  | acquire (t : T)
  | work (t : T)
  | release (t : T)
  | reply (t : T)

/-- The stage of the atomic object that a phase stands for: nothing has happened yet while
the thread works under the lock. -/
def Phase.stage : Phase O R L → Stage O R
  | .idle => .idle
  | .waiting o => .called o
  | .inside o _ => .called o
  | .done o r => .committed o r

/-- The lock is held by the one thread that is inside, and the object's state is the one
before its operation, which the work left will carry out; without one they are equal. -/
inductive Guards (P : Program O R S L) (apply : O → S → R × S) (w : World T O R S L)
    (s : S) : Prop
  | free (hholder : w.holder = none) (hout : ∀ t o l, w.phase t ≠ .inside o l)
      (hshared : w.shared = s)
  | held (t : T) (o : O) (l : L) (hholder : w.holder = some t)
      (hinside : w.phase t = .inside o l)
      (hout : ∀ u, u ≠ t → ∀ o l, w.phase u ≠ .inside o l)
      (hleft : Completes P l w.shared (apply o s).1 (apply o s).2)

/-- The atomic object in the state the world stands for. -/
structure Abstracts (P : Program O R S L) (apply : O → S → R × S) (w : World T O R S L)
    (a : Atomic T O R S) : Prop where
  stage : a.stage = fun t => (w.phase t).stage
  guards : Guards P apply w a.shared

variable {P : Program O R S L} {apply : O → S → R × S}

theorem Completes.of_done {l : L} {s s' : S} {r r' : R} (h : Completes P l s r' s')
    (hresult : P.result l = some r) : r' = r ∧ s' = s := by
  cases h with
  | done hsome => exact ⟨Option.some.inj (hsome.symm.trans hresult), rfl⟩
  | worked hnone _ => exact absurd (hnone.symm.trans hresult) (by simp)

theorem Completes.of_work {l : L} {s s' : S} {r : R} (h : Completes P l s r s')
    (hresult : P.result l = none) : Completes P (P.work l s).1 (P.work l s).2 r s' := by
  cases h with
  | done hsome => exact absurd (hresult.symm.trans hsome) (by simp)
  | worked _ hrest => exact hrest

theorem start_abstracts (s : S) : Abstracts P apply (World.start s : World T O R S L)
    (Atomic.start s) :=
  ⟨rfl, .free rfl (fun _ _ _ h => absurd h (by simp [World.start])) rfl⟩

theorem Abstracts.stage_at {w : World T O R S L} {a : Atomic T O R S}
    (h : Abstracts P apply w a) (t : T) : a.stage t = (w.phase t).stage := congrFun h.stage t

/-- The process with the object starts again; replies are still on their way to the threads. -/
def World.restart (w : World T O R S L) (s : S) : World T O R S L :=
  { w with
    shared := s
    holder := none
    phase := fun t => match w.phase t with
      | .done o r => .done o r
      | _ => .idle }

theorem Abstracts.restart {w : World T O R S L} {a : Atomic T O R S}
    (h : Abstracts P apply w a) (s : S) :
    Abstracts P apply (w.restart s) ⟨s, fun t => (a.stage t).answered⟩ where
  stage := by
    funext t
    simp only [h.stage_at, World.restart]
    cases w.phase t <;> rfl
  guards := by
    refine .free rfl (fun t o l hin => ?_) rfl
    simp only [World.restart] at hin
    cases hphase : w.phase t <;> simp [hphase] at hin

variable [DecidableEq T]

def World.setPhase (w : World T O R S L) (t : T) (p : Phase O R L) : World T O R S L :=
  { w with phase := Function.update w.phase t p }

/-- A thread's next step; one that is not possible in this state does nothing. -/
def step (P : Program O R S L) (w : World T O R S L) : Action T O → World T O R S L
  | .call t o =>
    match w.phase t with
    | .idle => { w.setPhase t (.waiting o) with history := w.history ++ [.call t o] }
    | _ => w
  | .acquire t =>
    match w.phase t, w.holder with
    | .waiting o, none => { w.setPhase t (.inside o (P.enter o)) with holder := some t }
    | _, _ => w
  | .work t =>
    match w.phase t with
    | .inside o l =>
      match P.result l with
      | none => { w.setPhase t (.inside o (P.work l w.shared).1) with
          shared := (P.work l w.shared).2 }
      | some _ => w
    | _ => w
  | .release t =>
    match w.phase t with
    | .inside o l =>
      match P.result l with
      | none => w
      | some r => { w.setPhase t (.done o r) with holder := none }
    | _ => w
  | .reply t =>
    match w.phase t with
    | .done _ r => { w.setPhase t .idle with history := w.history ++ [.reply t r] }
    | _ => w

def run (P : Program O R S L) (s : S) (schedule : List (Action T O)) : World T O R S L :=
  schedule.foldl (step P) (World.start s)

/-- What a step can do. -/
inductive Moves (P : Program O R S L) (w : World T O R S L) : World T O R S L → Prop
  | called (t : T) (o : O) (h : w.phase t = .idle) :
      Moves P w { w.setPhase t (.waiting o) with history := w.history ++ [.call t o] }
  | acquired (t : T) (o : O) (h : w.phase t = .waiting o) (hfree : w.holder = none) :
      Moves P w { w.setPhase t (.inside o (P.enter o)) with holder := some t }
  | worked (t : T) (o : O) (l : L) (h : w.phase t = .inside o l) (hresult : P.result l = none) :
      Moves P w { w.setPhase t (.inside o (P.work l w.shared).1) with
        shared := (P.work l w.shared).2 }
  | released (t : T) (o : O) (l : L) (r : R) (h : w.phase t = .inside o l)
      (hresult : P.result l = some r) :
      Moves P w { w.setPhase t (.done o r) with holder := none }
  | replied (t : T) (o : O) (r : R) (h : w.phase t = .done o r) :
      Moves P w { w.setPhase t .idle with history := w.history ++ [.reply t r] }
  | unmoved : Moves P w w

theorem step_moves (P : Program O R S L) (w : World T O R S L) (action : Action T O) :
    Moves P w (step P w action) := by
  cases action with
  | call t o =>
    cases hphase : w.phase t with
    | idle =>
      simp only [step, hphase]
      exact .called t o hphase
    | _ =>
      simp only [step, hphase]
      exact .unmoved
  | acquire t =>
    cases hphase : w.phase t with
    | waiting o =>
      cases hholder : w.holder with
      | none =>
        simp only [step, hphase, hholder]
        exact .acquired t o hphase hholder
      | some u =>
        simp only [step, hphase, hholder]
        exact .unmoved
    | _ =>
      simp only [step, hphase]
      exact .unmoved
  | work t =>
    cases hphase : w.phase t with
    | inside o l =>
      cases hresult : P.result l with
      | none =>
        simp only [step, hphase, hresult]
        exact .worked t o l hphase hresult
      | some r =>
        simp only [step, hphase, hresult]
        exact .unmoved
    | _ =>
      simp only [step, hphase]
      exact .unmoved
  | release t =>
    cases hphase : w.phase t with
    | inside o l =>
      cases hresult : P.result l with
      | none =>
        simp only [step, hphase, hresult]
        exact .unmoved
      | some r =>
        simp only [step, hphase, hresult]
        exact .released t o l r hphase hresult
    | _ =>
      simp only [step, hphase]
      exact .unmoved
  | reply t =>
    cases hphase : w.phase t with
    | done o r =>
      simp only [step, hphase]
      exact .replied t o r hphase
    | _ =>
      simp only [step, hphase]
      exact .unmoved

theorem setPhase_inside {w : World T O R S L} {t u : T} {p : Phase O R L} {o : O} {l : L}
    (h : (w.setPhase t p).phase u = .inside o l) :
    (u = t ∧ p = .inside o l) ∨ (u ≠ t ∧ w.phase u = .inside o l) := by
  by_cases hu : u = t
  · subst hu
    exact Or.inl ⟨rfl, by simpa [World.setPhase] using h⟩
  · exact Or.inr ⟨hu, by simpa [World.setPhase, hu] using h⟩

theorem stage_setPhase {w : World T O R S L} {a : Atomic T O R S}
    (h : a.stage = fun u => (w.phase u).stage) (t : T) (p : Phase O R L) :
    Function.update a.stage t p.stage = fun u => ((w.setPhase t p).phase u).stage := by
  funext u
  by_cases hu : u = t
  · subst hu
    simp [World.setPhase]
  · simp [World.setPhase, hu, h]

/-- A change of a thread outside leaves the lock as it is. -/
theorem Guards.setPhase {w w' : World T O R S L} {s : S} (h : Guards P apply w s) {t : T}
    {p : Phase O R L} (hbefore : ∀ o l, w.phase t ≠ .inside o l)
    (hafter : ∀ o l, p ≠ .inside o l) (hphase : w'.phase = (w.setPhase t p).phase)
    (hholder : w'.holder = w.holder) (hshared : w'.shared = w.shared) :
    Guards P apply w' s := by
  have hkeep : ∀ u o l, w'.phase u = .inside o l → w.phase u = .inside o l := by
    intro u o l hu
    rw [hphase] at hu
    rcases setPhase_inside hu with ⟨_, hp⟩ | ⟨_, hw⟩
    · exact absurd hp (hafter o l)
    · exact hw
  cases h with
  | free hfree hout heq =>
    exact .free (hholder.trans hfree) (fun u o l hu => hout u o l (hkeep u o l hu))
      (hshared.trans heq)
  | held u o l hheld hinside hout hleft =>
    have hut : u ≠ t := by
      rintro rfl
      exact hbefore o l hinside
    refine .held u o l (hholder.trans hheld) ?_ ?_ (by rw [hshared]; exact hleft)
    · rw [hphase]
      simpa [World.setPhase, hut] using hinside
    · exact fun v hv o l hin => hout v hv o l (hkeep v o l hin)

/-- A thread inside is the holder, with the rest of its operation before it. -/
theorem Guards.inside {w : World T O R S L} {s : S} (h : Guards P apply w s) {t : T} {o : O}
    {l : L} (hin : w.phase t = .inside o l) :
    w.holder = some t ∧ (∀ u, u ≠ t → ∀ o l, w.phase u ≠ .inside o l) ∧
      Completes P l w.shared (apply o s).1 (apply o s).2 := by
  cases h with
  | free _ hout _ => exact absurd hin (hout t o l)
  | held u o' l' hheld hinside hout hleft =>
    by_cases hu : t = u
    · subst hu
      rw [hinside] at hin
      obtain ⟨rfl, rfl⟩ := Phase.inside.inj hin
      exact ⟨hheld, hout, hleft⟩
    · exact absurd hin (hout t hu o l)

/-! What a step means for the atomic object: a call, a commit on the release, a reply, and
nothing while the thread works under the lock. -/

theorem Abstracts.called {w : World T O R S L} {a : Atomic T O R S} (h : Abstracts P apply w a)
    {t : T} (o : O) (hidle : w.phase t = .idle) (history : List (Event T O R)) :
    Abstracts P apply { w.setPhase t (.waiting o) with history := history }
      { a with stage := Function.update a.stage t (.called o) } where
  stage := stage_setPhase h.stage t (.waiting o)
  guards := h.guards.setPhase (p := .waiting o) (by simp [hidle]) (by simp) rfl rfl rfl

theorem Abstracts.acquired (himp : Implements P apply) {w : World T O R S L}
    {a : Atomic T O R S} (h : Abstracts P apply w a) {t : T} {o : O}
    (hwaiting : w.phase t = .waiting o) (hfree : w.holder = none) :
    Abstracts P apply { w.setPhase t (.inside o (P.enter o)) with holder := some t } a := by
  have hat : a.stage t = .called o := by rw [h.stage_at, hwaiting, Phase.stage]
  refine ⟨?_, ?_⟩
  · rw [← stage_setPhase h.stage, Phase.stage]
    exact (Function.update_eq_self_iff.mpr hat.symm).symm
  · cases h.guards with
    | held u _ _ hheld => exact absurd (hfree.symm.trans hheld) (by simp)
    | free _ hout hshared =>
      refine .held t o (P.enter o) rfl (by simp [World.setPhase]) ?_ ?_
      · intro u hu o l hin
        rcases setPhase_inside hin with ⟨hut, _⟩ | ⟨_, hw⟩
        · exact hu hut
        · exact hout u o l hw
      · rw [← hshared]
        exact himp o w.shared

theorem Abstracts.worked {w : World T O R S L} {a : Atomic T O R S} (h : Abstracts P apply w a)
    {t : T} {o : O} {l : L} (hinside : w.phase t = .inside o l) (hresult : P.result l = none) :
    Abstracts P apply { w.setPhase t (.inside o (P.work l w.shared).1) with
      shared := (P.work l w.shared).2 } a := by
  have hat : a.stage t = .called o := by rw [h.stage_at, hinside, Phase.stage]
  obtain ⟨hholder, hout, hleft⟩ := h.guards.inside hinside
  refine ⟨?_, .held t o (P.work l w.shared).1 hholder (by simp [World.setPhase]) ?_
    (hleft.of_work hresult)⟩
  · rw [← stage_setPhase h.stage, Phase.stage]
    exact (Function.update_eq_self_iff.mpr hat.symm).symm
  · intro u hu o l hin
    rcases setPhase_inside hin with ⟨hut, _⟩ | ⟨_, hw⟩
    · exact hu hut
    · exact hout u hu o l hw

theorem Abstracts.released {w : World T O R S L} {a : Atomic T O R S}
    (h : Abstracts P apply w a) {t : T} {o : O} {l : L} {r : R}
    (hinside : w.phase t = .inside o l) (hresult : P.result l = some r) :
    a.stage t = .called o ∧
      Abstracts P apply { w.setPhase t (.done o r) with holder := none }
        ⟨(apply o a.shared).2,
          Function.update a.stage t (.committed o (apply o a.shared).1)⟩ := by
  obtain ⟨_, hout, hleft⟩ := h.guards.inside hinside
  obtain ⟨hvalue, hshared⟩ := hleft.of_done hresult
  refine ⟨by rw [h.stage_at, hinside, Phase.stage], ?_, .free rfl ?_ hshared.symm⟩
  · rw [hvalue]
    exact stage_setPhase h.stage t (.done o r)
  · intro u o' l' hin
    rcases setPhase_inside hin with ⟨_, hp⟩ | ⟨hu, hw⟩
    · exact absurd hp (by simp)
    · exact hout u hu o' l' hw

theorem Abstracts.replied {w : World T O R S L} {a : Atomic T O R S} (h : Abstracts P apply w a)
    {t : T} {o : O} {r : R} (hdone : w.phase t = .done o r) (history : List (Event T O R)) :
    Abstracts P apply { w.setPhase t .idle with history := history }
      { a with stage := Function.update a.stage t .idle } where
  stage := stage_setPhase h.stage t .idle
  guards := h.guards.setPhase (p := .idle) (by simp [hdone]) (by simp) rfl rfl rfl

/-- What one thread does under the lock or on its way there is a step of the atomic object
or nothing at all, and shows the same. -/
theorem abstracts_step (himp : Implements P apply) {w w' : World T O R S L}
    {a : Atomic T O R S} (h : Abstracts P apply w a) (hmoves : Moves P w w') :
    ∃ events a', Accepts apply a events a' ∧ w'.history = w.history ++ shown events ∧
      Abstracts P apply w' a' := by
  cases hmoves with
  | called t o hidle =>
    have hnext : a.stage t = .idle := by rw [h.stage_at, hidle, Phase.stage]
    exact ⟨[.call t o], _, .cons (.call o hnext) (.nil _), rfl, h.called o hidle _⟩
  | acquired t o hwaiting hfree =>
    exact ⟨[], a, .nil a, (List.append_nil _).symm, h.acquired himp hwaiting hfree⟩
  | worked t o l hinside hresult =>
    exact ⟨[], a, .nil a, (List.append_nil _).symm, h.worked hinside hresult⟩
  | released t o l r hinside hresult =>
    obtain ⟨hcalled, hafter⟩ := h.released hinside hresult
    exact ⟨[.commit t o _], _, .cons (.commit hcalled) (.nil _), (List.append_nil _).symm,
      hafter⟩
  | replied t o r hdone =>
    have hnext : a.stage t = .committed o r := by rw [h.stage_at, hdone, Phase.stage]
    exact ⟨[.reply t r], _, .cons (.reply hnext) (.nil _), rfl, h.replied hdone _⟩
  | unmoved => exact ⟨[], a, .nil a, (List.append_nil _).symm, h⟩

theorem abstracts_foldl (himp : Implements P apply) (schedule : List (Action T O))
    {w : World T O R S L} {a : Atomic T O R S} (h : Abstracts P apply w a) :
    ∃ events a', Accepts apply a events a' ∧
      (schedule.foldl (step P) w).history = w.history ++ shown events ∧
        Abstracts P apply (schedule.foldl (step P) w) a' := by
  induction schedule generalizing w a with
  | nil => exact ⟨[], a, .nil a, (List.append_nil _).symm, h⟩
  | cons action rest ih =>
    obtain ⟨first, b, haccepts, hhistory, hb⟩ := abstracts_step himp h (step_moves P w action)
    obtain ⟨later, c, hlater, hhistory', hc⟩ := ih hb
    refine ⟨first ++ later, c, (accepts_append_iff _ _ _ _).mpr ⟨b, haccepts, hlater⟩, ?_, hc⟩
    rw [List.foldl_cons, hhistory', hhistory, shown_append, List.append_assoc]

/-- Every schedule refines the atomic object. -/
theorem run_abstracts (himp : Implements P apply) (s : S) (schedule : List (Action T O)) :
    ∃ events a, Accepts apply (Atomic.start s) events a ∧
      shown events = (run P s schedule).history ∧ Abstracts P apply (run P s schedule) a := by
  obtain ⟨events, a, haccepts, hhistory, ha⟩ :=
    abstracts_foldl himp schedule (start_abstracts s)
  exact ⟨events, a, haccepts, by rw [run, hhistory]; rfl, ha⟩

/-! ### One thread at a time -/

/-- What a thread does between its call and its reply. -/
inductive Turn
  | acquire | work | release

def Turn.action (t : T) : Turn → Action T O
  | acquire => .acquire t
  | work => .work t
  | release => .release t

/-- A turn shows nothing, and lets the operation take effect or does nothing to the object. -/
theorem Abstracts.turn (himp : Implements P apply) {w : World T O R S L} {a : Atomic T O R S}
    (h : Abstracts P apply w a) (t : T) (turn : Turn) :
    Abstracts P apply (step P w (turn.action t)) a ∨
      ∃ o, a.stage t = .called o ∧ Abstracts P apply (step P w (turn.action t))
        ⟨(apply o a.shared).2,
          Function.update a.stage t (.committed o (apply o a.shared).1)⟩ := by
  cases turn with
  | acquire =>
    refine Or.inl ?_
    cases hphase : w.phase t with
    | waiting o =>
      cases hholder : w.holder with
      | none =>
        simp only [Turn.action, step, hphase, hholder]
        exact h.acquired himp hphase hholder
      | some u => simpa only [Turn.action, step, hphase, hholder] using h
    | _ => simpa only [Turn.action, step, hphase] using h
  | work =>
    refine Or.inl ?_
    cases hphase : w.phase t with
    | inside o l =>
      cases hresult : P.result l with
      | none =>
        simp only [Turn.action, step, hphase, hresult]
        exact h.worked hphase hresult
      | some r => simpa only [Turn.action, step, hphase, hresult] using h
    | _ => simpa only [Turn.action, step, hphase] using h
  | release =>
    cases hphase : w.phase t with
    | inside o l =>
      cases hresult : P.result l with
      | none =>
        refine Or.inl ?_
        simpa only [Turn.action, step, hphase, hresult] using h
      | some r =>
        simp only [Turn.action, step, hphase, hresult]
        exact Or.inr ⟨o, h.released hphase hresult⟩
    | _ =>
      refine Or.inl ?_
      simpa only [Turn.action, step, hphase] using h

/-- An idle thread can always call. -/
theorem Abstracts.call {w : World T O R S L} {a : Atomic T O R S} (h : Abstracts P apply w a)
    {t : T} (hidle : a.stage t = .idle) (o : O) :
    Abstracts P apply (step P w (.call t o))
      { a with stage := Function.update a.stage t (.called o) } := by
  rw [h.stage_at] at hidle
  cases hphase : w.phase t with
  | idle =>
    simp only [step, hphase]
    exact h.called o hphase _
  | _ =>
    rw [hphase] at hidle
    exact absurd hidle (by simp [Phase.stage])

/-- A thread whose operation took effect can be answered. -/
theorem Abstracts.reply {w : World T O R S L} {a : Atomic T O R S} (h : Abstracts P apply w a)
    {t : T} {o : O} {r : R} (hdone : a.stage t = .committed o r) :
    w.phase t = .done o r ∧ Abstracts P apply (step P w (.reply t))
      { a with stage := Function.update a.stage t .idle } := by
  rw [h.stage_at] at hdone
  cases hphase : w.phase t with
  | done o' r' =>
    rw [hphase] at hdone
    obtain ⟨rfl, rfl⟩ := Stage.committed.inj hdone
    simp only [step, hphase]
    exact ⟨trivial, h.replied hphase _⟩
  | _ =>
    rw [hphase] at hdone
    exact absurd hdone (by simp [Phase.stage])

/-! ### Nobody waits for ever -/

def Action.isCall : Action T O → Bool
  | .call _ _ => true
  | _ => false

/-- The thread is answered by steps of threads that have already called. -/
def Answerable (P : Program O R S L) (w : World T O R S L) (t : T) : Prop :=
  ∃ more : List (Action T O), (∀ action ∈ more, action.isCall = false) ∧
    (more.foldl (step P) w).phase t = .idle

/-- The thread inside can finish alone and leave the lock free. -/
theorem finishes {t : T} {o : O} {l : L} {s s' : S} {r : R} (h : Completes P l s r s')
    (w : World T O R S L) (hshared : w.shared = s) (hinside : w.phase t = .inside o l) :
    ∃ more : List (Action T O), (∀ action ∈ more, action.isCall = false) ∧
      (more.foldl (step P) w).holder = none ∧
        (more.foldl (step P) w).phase = Function.update w.phase t .idle := by
  induction h generalizing w with
  | @done l r hresult s =>
    refine ⟨[.release t, .reply t], by simp [Action.isCall], ?_, ?_⟩
    · simp [step, hinside, hresult, World.setPhase]
    · simp [step, hinside, hresult, World.setPhase]
  | @worked l s s' r hresult _ ih =>
    have hwork : step P w (.work t) = { w.setPhase t (.inside o (P.work l s).1) with
        shared := (P.work l s).2 } := by
      simp only [step, hinside, hresult, hshared]
    obtain ⟨more, hmore, hfree, hphase⟩ := ih (step P w (.work t)) (by rw [hwork])
      (by simp [hwork, World.setPhase])
    refine ⟨.work t :: more, List.forall_mem_cons.mpr ⟨rfl, hmore⟩, hfree, ?_⟩
    rw [List.foldl_cons, hphase, hwork]
    simp [World.setPhase]

theorem answerable_append {w : World T O R S L} {t : T} (more : List (Action T O))
    (hmore : ∀ action ∈ more, action.isCall = false)
    (h : Answerable P (more.foldl (step P) w) t) : Answerable P w t := by
  obtain ⟨rest, hrest, hidle⟩ := h
  refine ⟨more ++ rest, ?_, by rw [List.foldl_append]; exact hidle⟩
  intro action haction
  rcases List.mem_append.mp haction with hin | hin
  · exact hmore action hin
  · exact hrest action hin

theorem answerable_of_free (himp : Implements P apply) (w : World T O R S L) {t : T} {o : O}
    (hfree : w.holder = none) (hwaiting : w.phase t = .waiting o) : Answerable P w t := by
  have hstep : step P w (.acquire t) = { w.setPhase t (.inside o (P.enter o)) with
      holder := some t } := by
    simp only [step, hwaiting, hfree]
  obtain ⟨more, hmore, _, hphase⟩ := finishes (t := t) (o := o) (himp o w.shared) (step P w (.acquire t))
    (by rw [hstep]; rfl) (by simp [hstep, World.setPhase])
  refine ⟨.acquire t :: more, List.forall_mem_cons.mpr ⟨rfl, hmore⟩, ?_⟩
  rw [List.foldl_cons, hphase, Function.update_self]

/-- No reachable state is a deadlock: every thread that has called can be answered. -/
theorem answerable (himp : Implements P apply) {w : World T O R S L} {a : Atomic T O R S}
    (h : Abstracts P apply w a) (t : T) : Answerable P w t := by
  cases hphase : w.phase t with
  | idle => exact ⟨[], by simp, hphase⟩
  | done o r =>
    refine ⟨[.reply t], by simp [Action.isCall], ?_⟩
    simp [step, hphase, World.setPhase]
  | inside o l =>
    obtain ⟨_, _, hleft⟩ := h.guards.inside hphase
    obtain ⟨more, hmore, _, hidle⟩ := finishes hleft w rfl hphase
    exact ⟨more, hmore, by rw [hidle, Function.update_self]⟩
  | waiting o =>
    cases h.guards with
    | free hfree _ _ => exact answerable_of_free himp w hfree hphase
    | held u o' l hheld hinside _ hleft =>
      -- the holder goes first
      obtain ⟨more, hmore, hfree, hidle⟩ := finishes hleft w rfl hinside
      have hne : t ≠ u := by
        rintro rfl
        rw [hphase] at hinside
        exact absurd hinside (by simp)
      refine answerable_append more hmore (answerable_of_free himp _ (o := o) hfree ?_)
      rw [hidle, Function.update_of_ne hne, hphase]

end NodeMonitor.LockedObjects
