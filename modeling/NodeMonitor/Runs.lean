import Mathlib.Data.List.Basic

/-!
Runs of a deterministic machine. A step function consumes one input at a time;
a run is the left fold of the step over a finite list of inputs. Invariants and
properties of single steps are lifted to whole runs by induction on the inputs.
-/

namespace NodeMonitor.Runs

universe u v

variable {S I : Type*}

/-- The states in which the inputs of a run are consumed, each with its input. -/
def visits (step : S → I → S) : S → List I → List (S × I)
  | _, [] => []
  | s, i :: rest => (s, i) :: visits step (step s i) rest

/-- A visited pair is a prefix of the run together with the next input. -/
theorem mem_visits_iff (step : S → I → S) (s t : S) (i : I) (inputs : List I) :
    (t, i) ∈ visits step s inputs ↔
      ∃ pre post, inputs = pre ++ i :: post ∧ t = pre.foldl step s := by
  induction inputs generalizing s with
  | nil => simp [visits]
  | cons j rest ih =>
    simp only [visits, List.mem_cons, Prod.mk.injEq]
    constructor
    · rintro (⟨rfl, rfl⟩ | h)
      · exact ⟨[], rest, rfl, rfl⟩
      · obtain ⟨pre, post, rfl, rfl⟩ := (ih (step s j)).mp h
        exact ⟨j :: pre, post, rfl, rfl⟩
    · rintro ⟨pre, post, heq, rfl⟩
      cases pre with
      | nil =>
        obtain ⟨rfl, rfl⟩ := List.cons.inj heq
        exact Or.inl ⟨rfl, rfl⟩
      | cons k pre =>
        obtain ⟨rfl, rfl⟩ := List.cons.inj heq
        exact Or.inr ((ih _).mpr ⟨pre, post, rfl, rfl⟩)

theorem visits_append (step : S → I → S) (s : S) (left right : List I) :
    visits step s (left ++ right) =
      visits step s left ++ visits step (left.foldl step s) right := by
  induction left generalizing s with
  | nil => rfl
  | cons i rest ih =>
    simp only [List.cons_append, visits, List.foldl_cons, ih]

theorem map_snd_visits (step : S → I → S) (s : S) (inputs : List I) :
    (visits step s inputs).map Prod.snd = inputs := by
  induction inputs generalizing s with
  | nil => rfl
  | cons i rest ih => rw [visits, List.map_cons, ih]

/-- Only the inputs of the run are consumed. -/
theorem mem_of_mem_visits (step : S → I → S) {s t : S} {i : I} {inputs : List I}
    (h : (t, i) ∈ visits step s inputs) : i ∈ inputs := by
  obtain ⟨pre, post, rfl, _⟩ := (mem_visits_iff step s t i inputs).mp h
  simp

theorem exists_visit (step : S → I → S) (s : S) {i : I} {inputs : List I}
    (h : i ∈ inputs) : ∃ t, (t, i) ∈ visits step s inputs := by
  obtain ⟨pre, post, rfl⟩ := List.append_of_mem h
  exact ⟨_, (mem_visits_iff step s _ i _).mpr ⟨pre, post, rfl, rfl⟩⟩

/-- What every step keeps holds at the end of every run. -/
theorem foldl_invariant (step : S → I → S) (Inv : S → Prop)
    (hstep : ∀ s i, Inv s → Inv (step s i)) (s : S) (inputs : List I) (hs : Inv s) :
    Inv (inputs.foldl step s) := by
  induction inputs generalizing s with
  | nil => exact hs
  | cons i rest ih => exact ih (step s i) (hstep s i hs)

/-- It holds in every state in which an input is consumed, too. -/
theorem invariant_of_mem_visits (step : S → I → S) (Inv : S → Prop)
    (hstep : ∀ s i, Inv s → Inv (step s i)) (s : S) (inputs : List I) (hs : Inv s)
    {v : S × I} (hv : v ∈ visits step s inputs) : Inv v.1 := by
  obtain ⟨pre, _, _, hstate⟩ := (mem_visits_iff step s v.1 v.2 inputs).mp hv
  rw [hstate]
  exact foldl_invariant step Inv hstep s pre hs

/-- At the end of a run, when a step keeps the invariant only under a condition that
all visited steps of the run meet. -/
theorem foldl_invariant_of_visits (step : S → I → S) (Inv : S → Prop) (Cond : S → I → Prop)
    (hstep : ∀ s i, Cond s i → Inv s → Inv (step s i)) (s : S) (inputs : List I)
    (hcond : ∀ p ∈ visits step s inputs, Cond p.1 p.2) (hs : Inv s) :
    Inv (inputs.foldl step s) := by
  induction inputs generalizing s with
  | nil => exact hs
  | cons i rest ih =>
    have hi : Cond s i := hcond (s, i) (List.mem_cons_self ..)
    exact ih (step s i) (fun p hp => hcond p (List.mem_cons_of_mem _ hp)) (hstep s i hi hs)

/-- A loop that updates a state and adds what every step puts out adds the outputs of the
states in which the inputs are consumed. -/
theorem foldl_collect {B C : Type*} (body : S × C → I → S × C) (step : S → I → S)
    (collected : C → List B) (out : S → I → List B) (hstate : ∀ p i, (body p i).1 = step p.1 i)
    (hout : ∀ p i, collected (body p i).2 = collected p.2 ++ out p.1 i)
    (p : S × C) (inputs : List I) :
    (inputs.foldl body p).1 = inputs.foldl step p.1 ∧
      collected (inputs.foldl body p).2 =
        collected p.2 ++ (visits step p.1 inputs).flatMap (fun v => out v.1 v.2) := by
  induction inputs generalizing p with
  | nil => exact ⟨rfl, (List.append_nil _).symm⟩
  | cons i rest ih =>
    obtain ⟨hend, houts⟩ := ih (body p i)
    rw [hstate] at hend houts
    rw [hout, List.append_assoc] at houts
    exact ⟨hend, houts⟩

/-- Two machines in lockstep give the same outputs and stay related. -/
theorem lockstep {T J B : Type*} (step : S → I → S) (step' : T → J → T) (input : I → J)
    (out : S → I → B) (out' : T → J → B) (R : S → T → Prop)
    (hstep : ∀ s t i, R s t → R (step s i) (step' t (input i)) ∧ out s i = out' t (input i))
    (s : S) (t : T) (hst : R s t) (inputs : List I) :
    R (inputs.foldl step s) ((inputs.map input).foldl step' t) ∧
      (visits step s inputs).map (fun v => out v.1 v.2) =
        (visits step' t (inputs.map input)).map (fun v => out' v.1 v.2) := by
  induction inputs generalizing s t with
  | nil => exact ⟨hst, rfl⟩
  | cons i rest ih =>
    obtain ⟨hnext, hout⟩ := hstep s t i hst
    obtain ⟨hend, houts⟩ := ih (step s i) (step' t (input i)) hnext
    refine ⟨hend, ?_⟩
    simp only [List.map_cons, visits, hout, houts]

/-! ### Loops that may fail -/

/-- A loop whose body computes an item and stores it fails where an item fails. -/
theorem foldlM_store {M : Type u → Type v} [Monad M] [LawfulMonad M] {T B : Type u}
    (item : I → M B) (store : T → B → T) (t : T) (inputs : List I) :
    inputs.foldlM (fun t i => store t <$> item i) t =
      (fun items => items.foldl store t) <$> inputs.mapM item := by
  induction inputs generalizing t with
  | nil => simp
  | cons i rest ih => simp [ih, map_bind, bind_map_left]

/-- A loop over items in another order ends alike when its steps commute. -/
theorem foldlM_perm {M : Type u → Type v} [Monad M] [LawfulMonad M] {T : Type u}
    {step : T → I → M T} {left right : List I} (h : left.Perm right)
    (hcomm : ∀ i j t, (step t i >>= fun u => step u j) = step t j >>= fun u => step u i)
    (t : T) : left.foldlM step t = right.foldlM step t := by
  induction h generalizing t with
  | nil => rfl
  | cons i _ ih =>
    rw [List.foldlM_cons, List.foldlM_cons]
    exact bind_congr ih
  | swap i j rest =>
    simp only [List.foldlM_cons, ← bind_assoc, hcomm i j t]
  | trans _ _ ih ih' => rw [ih, ih']

theorem mapM_ok {E B : Type*} {item : I → Except E B} {value : I → B} {inputs : List I}
    (h : ∀ i ∈ inputs, item i = .ok (value i)) :
    inputs.mapM item = .ok (inputs.map value) := by
  induction inputs with
  | nil => rfl
  | cons i rest ih =>
    obtain ⟨hi, hrest⟩ := List.forall_mem_cons.mp h
    rw [List.mapM_cons, hi, ih hrest]
    rfl

theorem mapM_error {E B : Type*} {item : I → Except E B} {inputs : List I} {i : I} {e : E}
    (hmem : i ∈ inputs) (h : item i = .error e) :
    ∀ items, inputs.mapM item ≠ .ok items := by
  induction inputs with
  | nil => exact absurd hmem List.not_mem_nil
  | cons j rest ih =>
    intro items hok
    rw [List.mapM_cons] at hok
    cases hj : item j with
    | error f =>
      rw [hj] at hok
      exact absurd hok (by simp [Bind.bind, Except.bind])
    | ok b =>
      rcases List.mem_cons.mp hmem with rfl | hrest
      · rw [h] at hj
        exact absurd hj (by simp)
      · cases hmap : rest.mapM item with
        | error f =>
          rw [hj, hmap] at hok
          exact absurd hok (by simp [Bind.bind, Except.bind])
        | ok bs => exact ih hrest bs hmap

end NodeMonitor.Runs
