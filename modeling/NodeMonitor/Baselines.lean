import NodeMonitor.KeyedMaps
import NodeMonitor.Runs
import Mathlib.Algebra.Field.Basic
import Mathlib.Algebra.BigOperators.Group.List.Basic
import Mathlib.Algebra.Order.BigOperators.Group.List
import Mathlib.Tactic.Ring

/-!
Samples compared with the sample before them. A machine that overwrites a stored
baseline with every sample of a source compares the samples of that source in a
chain, whatever other inputs it takes in between; the differences along a chain
telescope.
-/

namespace NodeMonitor.Baselines

open KeyedMaps Runs

variable {A B K M S I V : Type*}

/-- Each sample with the one before it. -/
def chain : Option A → List A → List (Option A × A)
  | _, [] => []
  | last, a :: rest => (last, a) :: chain (some a) rest

/-- The pairs of neighbours. -/
def steps (samples : List A) : List (A × A) := samples.zip samples.tail

theorem steps_cons_cons (a b : A) (rest : List A) :
    steps (a :: b :: rest) = (a, b) :: steps (b :: rest) := rfl

theorem chain_some (a : A) (rest : List A) :
    chain (some a) rest = (steps (a :: rest)).map (fun p => (some p.1, p.2)) := by
  induction rest generalizing a with
  | nil => rfl
  | cons b rest ih => rw [chain, ih b, steps_cons_cons, List.map_cons]

theorem map_snd_chain (last : Option A) (samples : List A) :
    (chain last samples).map Prod.snd = samples := by
  induction samples generalizing last with
  | nil => rfl
  | cons a rest ih => rw [chain, List.map_cons, ih]

theorem chain_map (f : A → B) (last : Option A) (samples : List A) :
    chain (last.map f) (samples.map f) =
      (chain last samples).map (fun p => (p.1.map f, f p.2)) := by
  induction samples generalizing last with
  | nil => rfl
  | cons a rest ih =>
    rw [List.map_cons, chain, chain, List.map_cons]
    exact congrArg (List.cons _) (ih (some a))

theorem steps_map (f : A → B) (samples : List A) :
    steps (samples.map f) = (steps samples).map (Prod.map f f) := by
  rw [steps, steps, ← List.map_tail, List.zip_map]

/-- In a chain every sample is compared with its neighbour. -/
theorem fst_of_mem_steps_chain {last : Option A} {samples : List A}
    {p : (Option A × A) × (Option A × A)} (hp : p ∈ steps (chain last samples)) :
    p.2.1 = some p.1.2 := by
  induction samples generalizing last with
  | nil => simp [chain, steps] at hp
  | cons a rest ih =>
    cases rest with
    | nil => simp [chain, steps] at hp
    | cons b rest =>
      rw [chain, chain, steps_cons_cons, List.mem_cons] at hp
      rcases hp with rfl | hp
      · rfl
      · exact ih hp

/-- What is computed along a chain is computed from neighbouring samples. -/
theorem of_mem_steps_map_chain {f : Option A × A → B} {last : Option A} {samples : List A}
    {p : B × B} (hp : p ∈ steps ((chain last samples).map f)) :
    ∃ before a b, p = (f (before, a), f (some a, b)) := by
  rw [steps_map] at hp
  obtain ⟨⟨⟨before, a⟩, ⟨compared, b⟩⟩, hq, rfl⟩ := List.mem_map.mp hp
  obtain rfl : compared = some a := fst_of_mem_steps_chain hq
  exact ⟨before, a, b, rfl⟩

theorem mem_steps_iff (samples : List A) (a b : A) :
    (a, b) ∈ steps samples ↔ ∃ pre post, samples = pre ++ a :: b :: post := by
  constructor
  · intro h
    induction samples with
    | nil => simp [steps] at h
    | cons c rest ih =>
      cases rest with
      | nil => simp [steps] at h
      | cons d rest =>
        rw [steps_cons_cons, List.mem_cons] at h
        rcases h with heq | h
        · obtain ⟨rfl, rfl⟩ := Prod.mk.inj heq
          exact ⟨[], rest, rfl⟩
        · obtain ⟨pre, post, hsplit⟩ := ih h
          exact ⟨c :: pre, post, by rw [hsplit, List.cons_append]⟩
  · rintro ⟨pre, post, rfl⟩
    induction pre with
    | nil => exact List.mem_cons_self ..
    | cons c pre ih =>
      cases pre with
      | nil => exact List.mem_cons_of_mem _ ih
      | cons d pre => exact List.mem_cons_of_mem _ ih

theorem rel_of_mem_steps {R : A → A → Prop} {samples : List A} (h : samples.Pairwise R)
    {p : A × A} (hp : p ∈ steps samples) : R p.1 p.2 := by
  obtain ⟨pre, post, rfl⟩ := (mem_steps_iff samples p.1 p.2).mp hp
  have hpair := (List.pairwise_append.mp h).2.1
  exact (List.pairwise_cons.mp hpair).1 p.2 (List.mem_cons_self ..)

/-! ### Sums along a chain -/

/-- The differences of neighbours add up to the difference of the ends. -/
theorem sum_steps_sub [AddCommGroup M] (v : A → M) (a : A) (rest : List A) :
    ((steps (a :: rest)).map (fun p => v p.2 - v p.1)).sum =
      v ((a :: rest).getLast (List.cons_ne_nil a rest)) - v a := by
  induction rest generalizing a with
  | nil => simp [steps]
  | cons b rest ih =>
    rw [steps_cons_cons, List.map_cons, List.sum_cons, ih b, List.getLast_cons_cons]
    exact sub_add_sub_cancel' _ _ _

section Ordered

variable [AddCommGroup M] [PartialOrder M] [IsOrderedAddMonoid M]

theorem sum_map_eq_iff (l : List A) (f g : A → M) (hle : ∀ a ∈ l, f a ≤ g a) :
    (l.map f).sum = (l.map g).sum ↔ ∀ a ∈ l, f a = g a := by
  induction l with
  | nil => simp
  | cons a rest ih =>
    have hrest : ∀ b ∈ rest, f b ≤ g b := fun b hb => hle b (List.mem_cons_of_mem a hb)
    rw [List.map_cons, List.map_cons, List.sum_cons, List.sum_cons,
      add_eq_add_iff_eq_and_eq (hle a (List.mem_cons_self ..)) (List.sum_le_sum hrest),
      ih hrest, List.forall_mem_cons]

/-- Parts that do not exceed the differences make up the whole only if none is missing. -/
theorem sum_steps_eq_iff (v : A → M) (part : A × A → M) (a : A) (rest : List A)
    (hle : ∀ p ∈ steps (a :: rest), part p ≤ v p.2 - v p.1) :
    ((steps (a :: rest)).map part).sum =
        v ((a :: rest).getLast (List.cons_ne_nil a rest)) - v a ↔
      ∀ p ∈ steps (a :: rest), part p = v p.2 - v p.1 := by
  rw [← sum_steps_sub]
  exact sum_map_eq_iff _ part _ hle

end Ordered

/-! ### Relative changes along a chain -/

section Relative

variable {F : Type*} [Field F] [DecidableEq F]

/-- The change in proportion to the value before; zero if there is none or it is zero. -/
def relativeChange : Option F → F → F
  | none, _ => 0
  | some last, now => if last = 0 then 0 else (now - last) / last

/-- The values relative changes lead to. -/
def compounded (v : F) : List F → List F
  | [] => []
  | change :: rest => v * (1 + change) :: compounded (v * (1 + change)) rest

theorem mul_one_add_relativeChange {last now : F} (h : last ≠ 0) :
    last * (1 + relativeChange (some last) now) = now := by
  rw [relativeChange, if_neg h, mul_add, mul_one, mul_div_cancel₀ _ h, add_sub_cancel]

theorem mul_one_add_relativeChange_eq_iff (last now : F) :
    last * (1 + relativeChange (some last) now) = now ↔ (last = 0 → now = 0) := by
  by_cases h : last = 0
  · subst h
    simp [eq_comm]
  · simp [mul_one_add_relativeChange h, h]

theorem compounded_chain_some_iff (last : F) (values : List F) :
    compounded last ((chain (some last) values).map (fun p => relativeChange p.1 p.2)) = values ↔
      (last :: values).Pairwise (fun v w => v = 0 → w = 0) := by
  induction values generalizing last with
  | nil => simp [chain, compounded]
  | cons now rest ih =>
    rw [chain, List.map_cons, compounded, List.cons.injEq, mul_one_add_relativeChange_eq_iff]
    constructor
    · intro h
      obtain ⟨hnow, hrest⟩ := h
      rw [(mul_one_add_relativeChange_eq_iff last now).mpr hnow, ih] at hrest
      refine List.pairwise_cons.mpr ⟨?_, hrest⟩
      intro w hw hzero
      rcases List.mem_cons.mp hw with rfl | hw
      · exact hnow hzero
      · exact (List.pairwise_cons.mp hrest).1 w hw (hnow hzero)
    · intro h
      obtain ⟨hlast, hrest⟩ := List.pairwise_cons.mp h
      have hnow := hlast now (List.mem_cons_self ..)
      rw [(mul_one_add_relativeChange_eq_iff last now).mpr hnow, ih]
      exact ⟨hnow, hrest⟩

/-- From the first value on, the relative changes lead to all values exactly if nothing
follows a zero but zeroes. -/
theorem compounded_chain_iff (values : List F) :
    compounded (values.headD 0) ((chain none values).map (fun p => relativeChange p.1 p.2)) =
        values ↔ values.Pairwise (fun v w => v = 0 → w = 0) := by
  cases values with
  | nil => simp [chain, compounded]
  | cons first rest =>
    rw [← compounded_chain_some_iff first rest]
    simp [chain, compounded, relativeChange]

end Relative

/-! ### Stored baselines -/

/-- In a pass over distinct keys every element meets the value its key had before. -/
theorem visits_assign_of_nodup [DecidableEq K] (key : A → K) (value : A → V)
    (m : KeyedMap K V) (l : List A) (hnodup : (l.map key).Nodup) :
    (visits (fun m a => assign m (key a) (value a)) m l).map (fun v => (v.1 (key v.2), v.2)) =
      l.map (fun a => (m (key a), a)) := by
  induction l generalizing m with
  | nil => rfl
  | cons a rest ih =>
    obtain ⟨hfresh, hrest⟩ := List.nodup_cons.mp hnodup
    rw [visits, List.map_cons, ih _ hrest, List.map_cons]
    congr 1
    apply List.map_congr_left
    intro b hb
    rw [assign_of_ne]
    intro heq
    exact hfresh (heq ▸ List.mem_map_of_mem hb)

section Stored

variable (step : S → I → S) (view : S → Option V) (sample : I → Option A) (record : A → V)
  (hstep : ∀ s i, view (step s i) = ((sample i).map record).or (view s))

include hstep

/-- The samples a machine takes are compared in a chain. -/
theorem filterMap_visits (g : Option V → A → B) (start : Option A) (s : S)
    (hs : view s = start.map record) (inputs : List I) :
    (visits step s inputs).filterMap (fun v => (sample v.2).map (g (view v.1))) =
      (chain start (inputs.filterMap sample)).map (fun p => g (p.1.map record) p.2) := by
  induction inputs generalizing s start with
  | nil => rfl
  | cons i rest ih =>
    cases hi : sample i with
    | none =>
      have hnext : view (step s i) = start.map record := by
        rw [hstep, hi, Option.map_none, Option.none_or, hs]
      rw [List.filterMap_cons_none hi, visits, List.filterMap_cons_none (by rw [hi]; rfl),
        ih start (step s i) hnext]
    | some a =>
      have hnext : view (step s i) = (some a).map record := by
        rw [hstep, hi, Option.map_some, Option.some_or]
      rw [List.filterMap_cons_some hi, visits, List.filterMap_cons_some (by rw [hi]; rfl),
        ih (some a) (step s i) hnext, hs, chain, List.map_cons]

/-- The last sample taken is the one stored. -/
theorem view_foldl (start : Option A) (s : S) (hs : view s = start.map record)
    (inputs : List I) :
    view (inputs.foldl step s) = ((inputs.filterMap sample).getLast?.or start).map record := by
  induction inputs generalizing s start with
  | nil => exact hs
  | cons i rest ih =>
    cases hi : sample i with
    | none =>
      have hnext : view (step s i) = start.map record := by
        rw [hstep, hi, Option.map_none, Option.none_or, hs]
      rw [List.foldl_cons, ih start (step s i) hnext, List.filterMap_cons_none hi]
    | some a =>
      have hnext : view (step s i) = (some a).map record := by
        rw [hstep, hi, Option.map_some, Option.some_or]
      rw [List.foldl_cons, ih (some a) (step s i) hnext, List.filterMap_cons_some hi,
        List.getLast?_cons]
      cases (rest.filterMap sample).getLast? with
      | none => rfl
      | some b => rfl

end Stored

end NodeMonitor.Baselines
