import Mathlib.Data.List.Induction
import Mathlib.Logic.Function.Basic

/-!
Contents of keyed containers, as partial functions, and the history behind them.
Assigning one entry after another leaves under every key the latest element of
the history that carries the key; the lemmas below read a container back from
the assignments made so far and split a history at such an element.
-/

namespace NodeMonitor.KeyedMaps

variable {K V A : Type*} [DecidableEq K]

abbrev KeyedMap (K V : Type*) := K → Option V

def empty : KeyedMap K V := fun _ => none

/-- `m[k] = v`: a present value is overwritten, an absent key is inserted. -/
def assign (m : KeyedMap K V) (k : K) (v : V) : KeyedMap K V :=
  Function.update m k (some v)

omit [DecidableEq K] in
@[simp]
theorem empty_apply (k : K) : (empty : KeyedMap K V) k = none := rfl

@[simp]
theorem assign_self (m : KeyedMap K V) (k : K) (v : V) : assign m k v k = some v := by
  simp [assign]

theorem assign_of_ne (m : KeyedMap K V) {k l : K} (v : V) (h : l ≠ k) :
    assign m k v l = m l := by
  simp [assign, h]

theorem assign_apply (m : KeyedMap K V) (k l : K) (v : V) :
    assign m k v l = if l = k then some v else m l := by
  by_cases h : l = k
  · subst l
    simp
  · simp [assign_of_ne m v h, h]

/-- The latest element of a history that carries the key. -/
def latest (key : A → K) (k : K) (history : List A) : Option A :=
  (history.filter (fun a => key a = k)).getLast?

@[simp]
theorem latest_nil (key : A → K) (k : K) : latest key k [] = none := rfl

theorem latest_concat (key : A → K) (k : K) (history : List A) (a : A) :
    latest key k (history ++ [a]) = if key a = k then some a else latest key k history := by
  by_cases h : key a = k
  · simp [latest, List.filter_append, h]
  · simp [latest, List.filter_append, h]

/-- An extended history splits at its new element or inside the old history. -/
theorem concat_eq_append_cons_iff (history pre post : List A) (a b : A) :
    history ++ [b] = pre ++ a :: post ↔
      (history = pre ∧ b = a ∧ post = []) ∨
        ∃ rest, post = rest ++ [b] ∧ history = pre ++ a :: rest := by
  constructor
  · intro heq
    rcases List.eq_nil_or_concat post with rfl | ⟨rest, c, rfl⟩
    · obtain ⟨hpre, hlast⟩ := List.append_inj' heq rfl
      exact Or.inl ⟨hpre, List.singleton_inj.mp hlast, rfl⟩
    · have hsplit : history ++ [b] = (pre ++ a :: rest) ++ [c] := by simpa using heq
      obtain ⟨hpre, hlast⟩ := List.append_inj' hsplit rfl
      obtain rfl := List.singleton_inj.mp hlast
      exact Or.inr ⟨rest, by simp, hpre⟩
  · rintro (⟨rfl, rfl, rfl⟩ | ⟨rest, rfl, rfl⟩) <;> simp

/-- The latest element splits the history: nothing after it carries its key. -/
theorem latest_eq_some_iff (key : A → K) (k : K) (history : List A) (a : A) :
    latest key k history = some a ↔
      ∃ pre post, history = pre ++ a :: post ∧ key a = k ∧ ∀ b ∈ post, key b ≠ k := by
  induction history using List.reverseRecOn with
  | nil => simp
  | append_singleton history b ih =>
    rw [latest_concat]
    by_cases hb : key b = k
    · simp only [hb, if_true, Option.some.injEq]
      constructor
      · rintro rfl
        exact ⟨history, [], rfl, hb, by simp⟩
      · rintro ⟨pre, post, heq, ha, hpost⟩
        rcases (concat_eq_append_cons_iff _ _ _ _ _).mp heq with
          ⟨_, hab, _⟩ | ⟨rest, rfl, _⟩
        · exact hab
        · exact absurd hb (hpost b (by simp))
    · simp only [hb, if_false, ih]
      constructor
      · rintro ⟨pre, post, rfl, ha, hpost⟩
        refine ⟨pre, post ++ [b], by simp, ha, ?_⟩
        intro c hc
        rcases List.mem_append.mp hc with hc | hc
        · exact hpost c hc
        · exact List.mem_singleton.mp hc ▸ hb
      · rintro ⟨pre, post, heq, ha, hpost⟩
        rcases (concat_eq_append_cons_iff _ _ _ _ _).mp heq with
          ⟨_, rfl, _⟩ | ⟨rest, rfl, hrest⟩
        · exact absurd ha hb
        · exact ⟨pre, rest, hrest, ha, fun c hc => hpost c (by simp [hc])⟩

theorem latest_mem (key : A → K) {k : K} {history : List A} {a : A}
    (h : latest key k history = some a) : a ∈ history ∧ key a = k := by
  obtain ⟨pre, post, rfl, ha, _⟩ := (latest_eq_some_iff key k history a).mp h
  exact ⟨by simp, ha⟩

theorem latest_eq_none_iff (key : A → K) (k : K) (history : List A) :
    latest key k history = none ↔ ∀ a ∈ history, key a ≠ k := by
  simp [latest]

/-- With pairwise distinct keys every element is the latest of its key. -/
theorem latest_of_nodup (key : A → K) {history : List A}
    (hnodup : (history.map key).Nodup) {a : A} (ha : a ∈ history) :
    latest key (key a) history = some a := by
  obtain ⟨pre, post, rfl⟩ := List.append_of_mem ha
  refine (latest_eq_some_iff key _ _ a).mpr ⟨pre, post, rfl, rfl, ?_⟩
  intro b hb heq
  rw [List.map_append, List.map_cons, List.nodup_append] at hnodup
  exact (List.nodup_cons.mp hnodup.2.1).1 (heq ▸ List.mem_map_of_mem hb)

/-- With pairwise distinct keys the order of the elements does not matter. -/
theorem latest_perm (key : A → K) (k : K) {first second : List A}
    (hnodup : (second.map key).Nodup) (hperm : first.Perm second) :
    latest key k first = latest key k second := by
  cases hsecond : latest key k second with
  | none =>
    rw [latest_eq_none_iff] at hsecond ⊢
    intro a ha
    exact hsecond a (hperm.subset ha)
  | some a =>
    obtain ⟨ha, rfl⟩ := latest_mem key hsecond
    exact latest_of_nodup key ((hperm.map key).nodup_iff.mpr hnodup) (hperm.symm.subset ha)

/-- One assignment for every element of a history, in order. -/
def assignAll (key : A → K) (value : A → V) (m : KeyedMap K V) (history : List A) :
    KeyedMap K V :=
  history.foldl (fun m a => assign m (key a) (value a)) m

theorem assignAll_apply (key : A → K) (value : A → V) (m : KeyedMap K V)
    (history : List A) (k : K) :
    assignAll key value m history k = ((latest key k history).map value).or (m k) := by
  induction history using List.reverseRecOn with
  | nil => rfl
  | append_singleton history a ih =>
    have hfold : assignAll key value m (history ++ [a]) =
        assign (assignAll key value m history) (key a) (value a) := by
      simp [assignAll, List.foldl_append]
    rw [hfold, latest_concat, assign_apply]
    by_cases h : key a = k
    · simp [h]
    · simp [h, Ne.symm h, ih]

theorem assignAll_empty_apply (key : A → K) (value : A → V) (history : List A) (k : K) :
    assignAll key value empty history k = (latest key k history).map value := by
  rw [assignAll_apply, empty_apply, Option.or_none]

/-! ### Histories in rounds -/

theorem latest_append (key : A → K) (k : K) (first second : List A) :
    latest key k (first ++ second) = (latest key k second).or (latest key k first) := by
  rw [latest, List.filter_append, List.getLast?_append]
  rfl

/-- The rounds in which the key has come up by a moment; a round without the key counts
once it is over. -/
def roundsSeen (key : A → K) (k : K) : List (List A) → ℕ → ℕ
  | [], _ => 0
  | round :: rest, t =>
    if round.length ≤ t then roundsSeen key k rest (t - round.length) + 1
    else if latest key k (round.take t) = none then 0
    else 1

/-- If no key comes up twice in a round, then at every moment the latest element of a key
is the one after the rounds seen. -/
theorem latest_take_flatten (key : A → K) (k : K) {rounds : List (List A)}
    (hnodup : ∀ round ∈ rounds, (round.map key).Nodup) (t : ℕ) :
    latest key k (rounds.flatten.take t) =
      latest key k (rounds.take (roundsSeen key k rounds t)).flatten := by
  induction rounds generalizing t with
  | nil => simp [roundsSeen]
  | cons round rest ih =>
    have hround := hnodup round (List.mem_cons_self ..)
    have hrest : ∀ round ∈ rest, (round.map key).Nodup :=
      fun r hr => hnodup r (List.mem_cons_of_mem _ hr)
    rw [List.flatten_cons, roundsSeen]
    by_cases hover : round.length ≤ t
    · rw [if_pos hover, List.take_append, List.take_of_length_le hover, latest_append, ih hrest,
        List.take_succ_cons, List.flatten_cons, latest_append]
    · rw [if_neg hover, List.take_append_of_le_length (by omega)]
      cases hlatest : latest key k (round.take t) with
      | none => simp
      | some a =>
        obtain ⟨hmem, hkey⟩ := latest_mem key hlatest
        have hall := latest_of_nodup key hround (List.mem_of_mem_take hmem)
        rw [hkey] at hall
        simp [hall]

theorem roundsSeen_mono (key : A → K) (k : K) (rounds : List (List A)) {t u : ℕ} (h : t ≤ u) :
    roundsSeen key k rounds t ≤ roundsSeen key k rounds u := by
  induction rounds generalizing t u with
  | nil => exact Nat.le_refl _
  | cons round rest ih =>
    simp only [roundsSeen]
    by_cases hover : round.length ≤ t
    · rw [if_pos hover, if_pos (by omega)]
      exact Nat.succ_le_succ (ih (by omega))
    · rw [if_neg hover]
      by_cases hnone : latest key k (round.take t) = none
      · rw [if_pos hnone]
        exact Nat.zero_le _
      · rw [if_neg hnone]
        by_cases hlater : round.length ≤ u
        · rw [if_pos hlater]
          exact Nat.succ_le_succ (Nat.zero_le _)
        · have hfront : (round.take t).Sublist (round.take u) :=
            (List.take_prefix_take_left h).sublist
          have hstill : latest key k (round.take u) ≠ none := by
            intro hnew
            apply hnone
            rw [latest_eq_none_iff] at hnew ⊢
            exact fun a ha => hnew a (hfront.subset ha)
          simp [hlater, hstill]

theorem roundsSeen_le_length (key : A → K) (k : K) (rounds : List (List A)) (t : ℕ) :
    roundsSeen key k rounds t ≤ rounds.length := by
  induction rounds generalizing t with
  | nil => exact Nat.le_refl _
  | cons round rest ih =>
    have hrest := ih (t - round.length)
    simp only [roundsSeen, List.length_cons]
    split_ifs <;> omega

/-- The rounds that are over have been seen. -/
theorem length_le_roundsSeen (key : A → K) (k : K) (done during : List (List A)) {t : ℕ}
    (h : done.flatten.length ≤ t) : done.length ≤ roundsSeen key k (done ++ during) t := by
  induction done generalizing t with
  | nil => exact Nat.zero_le _
  | cons round done ih =>
    rw [List.flatten_cons, List.length_append] at h
    rw [List.cons_append, roundsSeen, if_pos (by omega), List.length_cons]
    exact Nat.succ_le_succ (ih (by omega))

end NodeMonitor.KeyedMaps
