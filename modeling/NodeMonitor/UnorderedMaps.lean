import NodeMonitor.KeyedMaps

/-!
Hash containers with an unspecified iteration order. The interface fixes the
contents of the container and says of the first element only that it is one of
them, determined by the container's state; two states with equal contents may
begin with different elements. An insertion-ordered list is one realization.
-/

namespace NodeMonitor.UnorderedMaps

open KeyedMaps

variable {K V : Type} [DecidableEq K]

/-- A container state with its contents, and laws tying the operations to them. -/
structure UnorderedMap (K V : Type) [DecidableEq K] where
  State : Type
  clear : State
  find : State → KeyedMap K V
  set : State → K → V → State
  first : State → Option (K × V)
  find_clear : find clear = empty
  find_set : ∀ s k v, find (set s k v) = assign (find s) k v
  first_find : ∀ s k v, first s = some (k, v) → find s k = some v
  first_none : ∀ s, first s = none → find s = empty

namespace UnorderedMap

/-- After any sequence of assignments the contents are those of the history. -/
theorem find_foldl_set {A : Type*} (U : UnorderedMap K V) (key : A → K) (value : A → V)
    (s : U.State) (history : List A) :
    U.find (history.foldl (fun s a => U.set s (key a) (value a)) s) =
      assignAll key value (U.find s) history := by
  induction history generalizing s with
  | nil => rfl
  | cons a rest ih =>
    rw [List.foldl_cons, ih, U.find_set]
    rfl

theorem exists_first (U : UnorderedMap K V) (s : U.State) (k : K)
    (h : (U.find s k).isSome) : ∃ l v, U.first s = some (l, v) := by
  cases hfirst : U.first s with
  | none =>
    rw [U.first_none s hfirst] at h
    simp at h
  | some entry => exact ⟨entry.1, entry.2, rfl⟩

end UnorderedMap

/-- Overwrite a present key in place; a new key goes to the front. -/
def setEntry (entries : List (K × V)) (k : K) (v : V) : List (K × V) :=
  if entries.any (fun entry => entry.1 = k) then
    entries.map (fun entry => if entry.1 = k then (k, v) else entry)
  else (k, v) :: entries

def findEntry (entries : List (K × V)) : KeyedMap K V :=
  fun k => (entries.find? (fun entry => entry.1 = k)).map Prod.snd

theorem findEntry_map (entries : List (K × V)) (k l : K) (v : V) :
    findEntry (entries.map (fun entry => if entry.1 = k then (k, v) else entry)) l =
      if l = k then (findEntry entries l).map (fun _ => v) else findEntry entries l := by
  induction entries with
  | nil => simp [findEntry]
  | cons entry rest ih =>
    unfold findEntry at ih ⊢
    by_cases hk : entry.1 = k
    · by_cases hl : l = k
      · subst hl
        simp [hk]
      · have hkl : ¬ k = l := fun h => hl h.symm
        simpa [hk, hkl, hl] using ih
    · by_cases hl : entry.1 = l
      · have hlk : ¬ l = k := fun h => hk (hl.trans h)
        simp [hl, hlk]
      · simpa [hk, hl] using ih

theorem findEntry_setEntry (entries : List (K × V)) (k : K) (v : V) :
    findEntry (setEntry entries k v) = assign (findEntry entries) k v := by
  funext l
  rw [assign_apply]
  unfold setEntry
  split
  · rename_i h
    rw [findEntry_map]
    by_cases hl : l = k
    · obtain ⟨entry, hmem, hkey⟩ := List.any_eq_true.mp h
      have hsome : (findEntry entries k).isSome := by
        simp only [findEntry, Option.isSome_map, List.find?_isSome]
        exact ⟨entry, hmem, hkey⟩
      obtain ⟨w, hw⟩ := Option.isSome_iff_exists.mp hsome
      simp [hl, hw]
    · simp [hl]
  · by_cases hl : l = k
    · simp [findEntry, hl]
    · have hkl : ¬ k = l := fun h => hl h.symm
      simp [findEntry, hkl, hl]

/-- The list realization, in order of last insertion. -/
def listMap (K V : Type) [DecidableEq K] : UnorderedMap K V where
  State := List (K × V)
  clear := []
  find := findEntry
  set := setEntry
  first := List.head?
  find_clear := rfl
  find_set := findEntry_setEntry
  first_find entries k v h := by
    cases entries with
    | nil => simp at h
    | cons entry rest =>
      have hentry : entry = (k, v) := Option.some.inj h
      simp [findEntry, hentry]
  first_none entries h := by
    have hnil : entries = [] := List.head?_eq_none_iff.mp h
    rw [hnil]
    rfl

/-! ### Assignment in two parts -/

/-- `m[k] = v` as the reference `m[k]`, for which a missing element is inserted, and the
assignment through it. -/
structure Subscript (U : UnorderedMap K V) where
  slot : U.State → K → U.State
  store : U.State → K → V → U.State
  store_slot : ∀ s k v, store (slot s k) k v = U.set s k v

def slotEntry (entries : List (K × V)) (k : K) (missing : V) : List (K × V) :=
  if entries.any (fun entry => entry.1 = k) then entries else (k, missing) :: entries

def storeEntry (entries : List (K × V)) (k : K) (v : V) : List (K × V) :=
  entries.map (fun entry => if entry.1 = k then (k, v) else entry)

theorem storeEntry_slotEntry (entries : List (K × V)) (k : K) (missing v : V) :
    storeEntry (slotEntry entries k missing) k v = setEntry entries k v := by
  unfold slotEntry setEntry
  split
  · rfl
  · rename_i h
    have hother : storeEntry entries k v = entries := by
      unfold storeEntry
      rw [List.map_congr_left (g := id), List.map_id]
      intro entry hmem
      have hne : ¬ entry.1 = k := by
        intro hk
        exact h (List.any_eq_true.mpr ⟨entry, hmem, by simpa using hk⟩)
      rw [if_neg hne, id]
    simpa [storeEntry] using hother

/-- In the list realization a missing element is inserted at the front. -/
def listSubscript (missing : V) : Subscript (listMap K V) where
  slot entries k := slotEntry entries k missing
  store := storeEntry
  store_slot entries k v := storeEntry_slotEntry entries k missing v

end NodeMonitor.UnorderedMaps
