import NodeMonitor.KeyedMaps
import Mathlib.Tactic.Common
import Mathlib.Algebra.Order.Ring.Nat
import Mathlib.Data.List.Nodup

/-!
Arrays of records in memory as C lays them out. The members of a record follow each other in
the order of their declaration, each at the next multiple of its alignment, and the records
of an array at multiples of their size; a packed declaration takes every alignment to be one.
What is stored in a member is loaded from it again, and the other members stay as they were.
-/

namespace NodeMonitor.StructLayouts

open KeyedMaps

/-- The size and the alignment of a member's type. -/
structure Field where
  size : ℕ
  align : ℕ

/-- Members aligned as their types demand. -/
def natural : Field → ℕ := Field.align

def packed : Field → ℕ := fun _ => 1

/-- The next multiple. -/
def roundUp (n a : ℕ) : ℕ := n + (a - n % a) % a

/-- Where a member begins if the members are laid out from a position on; behind the last
one, where they end. -/
def offset (align : Field → ℕ) (start : ℕ) : List Field → ℕ → ℕ
  | [], _ => start
  | f :: _, 0 => roundUp start (align f)
  | f :: rest, k + 1 => offset align (roundUp start (align f) + f.size) rest k

def fieldSize (fields : List Field) (k : ℕ) : ℕ := (fields[k]?.map Field.size).getD 0

/-- The largest alignment of a member. -/
def structAlign (align : Field → ℕ) (fields : List Field) : ℕ := (fields.map align).foldr max 1

/-- `sizeof`. -/
def structSize (align : Field → ℕ) (fields : List Field) : ℕ :=
  roundUp (offset align 0 fields fields.length) (structAlign align fields)

/-- Where a member of a record of an array begins. -/
def address (align : Field → ℕ) (fields : List Field) (row k : ℕ) : ℕ :=
  row * structSize align fields + offset align 0 fields k

/-! ### Members do not overlap -/

theorem le_roundUp (n a : ℕ) : n ≤ roundUp n a := Nat.le_add_right n _

theorem le_offset (align : Field → ℕ) (start : ℕ) (fields : List Field) (k : ℕ) :
    start ≤ offset align start fields k := by
  induction fields generalizing start k with
  | nil => simp [offset]
  | cons f rest ih =>
    have hround := le_roundUp start (align f)
    cases k with
    | zero => exact hround
    | succ k =>
      have hrest := ih (roundUp start (align f) + f.size) k
      simp only [offset]
      omega

/-- A member ends before the members behind it. -/
theorem offset_add_fieldSize_le (align : Field → ℕ) (start : ℕ) (fields : List Field) {k l : ℕ}
    (h : k < l) :
    offset align start fields k + fieldSize fields k ≤ offset align start fields l := by
  induction fields generalizing start k l with
  | nil => simp [offset, fieldSize]
  | cons f rest ih =>
    obtain ⟨l, rfl⟩ := Nat.exists_eq_add_of_lt h
    cases k with
    | zero =>
      simp only [Nat.zero_add, offset, fieldSize, List.getElem?_cons_zero, Option.map_some,
        Option.getD_some]
      exact le_offset align _ rest l
    | succ k =>
      rw [show k + 1 + l + 1 = (k + l + 1) + 1 by omega]
      simp only [offset, fieldSize, List.getElem?_cons_succ]
      exact ih _ (by omega)

theorem offset_add_fieldSize_le_structSize (align : Field → ℕ) {fields : List Field} {k : ℕ}
    (h : k < fields.length) :
    offset align 0 fields k + fieldSize fields k ≤ structSize align fields :=
  (offset_add_fieldSize_le align 0 fields h).trans (le_roundUp _ _)

/-- Different members of an array of records do not overlap. -/
theorem address_disjoint (align : Field → ℕ) {fields : List Field} {row other k l : ℕ}
    (hk : k < fields.length) (hl : l < fields.length) (hne : (row, k) ≠ (other, l)) :
    address align fields row k + fieldSize fields k ≤ address align fields other l ∨
      address align fields other l + fieldSize fields l ≤ address align fields row k := by
  have hkEnd := offset_add_fieldSize_le_structSize align hk
  have hlEnd := offset_add_fieldSize_le_structSize align hl
  unfold address
  rcases Nat.lt_trichotomy row other with hlt | heq | hgt
  · have hrows := Nat.mul_le_mul_right (structSize align fields) (Nat.succ_le_of_lt hlt)
    rw [Nat.succ_mul] at hrows
    left
    omega
  · subst heq
    rcases Nat.lt_trichotomy k l with hlt | heq | hgt
    · have hbehind := offset_add_fieldSize_le align 0 fields hlt
      left
      omega
    · exact absurd (by rw [heq]) hne
    · have hbehind := offset_add_fieldSize_le align 0 fields hgt
      right
      omega
  · have hrows := Nat.mul_le_mul_right (structSize align fields) (Nat.succ_le_of_lt hgt)
    rw [Nat.succ_mul] at hrows
    right
    omega

/-! ### Packed and natural layouts -/

/-- Every member laid out from a position on without gaps is aligned. -/
def aligned (start : ℕ) : List Field → Bool
  | [] => true
  | f :: rest => start % f.align = 0 && aligned (start + f.size) rest

/-- No member needs a gap before it, nor the record one behind it. -/
def unpadded (fields : List Field) : Bool :=
  aligned 0 fields && offset packed 0 fields fields.length % structAlign natural fields = 0

theorem roundUp_of_mod (n a : ℕ) (h : n % a = 0) : roundUp n a = n := by
  simp [roundUp, h]

@[simp]
theorem roundUp_one (n : ℕ) : roundUp n 1 = n := by
  simp [roundUp, Nat.mod_one]

theorem offset_natural (start : ℕ) (fields : List Field) (h : aligned start fields = true)
    (k : ℕ) : offset natural start fields k = offset packed start fields k := by
  induction fields generalizing start k with
  | nil => simp [offset]
  | cons f rest ih =>
    simp only [aligned, Bool.and_eq_true, decide_eq_true_eq] at h
    have hround : roundUp start (natural f) = start := roundUp_of_mod _ _ h.1
    cases k with
    | zero => simp [offset, hround, packed]
    | succ k =>
      simp only [offset, hround, packed, roundUp_one]
      exact ih _ h.2 k

theorem structAlign_packed (fields : List Field) : structAlign packed fields = 1 := by
  induction fields with
  | nil => rfl
  | cons f rest ih =>
    simp only [structAlign] at ih
    simp [structAlign, packed, ih]

/-- Without gaps a packed declaration is laid out as one that is not packed. -/
theorem address_natural {fields : List Field} (h : unpadded fields = true) (row k : ℕ) :
    structSize natural fields = structSize packed fields ∧
      address natural fields row k = address packed fields row k := by
  simp only [unpadded, Bool.and_eq_true, decide_eq_true_eq] at h
  have hoffset := offset_natural 0 fields h.1
  have hsize : structSize natural fields = structSize packed fields := by
    rw [structSize, structSize, structAlign_packed, hoffset, roundUp_one]
    exact roundUp_of_mod _ _ h.2
  exact ⟨hsize, by rw [address, address, hsize, hoffset]⟩

/-! ### Memory -/

abbrev Memory := ℕ → UInt8

/-- The bytes of a number, the least significant one first. -/
def byteOf (value j : ℕ) : UInt8 := UInt8.ofNat (value / 256 ^ j)

/-- The number in so many bytes. -/
def word (m : Memory) (start : ℕ) : ℕ → ℕ
  | 0 => 0
  | n + 1 => word m start n + 256 ^ n * (m (start + n)).toNat

def store (align : Field → ℕ) (fields : List Field) (m : Memory) (row k value : ℕ) : Memory :=
  fun a =>
    let start := address align fields row k
    if start ≤ a ∧ a < start + fieldSize fields k then byteOf value (a - start) else m a

def load (align : Field → ℕ) (fields : List Field) (m : Memory) (row k : ℕ) : ℕ :=
  word m (address align fields row k) (fieldSize fields k)

theorem word_congr {m m' : Memory} {start n : ℕ}
    (h : ∀ a, start ≤ a → a < start + n → m a = m' a) : word m start n = word m' start n := by
  induction n with
  | zero => rfl
  | succ n ih =>
    rw [word, word, ih (fun a hle hlt => h a hle (by omega)), h (start + n) (by omega) (by omega)]

theorem word_bytes (m : Memory) (start value n : ℕ)
    (h : ∀ j < n, m (start + j) = byteOf value j) : word m start n = value % 256 ^ n := by
  induction n with
  | zero => simp [word, Nat.mod_one]
  | succ n ih =>
    rw [word, ih (fun j hj => h j (by omega)), h n (by omega), Nat.mod_pow_succ, byteOf,
      UInt8.toNat_ofNat']

/-- What is stored in a member is loaded from it, up to the size of the member. -/
theorem load_store_self (align : Field → ℕ) (fields : List Field) (m : Memory)
    (row k value : ℕ) :
    load align fields (store align fields m row k value) row k =
      value % 256 ^ fieldSize fields k := by
  apply word_bytes
  intro j hj
  simp only [store]
  rw [if_pos (by omega), Nat.add_sub_cancel_left]

theorem load_store_other (align : Field → ℕ) {fields : List Field} (m : Memory)
    {row other k l : ℕ} (value : ℕ) (hk : k < fields.length) (hl : l < fields.length)
    (hne : (row, k) ≠ (other, l)) :
    load align fields (store align fields m other l value) row k = load align fields m row k := by
  apply word_congr
  intro a hle hlt
  have hdisjoint := address_disjoint align hk hl hne
  simp only [store]
  rw [if_neg (by omega)]

/-! ### Sequences of stores -/

structure Store where
  row : ℕ
  field : ℕ
  value : ℕ

def Store.target (s : Store) : ℕ × ℕ := (s.row, s.field)

/-- The memory after stores, from the first to the last. -/
def storeAll (align : Field → ℕ) (fields : List Field) (m : Memory) (stores : List Store) :
    Memory :=
  stores.foldl (fun m s => store align fields m s.row s.field s.value) m

/-- A member holds what was stored in it last. -/
theorem load_storeAll (align : Field → ℕ) {fields : List Field} (m : Memory)
    (stores : List Store) (hfields : ∀ s ∈ stores, s.field < fields.length) (row : ℕ) {k : ℕ}
    (hk : k < fields.length) :
    load align fields (storeAll align fields m stores) row k =
      ((latest Store.target (row, k) stores).map (fun s => s.value % 256 ^ fieldSize fields k)).getD
        (load align fields m row k) := by
  induction stores using List.reverseRecOn with
  | nil => rfl
  | append_singleton stores s ih =>
    have hbefore : ∀ s ∈ stores, s.field < fields.length := by
      intro s hs
      exact hfields s (List.mem_append_left _ hs)
    have hlast : s.field < fields.length := hfields s (by simp)
    rw [storeAll, List.foldl_append, List.foldl_cons, List.foldl_nil, ← storeAll, latest_concat]
    by_cases htarget : s.target = (row, k)
    · obtain ⟨rfl, rfl⟩ := Prod.mk.inj htarget
      rw [load_store_self, if_pos htarget]
      rfl
    · rw [load_store_other align _ _ hk hlast (Ne.symm htarget), ih hbefore, if_neg htarget]

theorem storeAll_append (align : Field → ℕ) (fields : List Field) (m : Memory)
    (left right : List Store) :
    storeAll align fields m (left ++ right) =
      storeAll align fields (storeAll align fields m left) right := by
  simp only [storeAll, List.foldl_append]

/-- Stores in successive members of a record. -/
def fill (row base : ℕ) : List ℕ → List Store
  | [] => []
  | value :: rest => ⟨row, base, value⟩ :: fill row (base + 1) rest

theorem mem_fill {row base : ℕ} {values : List ℕ} {s : Store} (h : s ∈ fill row base values) :
    s.row = row ∧ base ≤ s.field ∧ s.field < base + values.length := by
  induction values generalizing base with
  | nil => exact absurd h List.not_mem_nil
  | cons value rest ih =>
    rw [List.length_cons]
    rcases List.mem_cons.mp h with rfl | h
    · exact ⟨rfl, by simp⟩
    · obtain ⟨hrow, hle, hlt⟩ := ih h
      exact ⟨hrow, by omega, by omega⟩

theorem map_target_fill (row base : ℕ) (values : List ℕ) :
    (fill row base values).map Store.target =
      (List.range' base values.length).map (fun k => (row, k)) := by
  induction values generalizing base with
  | nil => rfl
  | cons value rest ih =>
    rw [fill, List.map_cons, ih, List.length_cons, List.range'_succ, List.map_cons]
    rfl

theorem nodup_map_target_fill (row base : ℕ) (values : List ℕ) :
    ((fill row base values).map Store.target).Nodup := by
  rw [map_target_fill]
  exact (List.nodup_range' 1).map (fun k l h => (Prod.mk.inj h).2)

/-- Every member filled holds its value, the others what they held before. -/
theorem load_fill (align : Field → ℕ) {fields : List Field} (m : Memory) {row base k : ℕ}
    (values : List ℕ) (hk : k < fields.length) (hfit : base + values.length ≤ fields.length) :
    load align fields (storeAll align fields m (fill row base values)) row k =
      if base ≤ k ∧ k < base + values.length then
        values.getD (k - base) 0 % 256 ^ fieldSize fields k
      else load align fields m row k := by
  induction values generalizing base m with
  | nil =>
    rw [if_neg (by simp)]
    rfl
  | cons value rest ih =>
    rw [List.length_cons] at hfit ⊢
    rw [fill, storeAll, List.foldl_cons, ← storeAll, ih _ (by omega)]
    by_cases hkb : k = base
    · subst hkb
      rw [if_neg (by omega), if_pos (by omega), load_store_self, Nat.sub_self,
        List.getD_cons_zero]
    · have hne : (row, k) ≠ (row, base) := fun h => hkb (Prod.mk.inj h).2
      rw [load_store_other align m value hk (by omega) hne]
      by_cases hin : base + 1 ≤ k ∧ k < base + 1 + rest.length
      · rw [if_pos hin, if_pos (by omega), show k - base = (k - (base + 1)) + 1 by omega,
          List.getD_cons_succ]
      · rw [if_neg hin, if_neg (by omega)]

/-- A loop over the records of an array, each of which is stored to in its own turn. -/
theorem load_rows (align : Field → ℕ) {fields : List Field} (m : Memory) (n : ℕ)
    (body : ℕ → List Store)
    (hbody : ∀ row, ∀ s ∈ body row, s.row = row ∧ s.field < fields.length) (row : ℕ) {k : ℕ}
    (hk : k < fields.length) :
    load align fields (storeAll align fields m ((List.range n).flatMap body)) row k =
      if row < n then load align fields (storeAll align fields m (body row)) row k
      else load align fields m row k := by
  induction n with
  | zero => rfl
  | succ n ih =>
    have hfields : ∀ row, ∀ s ∈ body row, s.field < fields.length :=
      fun row s hs => (hbody row s hs).2
    rw [List.range_succ, List.flatMap_append, List.flatMap_singleton, storeAll_append,
      load_storeAll align _ (body n) (hfields n) row hk, ih]
    by_cases hrow : row = n
    · subst hrow
      rw [if_neg (by omega), if_pos (by omega), load_storeAll align m _ (hfields row) row hk]
    · have hnone : latest Store.target (row, k) (body n) = none := by
        rw [latest_eq_none_iff]
        intro s hs htarget
        exact hrow ((Prod.mk.inj htarget).1.symm.trans (hbody n s hs).1)
      rw [hnone, Option.map_none, Option.getD_none]
      by_cases hlt : row < n
      · rw [if_pos hlt, if_pos (by omega)]
      · rw [if_neg hlt, if_neg (by omega)]

end NodeMonitor.StructLayouts
