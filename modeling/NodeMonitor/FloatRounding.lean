import Mathlib.Algebra.BigOperators.Group.List.Basic
import Mathlib.Data.Nat.Cast.Order.Basic
import Mathlib.Tactic.Linarith
import Mathlib.Tactic.Ring

/-!
Natural numbers rounded to `p` significant bits, to the nearest and in a tie to the
even one, as in the conversion of an integer to a floating-point number and in sums
of such numbers. The numbers that rounding leaves alone are those of `p` bits times a
power of two; a sum rounded after every addition stays near the exact sum while that
is small against the last bit kept.
-/

namespace NodeMonitor.FloatRounding

/-- The nearest multiple of `u`, in units of `u`. -/
def nearest (u n : ℕ) : ℕ :=
  if 2 * (n % u) < u then n / u
  else if u < 2 * (n % u) then n / u + 1
  else n / u + n / u % 2

/-- The number of bits that do not fit. -/
def dropped (p n : ℕ) : ℕ := n.log2 + 1 - p

def rnd (p n : ℕ) : ℕ := nearest (2 ^ dropped p n) n * 2 ^ dropped p n

/-- Between two neighbours, and in the middle of them. -/
example : (rnd 24 33554433, rnd 24 33554435, rnd 24 33554434, rnd 24 33554438) =
    (33554432, 33554436, 33554432, 33554440) := by decide

/-- The numbers of `p` significant bits. -/
def Representable (p n : ℕ) : Prop := ∃ m e, m < 2 ^ p ∧ n = m * 2 ^ e

/-- The terms are added one after the other, with rounding after every addition. -/
def addAll (p s : ℕ) (terms : List ℕ) : ℕ := terms.foldl (fun s c => rnd p (s + c)) s

/-! ### The nearest multiple -/

theorem nearest_bounds (u n : ℕ) : n / u ≤ nearest u n ∧ nearest u n ≤ n / u + 1 := by
  unfold nearest
  split
  · omega
  · split <;> omega

/-- The distance is at most half a unit. -/
theorem nearest_error {u : ℕ} (hu : 0 < u) (n : ℕ) :
    2 * n ≤ 2 * (nearest u n * u) + u ∧ 2 * (nearest u n * u) ≤ 2 * n + u := by
  have hsplit := Nat.div_add_mod' n u
  have hrest := Nat.mod_lt n hu
  unfold nearest
  split
  · omega
  · split
    · rw [Nat.add_mul]
      omega
    · rcases Nat.mod_two_eq_zero_or_one (n / u) with heven | hodd
      · rw [heven, Nat.add_zero]
        omega
      · rw [hodd, Nat.add_mul]
        omega

theorem nearest_mono (u : ℕ) {m n : ℕ} (h : m ≤ n) : nearest u m ≤ nearest u n := by
  rcases (Nat.div_le_div_right h : m / u ≤ n / u).eq_or_lt with heq | hlt
  · have hm := Nat.div_add_mod' m u
    have hn := Nat.div_add_mod' n u
    rw [heq] at hm
    unfold nearest
    rw [heq]
    split_ifs <;> omega
  · have hbelow := (nearest_bounds u m).2
    have habove := (nearest_bounds u n).1
    omega

theorem nearest_mul {u : ℕ} (hu : 0 < u) (k : ℕ) : nearest u (k * u) = k := by
  rw [nearest, Nat.mul_mod_left, Nat.mul_div_cancel _ hu, if_pos (by omega)]

/-! ### Rounding -/

theorem lt_two_pow_dropped (p n : ℕ) : n < 2 ^ (p + dropped p n) := by
  have hlog := Nat.lt_log2_self (n := n)
  refine hlog.trans_le (Nat.pow_le_pow_right (by norm_num) ?_)
  unfold dropped
  omega

section Precision

variable {p : ℕ} (hp : 0 < p)

include hp

theorem dropped_le_of_lt {n e : ℕ} (h : n < 2 ^ (p + e)) : dropped p n ≤ e := by
  unfold dropped
  rcases Nat.eq_zero_or_pos n with rfl | hpos
  · rw [Nat.log2_zero]
    omega
  · have hlog := (Nat.log2_lt hpos.ne').mpr h
    omega

/-- A number with bits dropped has its leading bit at that place. -/
theorem two_pow_le_of_dropped {n : ℕ} (h : 0 < dropped p n) :
    2 ^ (p + dropped p n - 1) ≤ n := by
  by_contra hlt
  have hsmall : n < 2 ^ (p + (dropped p n - 1)) := by
    rw [← Nat.add_sub_assoc h]
    exact not_le.mp hlt
  have hle := dropped_le_of_lt hp hsmall
  omega

theorem dropped_mono {m n : ℕ} (h : m ≤ n) : dropped p m ≤ dropped p n :=
  dropped_le_of_lt hp (h.trans_lt (lt_two_pow_dropped p n))

omit hp in
theorem rnd_of_dvd {n : ℕ} (h : 2 ^ dropped p n ∣ n) : rnd p n = n := by
  obtain ⟨k, hk⟩ := h
  have hnearest : nearest (2 ^ dropped p n) n = k := by
    nth_rewrite 2 [hk]
    rw [Nat.mul_comm]
    exact nearest_mul (by positivity) k
  rw [rnd, hnearest, Nat.mul_comm]
  exact hk.symm

/-- Numbers of at most `p` bits stay as they are. -/
theorem rnd_of_lt {n : ℕ} (h : n < 2 ^ p) : rnd p n = n := by
  have hzero : dropped p n = 0 := Nat.le_zero.mp (dropped_le_of_lt hp h)
  apply rnd_of_dvd
  rw [hzero, pow_zero]
  exact one_dvd n

theorem rnd_two_pow (k : ℕ) : rnd p (2 ^ k) = 2 ^ k := by
  apply rnd_of_dvd
  apply pow_dvd_pow
  rw [dropped, Nat.log2_two_pow]
  omega

omit hp in
theorem rnd_le_two_pow (n : ℕ) : rnd p n ≤ 2 ^ (p + dropped p n) := by
  have hle : n ≤ 2 ^ p * 2 ^ dropped p n := by
    rw [← pow_add]
    exact (lt_two_pow_dropped p n).le
  have hnearest := nearest_mono (2 ^ dropped p n) hle
  rw [nearest_mul (by positivity)] at hnearest
  rw [rnd, pow_add]
  exact Nat.mul_le_mul_right _ hnearest

/-- Rounding leaves a number as it is exactly if its significant bits fit. -/
theorem rnd_eq_self_iff (n : ℕ) : rnd p n = n ↔ Representable p n := by
  constructor
  · intro h
    have hle : nearest (2 ^ dropped p n) n ≤ 2 ^ p := by
      have hpow := rnd_le_two_pow (p := p) n
      rw [rnd, pow_add] at hpow
      exact Nat.le_of_mul_le_mul_right hpow (by positivity)
    rcases hle.lt_or_eq with hlt | heq
    · exact ⟨_, _, hlt, h.symm⟩
    · -- the significand was rounded up to a power of two
      refine ⟨1, p + dropped p n, Nat.one_lt_two_pow hp.ne', ?_⟩
      rw [one_mul, pow_add, ← heq]
      exact h.symm
  · rintro ⟨m, e, hm, rfl⟩
    apply rnd_of_dvd
    have hlt : m * 2 ^ e < 2 ^ (p + e) := by
      rw [pow_add]
      exact Nat.mul_lt_mul_of_pos_right hm (by positivity)
    exact (pow_dvd_pow 2 (dropped_le_of_lt hp hlt)).mul_left m

theorem two_pow_le_rnd {n : ℕ} (h : 0 < dropped p n) : 2 ^ (p + dropped p n - 1) ≤ rnd p n := by
  have hsplit : 2 ^ (p + dropped p n - 1) = 2 ^ (p - 1) * 2 ^ dropped p n := by
    rw [← pow_add]
    congr 1
    omega
  have hle := two_pow_le_of_dropped hp h
  rw [hsplit] at hle ⊢
  have hnearest := nearest_mono (2 ^ dropped p n) hle
  rw [nearest_mul (by positivity)] at hnearest
  exact Nat.mul_le_mul_right _ hnearest

theorem rnd_mono : Monotone (rnd p) := by
  intro m n h
  rcases (dropped_mono hp h).eq_or_lt with heq | hlt
  · rw [rnd, rnd, heq]
    exact Nat.mul_le_mul_right _ (nearest_mono _ h)
  · -- a power of two lies between numbers that drop different numbers of bits
    calc
      rnd p m ≤ 2 ^ (p + dropped p m) := rnd_le_two_pow m
      _ ≤ 2 ^ (p + dropped p n - 1) := Nat.pow_le_pow_right (by norm_num) (by omega)
      _ ≤ rnd p n := two_pow_le_rnd hp (by omega)

/-- The error is at most half of the last bit kept by the numbers below a power of two. -/
theorem rnd_error {n e : ℕ} (h : n < 2 ^ (p + e + 1)) :
    n ≤ rnd p n + 2 ^ e ∧ rnd p n ≤ n + 2 ^ e := by
  have hdropped : dropped p n ≤ e + 1 := dropped_le_of_lt hp h
  have hunit : 2 ^ dropped p n ≤ 2 * 2 ^ e := by
    rw [← pow_succ']
    exact Nat.pow_le_pow_right (by norm_num) hdropped
  obtain ⟨hbelow, habove⟩ := nearest_error (u := 2 ^ dropped p n) (by positivity) n
  rw [← rnd] at hbelow habove
  omega

/-- The error is at most one unit in `2 ^ p`. -/
theorem rnd_relative (n : ℕ) :
    2 ^ p * n ≤ 2 ^ p * rnd p n + n ∧ 2 ^ p * rnd p n ≤ 2 ^ p * n + n := by
  rcases Nat.eq_zero_or_pos (dropped p n) with hzero | hpos
  · have hexact : rnd p n = n := by
      apply rnd_of_dvd
      rw [hzero, pow_zero]
      exact one_dvd n
    rw [hexact]
    omega
  · have hlead : 2 ^ p * 2 ^ dropped p n ≤ 2 * n := by
      have hle := two_pow_le_of_dropped hp hpos
      calc
        2 ^ p * 2 ^ dropped p n = 2 * 2 ^ (p + dropped p n - 1) := by
          rw [← pow_add, ← pow_succ']
          congr 1
          omega
        _ ≤ 2 * n := Nat.mul_le_mul_left 2 hle
    obtain ⟨hbelow, habove⟩ := nearest_error (u := 2 ^ dropped p n) (by positivity) n
    rw [← rnd] at hbelow habove
    have hbelow' := Nat.mul_le_mul_left (2 ^ p) hbelow
    have habove' := Nat.mul_le_mul_left (2 ^ p) habove
    constructor
    · linarith
    · linarith

/-! ### Sums -/

omit hp in
theorem addAll_cons (s c : ℕ) (rest : List ℕ) :
    addAll p s (c :: rest) = addAll p (rnd p (s + c)) rest := rfl

theorem addAll_mono {s t : ℕ} {terms more : List ℕ} (hstart : s ≤ t)
    (hterms : List.Forall₂ (· ≤ ·) terms more) : addAll p s terms ≤ addAll p t more := by
  induction hterms generalizing s t with
  | nil => exact hstart
  | cons hle _ ih => exact ih (rnd_mono hp (Nat.add_le_add hstart hle))

/-- Every addition to a small sum adds at most half of the last bit. -/
theorem addAll_le (e : ℕ) (s : ℕ) (terms : List ℕ)
    (h : s + terms.sum + terms.length * 2 ^ e < 2 ^ (p + e + 1)) :
    addAll p s terms ≤ s + terms.sum + terms.length * 2 ^ e := by
  have hunit : 0 < 2 ^ e := by positivity
  induction terms generalizing s with
  | nil => simp [addAll]
  | cons c rest ih =>
    rw [List.sum_cons, List.length_cons, Nat.add_mul, one_mul] at h ⊢
    have hrnd := (rnd_error hp (n := s + c) (e := e) (by omega)).2
    have hrest := ih (rnd p (s + c)) (by omega)
    rw [addAll_cons]
    omega

/-- It also takes away at most half of the last bit, until the sum is no longer small. -/
theorem min_le_addAll (e : ℕ) (s : ℕ) (terms : List ℕ) :
    min (s + terms.sum) (2 ^ (p + e + 1)) ≤ addAll p s terms + terms.length * 2 ^ e := by
  have hunit : 0 < 2 ^ e := by positivity
  induction terms generalizing s with
  | nil => simp [addAll]
  | cons c rest ih =>
    rw [List.sum_cons, List.length_cons, Nat.add_mul, one_mul, addAll_cons]
    have hrest := ih (rnd p (s + c))
    rcases lt_or_ge (s + c) (2 ^ (p + e + 1)) with hsmall | hlarge
    · have hrnd := (rnd_error hp hsmall).1
      omega
    · have hrnd : 2 ^ (p + e + 1) ≤ rnd p (s + c) := by
        rw [← rnd_two_pow hp (p + e + 1)]
        exact rnd_mono hp hlarge
      omega

/-- The rounded terms together are off by at most one unit in `2 ^ p`. -/
theorem sum_rnd_relative (terms : List ℕ) :
    2 ^ p * terms.sum ≤ 2 ^ p * (terms.map (rnd p)).sum + terms.sum ∧
      2 ^ p * (terms.map (rnd p)).sum ≤ 2 ^ p * terms.sum + terms.sum := by
  induction terms with
  | nil => simp
  | cons c rest ih =>
    obtain ⟨hbelow, habove⟩ := rnd_relative hp c
    simp only [List.map_cons, List.sum_cons, Nat.mul_add]
    omega

end Precision

/-! ### `float` -/

/-- The significant bits of a `float`. -/
def significandBits : ℕ := 24

theorem significandBits_pos : 0 < significandBits := by decide

/-- A 64-bit counter as a `float`. -/
def toFloat (counter : UInt64) : ℕ := rnd significandBits counter.toNat

theorem toFloat_mono {m n : UInt64} (h : m.toNat ≤ n.toNat) : toFloat m ≤ toFloat n :=
  rnd_mono significandBits_pos h

theorem toFloat_eq_iff (counter : UInt64) :
    toFloat counter = counter.toNat ↔ Representable significandBits counter.toNat :=
  rnd_eq_self_iff significandBits_pos counter.toNat

/-- The first number that does not fit. -/
example : toFloat 16777217 = 16777216 := by decide

end NodeMonitor.FloatRounding
