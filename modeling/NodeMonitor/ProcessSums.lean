import Mathlib.Algebra.BigOperators.Group.Finset.Piecewise
import Mathlib.Data.Fintype.BigOperators
import Mathlib.Data.UInt

/-!
Sums over the processes of a concurrent system. A step of one process changes one
summand; sums of machine words are sums of naturals modulo the word size.
-/

namespace NodeMonitor.ProcessSums

open scoped UInt64.CommRing

variable {ι P M : Type*}

/-- When only one process moves, the sum changes by that process's summands. -/
theorem sum_update [AddCommMonoid M] [Fintype ι] [DecidableEq ι] (f : ι → P → M) (pc : ι → P)
    (i : ι) (p : P) :
    ∑ j, f j (Function.update pc i p j) + f i (pc i) = ∑ j, f j (pc j) + f i p := by
  have hother : ∀ j ∈ Finset.univ.erase i, f j (Function.update pc i p j) = f j (pc j) := by
    intro j hj
    rw [Function.update_of_ne (Finset.ne_of_mem_erase hj)]
  rw [← Finset.add_sum_erase _ _ (Finset.mem_univ i),
    ← Finset.add_sum_erase _ (fun j => f j (pc j)) (Finset.mem_univ i),
    Finset.sum_congr rfl hother, Function.update_self]
  ac_rfl

theorem sum_update_of_eq [AddCommMonoid M] [Fintype ι] [DecidableEq ι] (f : ι → P → M)
    (pc : ι → P) (i : ι) (p : P) (h : f i p = f i (pc i)) :
    ∑ j, f j (Function.update pc i p j) = ∑ j, f j (pc j) := by
  apply Finset.sum_congr rfl
  intro j _
  by_cases hj : j = i
  · subst j
    rw [Function.update_self, h]
  · rw [Function.update_of_ne hj]

theorem toNat_sum (s : Finset ι) (f : ι → UInt64) :
    (∑ i ∈ s, f i).toNat = (∑ i ∈ s, (f i).toNat) % 2 ^ 64 := by
  classical
  induction s using Finset.induction_on with
  | empty => rfl
  | insert i s hi ih =>
    rw [Finset.sum_insert hi, Finset.sum_insert hi, UInt64.toNat_add, ih]
    omega

theorem toNat_sum_ite (s : Finset ι) (p : ι → Prop) [DecidablePred p] (f : ι → UInt64) :
    (∑ i ∈ s, if p i then f i else 0).toNat =
      (∑ i ∈ s.filter p, (f i).toNat) % 2 ^ 64 := by
  rw [← Finset.sum_filter, toNat_sum]

end NodeMonitor.ProcessSums
