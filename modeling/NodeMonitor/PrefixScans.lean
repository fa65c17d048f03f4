import Mathlib.Data.List.FinRange
import Mathlib.Data.List.Pairwise
import Mathlib.Data.List.TakeWhile

/-!
Scans of a list that stop at the first element failing a test, compared with the
full selection of the elements that pass it.
-/

namespace NodeMonitor.PrefixScans

variable {α : Type*}

/-- Stopping and selecting agree when nothing selected follows something dropped. -/
theorem takeWhile_eq_filter_iff (p : α → Bool) (l : List α) :
    l.takeWhile p = l.filter p ↔ l.Pairwise (fun a b => p b = true → p a = true) := by
  induction l with
  | nil => simp
  | cons a l ih =>
    rw [List.pairwise_cons]
    by_cases ha : p a = true
    · rw [List.takeWhile_cons_of_pos ha, List.filter_cons_of_pos ha, List.cons.injEq, ih]
      simp [ha]
    · rw [List.takeWhile_cons_of_neg ha, List.filter_cons_of_neg ha]
      constructor
      · intro h
        have hnone : ∀ b ∈ l, ¬ p b = true := List.filter_eq_nil_iff.mp h.symm
        refine ⟨fun b hb hpb => absurd hpb (hnone b hb), ?_⟩
        exact List.pairwise_of_forall_mem_list (fun a _ b hb hpb => absurd hpb (hnone b hb))
      · intro h
        exact (List.filter_eq_nil_iff.mpr (fun b hb hpb => ha (h.1 b hb hpb))).symm

theorem takeWhile_sublist_filter (p : α → Bool) (l : List α) :
    (l.takeWhile p).Sublist (l.filter p) := by
  have hkept : (l.takeWhile p).filter p = l.takeWhile p :=
    List.filter_eq_self.mpr (fun a ha => List.mem_takeWhile_imp ha)
  rw [← hkept]
  exact (List.takeWhile_sublist p).filter p

/-- Over an initial segment of the naturals the two agree for downward closed tests. -/
theorem takeWhile_finRange_iff {n : ℕ} (p : Fin n → Bool) :
    (List.finRange n).takeWhile p = (List.finRange n).filter p ↔
      ∀ low high : Fin n, low < high → p high = true → p low = true := by
  rw [takeWhile_eq_filter_iff, ← List.ofFn_id, List.pairwise_ofFn]
  constructor
  · intro h low high hlt
    exact h hlt
  · intro h low high hlt
    exact h low high hlt

/-- A scan of an increasing list keeps what has nothing failing the test at or below it. -/
theorem mem_takeWhile_iff_of_pairwise [LinearOrder α] (p : α → Bool) {l : List α}
    (hsorted : l.Pairwise (· < ·)) (a : α) :
    a ∈ l.takeWhile p ↔ a ∈ l ∧ ∀ b ∈ l, b ≤ a → p b = true := by
  induction l with
  | nil => simp
  | cons c l ih =>
    obtain ⟨hfirst, hrest⟩ := List.pairwise_cons.mp hsorted
    by_cases hc : p c = true
    · rw [List.takeWhile_cons_of_pos hc, List.mem_cons, List.mem_cons, ih hrest]
      constructor
      · rintro (rfl | ⟨ha, hbelow⟩)
        · refine ⟨Or.inl rfl, List.forall_mem_cons.mpr ⟨fun _ => hc, ?_⟩⟩
          intro b hb hle
          exact absurd (hfirst b hb) (not_lt.mpr hle)
        · exact ⟨Or.inr ha, List.forall_mem_cons.mpr ⟨fun _ => hc, hbelow⟩⟩
      · rintro ⟨ha, hbelow⟩
        exact ha.imp_right (fun ha => ⟨ha, (List.forall_mem_cons.mp hbelow).2⟩)
    · rw [List.takeWhile_cons_of_neg hc]
      constructor
      · intro ha
        exact absurd ha List.not_mem_nil
      · rintro ⟨ha, hbelow⟩
        have hle : c ≤ a := by
          rcases List.mem_cons.mp ha with rfl | ha
          · exact le_rfl
          · exact (hfirst a ha).le
        exact absurd (hbelow c (List.mem_cons_self ..) hle) hc

theorem mem_takeWhile_finRange_iff {n : ℕ} (p : Fin n → Bool) (i : Fin n) :
    i ∈ (List.finRange n).takeWhile p ↔ ∀ low ≤ i, p low = true := by
  rw [mem_takeWhile_iff_of_pairwise p (List.pairwise_lt_finRange n)]
  simp

/-- A scan that stops at the second element keeps the first. -/
theorem takeWhile_ofFn_one {n : ℕ} (f : Fin (n + 2) → α) (p : α → Bool)
    (hfirst : p (f 0) = true) (hsecond : p (f 1) = false) :
    (List.ofFn f).takeWhile p = [f 0] := by
  rw [List.ofFn_succ, List.takeWhile_cons_of_pos hfirst, List.ofFn_succ,
    List.takeWhile_cons_of_neg]
  simpa using hsecond

end NodeMonitor.PrefixScans
