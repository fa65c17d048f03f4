import NodeMonitor.KeyedMaps

/-!
A memory written through one placement of offsets and read through another. Writing
through an injective placement is read back through the same one; a placement that
reads back every single write places every offset where it was written.
-/

namespace NodeMonitor.MemoryViews

open KeyedMaps

variable {O L B : Type*} [DecidableEq O] [DecidableEq L]

/-- One write for every element of a history, in order. -/
def writeAll (place : O → L) (m : L → B) (writes : List (O × B)) : L → B :=
  writes.foldl (fun m w => Function.update m (place w.1) w.2) m

/-- The byte last written at an offset, `initial` before the first write. -/
def lastWritten (initial : B) (writes : List (O × B)) (o : O) : B :=
  ((latest Prod.fst o writes).map Prod.snd).getD initial

omit [DecidableEq O] in
theorem writeAll_concat (place : O → L) (m : L → B) (writes : List (O × B)) (w : O × B) :
    writeAll place m (writes ++ [w]) =
      Function.update (writeAll place m writes) (place w.1) w.2 := by
  simp [writeAll, List.foldl_append]

/-- What was written last at an offset is read back. -/
theorem writeAll_apply_place {place : O → L} (hinjective : Function.Injective place) (m : L → B)
    (writes : List (O × B)) (o : O) :
    writeAll place m writes (place o) = lastWritten (m (place o)) writes o := by
  induction writes using List.reverseRecOn with
  | nil => rfl
  | append_singleton writes w ih =>
    rw [writeAll_concat, lastWritten, latest_concat]
    by_cases h : w.1 = o
    · subst o
      simp
    · have hplace : place o ≠ place w.1 := fun heq => h (hinjective heq).symm
      rw [Function.update_of_ne hplace, ih, lastWritten, if_neg h]

omit [DecidableEq O] in
/-- The rest of the memory stays as it was. -/
theorem writeAll_apply_of_ne {place : O → L} (m : L → B) (writes : List (O × B)) {l : L}
    (hne : ∀ o, l ≠ place o) : writeAll place m writes l = m l := by
  induction writes using List.reverseRecOn with
  | nil => rfl
  | append_singleton writes w ih =>
    rw [writeAll_concat, Function.update_of_ne (hne w.1), ih]

omit [DecidableEq O] in
/-- A write that shows at a location was made there. -/
theorem eq_place_of_writeAll (place : O → L) (m : L → B) (o : O) {b : B} {l : L}
    (hread : writeAll place m [(o, b)] l = b) (hbefore : m l ≠ b) : l = place o := by
  by_contra hne
  have hsame : writeAll place m [(o, b)] l = m l := by
    simp [writeAll, hne]
  exact hbefore (hsame.symm.trans hread)

end NodeMonitor.MemoryViews
