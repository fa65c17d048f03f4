import Mathlib.Data.List.OfFn
import Mathlib.Data.List.TakeWhile
import Mathlib.Data.List.GetD
import Mathlib.Tactic.Common

/-!
Fixed-size character arrays read as strings up to the first NUL. Printing into an
array truncates the text to leave room for the NUL and keeps the bytes behind it.
-/

namespace NodeMonitor.CharBuffers

abbrev CharBuffer (n : ℕ) := Fin n → Char

def nul : Char := '\x00'

def chars {n : ℕ} (b : CharBuffer n) : List Char := (List.ofFn b).takeWhile (fun c => c ≠ nul)

/-- The string the array holds. -/
def cString {n : ℕ} (b : CharBuffer n) : String := String.ofList (chars b)

/-- `snprintf` of a text into an array of `n` characters. -/
def snprintf {n : ℕ} (b : CharBuffer n) (text : List Char) : CharBuffer n := fun i =>
  let stop := min text.length (n - 1)
  if i.val < stop then text.getD i.val nul else if i.val = stop then nul else b i

/-- `b[0] = '\0'`, which leaves the rest of the array as it was. -/
def clear {n : ℕ} (b : CharBuffer (n + 1)) : CharBuffer (n + 1) := Function.update b 0 nul

theorem chars_clear {n : ℕ} (b : CharBuffer (n + 1)) : chars (clear b) = [] := by
  simp [chars, clear, List.ofFn_succ]

theorem cString_clear {n : ℕ} (b : CharBuffer (n + 1)) : cString (clear b) = "" := by
  rw [cString, chars_clear]

/-- The array holds the empty string exactly when it begins with a NUL. -/
theorem cString_eq_empty_iff {n : ℕ} (b : CharBuffer (n + 1)) : cString b = "" ↔ b 0 = nul := by
  have hempty : cString b = "" ↔ chars b = [] := by
    constructor
    · intro h
      exact String.ofList_injective h
    · intro h
      rw [cString, h]
  rw [hempty, chars, List.ofFn_succ]
  by_cases h : b 0 = nul
  · simp [h]
  · simp [h]

/-- A text that fits is read back. -/
theorem chars_snprintf {n : ℕ} (b : CharBuffer n) (text : List Char) (hfits : text.length < n)
    (hnul : nul ∉ text) : chars (snprintf b text) = text := by
  have hstop : min text.length (n - 1) = text.length := by omega
  have hlen : text.length < (List.ofFn (snprintf b text)).length := by
    simpa using hfits
  have htake : (List.ofFn (snprintf b text)).take text.length = text := by
    apply List.ext_getElem
    · simp only [List.length_take, List.length_ofFn]
      omega
    · intro i _ hi
      simp only [List.getElem_take, List.getElem_ofFn, snprintf, hstop, hi, if_true]
      exact List.getD_eq_getElem _ _ hi
  have hnext : (List.ofFn (snprintf b text))[text.length] = nul := by
    simp only [List.getElem_ofFn, snprintf, hstop, Nat.lt_irrefl, if_false, if_true]
  have hsplit : List.ofFn (snprintf b text) =
      text ++ nul :: (List.ofFn (snprintf b text)).drop (text.length + 1) := by
    conv_lhs => rw [← List.take_append_drop text.length (List.ofFn (snprintf b text))]
    rw [htake, List.drop_eq_getElem_cons hlen, hnext]
  have hkeep : ∀ c ∈ text, decide (c ≠ nul) = true := by
    intro c hc
    have hne : c ≠ nul := fun heq => hnul (heq ▸ hc)
    simpa using hne
  rw [chars, hsplit, List.takeWhile_append_of_pos hkeep]
  simp

theorem cString_snprintf {n : ℕ} (b : CharBuffer n) (text : List Char) (hfits : text.length < n)
    (hnul : nul ∉ text) : cString (snprintf b text) = String.ofList text := by
  rw [cString, chars_snprintf b text hfits hnul]

end NodeMonitor.CharBuffers
