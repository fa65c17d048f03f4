import Mathlib.Data.List.TakeDrop
import Mathlib.Data.List.TakeWhile
import Mathlib.Algebra.Order.Ring.Int
import Mathlib.Tactic.Common

/-!
Formatted input from a character stream, after the C++ standard library in the
classic locale. A stream is the unread characters with the end-of-file and failure
flags. Extraction skips white space first and does nothing on a stream that is
not good; a number takes an optional sign and the longest run of digits, and a
missing or out-of-range number raises the failure flag.
-/

namespace NodeMonitor.InputStreams

structure IStream where
  rest : List Char
  eofbit : Bool := false
  failbit : Bool := false
deriving DecidableEq

def isSpace (c : Char) : Bool :=
  c = ' ' || c = '\t' || c = '\n' || c = '\x0b' || c = '\x0c' || c = '\r'

def IStream.good (s : IStream) : Bool := !s.eofbit && !s.failbit

/-- What every formatted extraction begins with; it fails on an exhausted stream. -/
def IStream.sentry (s : IStream) : IStream :=
  if s.good then
    match s.rest.dropWhile isSpace with
    | [] => { rest := [], eofbit := true, failbit := true }
    | c :: cs => { rest := c :: cs }
  else { s with failbit := true }

/-- `>>` into a string: the characters up to the next white space. The variable
keeps its value when the sentry fails. -/
def extractWord (s : IStream) (word : List Char) : IStream × List Char :=
  let s := s.sentry
  if s.failbit then (s, word)
  else
    let rest := s.rest.dropWhile (fun c => !isSpace c)
    ({ rest := rest, eofbit := rest.isEmpty }, s.rest.takeWhile (fun c => !isSpace c))

/-- How an integer type reads a sign and a magnitude, and what it stores where
the value does not fit. -/
structure IntegerType (α : Type) where
  zero : α
  read : Bool → ℕ → Option α
  saturated : Bool → α

def splitSign : List Char → Bool × List Char
  | '-' :: cs => (true, cs)
  | '+' :: cs => (false, cs)
  | cs => (false, cs)

/-- `>>` into an integer. A missing number stores zero and an overflow the bound;
both raise the failure flag. -/
def extractInteger {α : Type} (t : IntegerType α) (s : IStream) (x : α) : IStream × α :=
  let s := s.sentry
  if s.failbit then (s, x)
  else
    let negative := (splitSign s.rest).1
    let body := (splitSign s.rest).2
    let digits := body.takeWhile Char.isDigit
    let rest := body.dropWhile Char.isDigit
    if digits = [] then ({ rest := rest, eofbit := rest.isEmpty, failbit := true }, t.zero)
    else
      match t.read negative (Nat.ofDigitChars 10 digits 0) with
      | some v => ({ rest := rest, eofbit := rest.isEmpty }, v)
      | none => ({ rest := rest, eofbit := rest.isEmpty, failbit := true }, t.saturated negative)

/-- A 32-bit signed integer. -/
def int32Type : IntegerType ℤ where
  zero := 0
  read negative n :=
    let v : ℤ := if negative then -(n : ℤ) else n
    if -2 ^ 31 ≤ v ∧ v < 2 ^ 31 then some v else none
  saturated negative := if negative then -2 ^ 31 else 2 ^ 31 - 1

/-- A 64-bit signed integer. -/
def int64Type : IntegerType ℤ where
  zero := 0
  read negative n :=
    let v : ℤ := if negative then -(n : ℤ) else n
    if -2 ^ 63 ≤ v ∧ v < 2 ^ 63 then some v else none
  saturated negative := if negative then -2 ^ 63 else 2 ^ 63 - 1

/-- A 64-bit unsigned integer; a negative number is taken modulo 2^64. -/
def uint64Type : IntegerType UInt64 where
  zero := 0
  read negative n :=
    if n < 2 ^ 64 then some (if negative then -UInt64.ofNat n else UInt64.ofNat n) else none
  saturated _ := -1

/-- `std::getline`: the characters up to the next newline, which is dropped, or up to the
end. The variable keeps its value when the stream is not good. -/
def getline (s : IStream) (line : List Char) : IStream × List Char :=
  if s.good then
    match s.rest.dropWhile (fun c => c ≠ '\n') with
    | [] => ({ rest := [], eofbit := true, failbit := s.rest.isEmpty }, s.rest)
    | _ :: rest => ({ rest := rest }, s.rest.takeWhile (fun c => c ≠ '\n'))
  else ({ s with failbit := true }, line)

theorem getline_newline (line tail x : List Char) (h : '\n' ∉ line) :
    getline { rest := line ++ '\n' :: tail } x = ({ rest := tail }, line) := by
  have hline : ∀ c ∈ line, decide (c ≠ '\n') = true := by
    intro c hc
    rw [decide_eq_true_iff]
    rintro rfl
    exact h hc
  have hdrop : (line ++ '\n' :: tail).dropWhile (fun c => c ≠ '\n') = '\n' :: tail := by
    rw [List.dropWhile_append_of_pos hline]
    simp
  have htake : (line ++ '\n' :: tail).takeWhile (fun c => c ≠ '\n') = line := by
    rw [List.takeWhile_append_of_pos hline]
    simp
  unfold getline
  simp only [IStream.good, hdrop, htake, Bool.not_false, Bool.and_self, if_true]

/-- A line that is not ended by a newline is delivered with the end of the stream. -/
theorem getline_end (line x : List Char) (h : '\n' ∉ line) :
    getline { rest := line } x =
      ({ rest := [], eofbit := true, failbit := line.isEmpty }, line) := by
  have hdrop : line.dropWhile (fun c => c ≠ '\n') = [] := by
    rw [List.dropWhile_eq_nil_iff]
    intro c hc
    rw [decide_eq_true_iff]
    rintro rfl
    exact h hc
  unfold getline
  simp only [IStream.good, hdrop, Bool.not_false, Bool.and_self, if_true]

/-- The lines a `getline` loop delivers: a line ends at a newline, which is
dropped, or at the end of a nonempty remainder. -/
def splitLines : List Char → List (List Char)
  | [] => []
  | c :: cs =>
    if c = '\n' then [] :: splitLines cs
    else
      match splitLines cs with
      | [] => [[c]]
      | line :: rest => (c :: line) :: rest

theorem splitLines_append_newline (line tail : List Char) (h : '\n' ∉ line) :
    splitLines (line ++ '\n' :: tail) = line :: splitLines tail := by
  induction line with
  | nil => simp [splitLines]
  | cons c cs ih =>
    have hc : c ≠ '\n' := fun hc => h (by simp [hc])
    have hcs : '\n' ∉ cs := fun hmem => h (List.mem_cons_of_mem _ hmem)
    rw [List.cons_append, splitLines, if_neg hc, ih hcs]

/-- A file of the given lines, each ended by a newline. -/
def unlines (lines : List (List Char)) : List Char :=
  lines.flatMap (fun line => line ++ ['\n'])

theorem newline_notMem_splitLines (cs : List Char) : ∀ line ∈ splitLines cs, '\n' ∉ line := by
  induction cs with
  | nil => simp [splitLines]
  | cons c cs ih =>
    by_cases hc : c = '\n'
    · rw [splitLines, if_pos hc, List.forall_mem_cons]
      exact ⟨List.not_mem_nil, ih⟩
    · rw [splitLines, if_neg hc]
      cases hlines : splitLines cs with
      | nil => simpa using Ne.symm hc
      | cons line rest =>
        rw [hlines, List.forall_mem_cons] at ih
        refine List.forall_mem_cons.mpr ⟨?_, ih.2⟩
        intro hmem
        rcases List.mem_cons.mp hmem with heq | hline
        · exact hc heq.symm
        · exact ih.1 hline

theorem splitLines_unlines (lines : List (List Char)) (h : ∀ line ∈ lines, '\n' ∉ line) :
    splitLines (unlines lines) = lines := by
  induction lines with
  | nil => rfl
  | cons line rest ih =>
    obtain ⟨hline, hrest⟩ := List.forall_mem_cons.mp h
    have hcons : unlines (line :: rest) = line ++ '\n' :: unlines rest := by
      rw [unlines, List.flatMap_cons, List.append_assoc]
      rfl
    rw [hcons, splitLines_append_newline line _ hline, ih hrest]

/-! ### Reading back printed columns -/

def Blank (cs : List Char) : Prop := ∀ c ∈ cs, c = ' ' ∨ c = '\t'

/-- A word a formatted extraction takes whole. -/
def Word (w : List Char) : Prop := w ≠ [] ∧ ∀ c ∈ w, isSpace c = false

/-- What follows a column: nothing, or a separating blank. -/
def Separated (tail : List Char) : Prop := ∀ c cs, tail = c :: cs → isSpace c = true

theorem isSpace_of_blank {cs : List Char} (h : Blank cs) : ∀ c ∈ cs, isSpace c = true := by
  intro c hc
  rcases h c hc with hspace | htab
  · rw [hspace]
    rfl
  · rw [htab]
    rfl

theorem isSpace_of_isDigit {c : Char} (h : c.isDigit = true) : isSpace c = false := by
  cases hspace : isSpace c with
  | false => rfl
  | true =>
    simp only [isSpace, Bool.or_eq_true, decide_eq_true_eq] at hspace
    rcases hspace with ((((rfl | rfl) | rfl) | rfl) | rfl) | rfl <;>
      exact absurd h (by decide)

theorem takeWhile_append_separated (p : Char → Bool) (w tail : List Char)
    (hw : ∀ c ∈ w, p c = true) (hp : ∀ c, isSpace c = true → p c = false)
    (htail : Separated tail) :
    (w ++ tail).takeWhile p = w ∧ (w ++ tail).dropWhile p = tail := by
  rw [List.takeWhile_append_of_pos hw, List.dropWhile_append_of_pos hw]
  cases tail with
  | nil => simp
  | cons c cs =>
    have hc : p c = false := hp c (htail c cs rfl)
    simp [hc]

/-- On a good stream that holds a word after white space, the sentry stops at the word. -/
theorem sentry_word (lead w tail : List Char) (hlead : ∀ c ∈ lead, isSpace c = true)
    (hw : Word w) : IStream.sentry { rest := lead ++ (w ++ tail) } = { rest := w ++ tail } := by
  have hdrop : (lead ++ (w ++ tail)).dropWhile isSpace = w ++ tail := by
    rw [List.dropWhile_append_of_pos hlead]
    cases w with
    | nil => exact absurd rfl hw.1
    | cons c cs =>
      have hc : isSpace c = false := hw.2 c (List.mem_cons_self ..)
      simp [hc]
  simp only [IStream.sentry, IStream.good, hdrop, Bool.not_false, Bool.and_self, if_true]
  cases w with
  | nil => exact absurd rfl hw.1
  | cons c cs => rfl

theorem extractWord_word (lead w tail x : List Char) (hlead : ∀ c ∈ lead, isSpace c = true)
    (hw : Word w) (htail : Separated tail) :
    extractWord { rest := lead ++ (w ++ tail) } x =
      ({ rest := tail, eofbit := tail.isEmpty }, w) := by
  obtain ⟨htake, hdrop⟩ := takeWhile_append_separated (fun c => !isSpace c) w tail
    (fun c hc => by simp [hw.2 c hc]) (fun c hc => by simp [hc]) htail
  unfold extractWord
  simp only [sentry_word lead w tail hlead hw, htake, hdrop, Bool.false_eq_true, if_false]

/-- The decimal digits of a natural number. -/
def decimal (n : ℕ) : List Char := Nat.toDigits 10 n

theorem isDigit_of_mem_decimal {n : ℕ} {c : Char} (h : c ∈ decimal n) : c.isDigit = true :=
  Nat.isDigit_of_mem_toDigits (by omega) (by omega) h

theorem decimal_word (n : ℕ) : Word (decimal n) :=
  ⟨Nat.toDigits_ne_nil, fun _ hc => isSpace_of_isDigit (isDigit_of_mem_decimal hc)⟩

/-- The printed form of an integer. -/
def signed (z : ℤ) : List Char :=
  if z < 0 then '-' :: decimal z.natAbs else decimal z.natAbs

theorem signed_word (z : ℤ) : Word (signed z) := by
  unfold signed
  split
  · refine ⟨List.cons_ne_nil _ _, ?_⟩
    intro c hc
    rcases List.mem_cons.mp hc with hminus | hdigit
    · rw [hminus]
      rfl
    · exact (decimal_word z.natAbs).2 c hdigit
  · exact decimal_word z.natAbs

/-- Digits have no sign in front of them. -/
theorem splitSign_digits {digits : List Char} (hne : digits ≠ [])
    (hdigits : ∀ c ∈ digits, c.isDigit = true) (tail : List Char) :
    splitSign (digits ++ tail) = (false, digits ++ tail) := by
  cases digits with
  | nil => exact absurd rfl hne
  | cons c cs =>
    have hc : c.isDigit = true := hdigits c (List.mem_cons_self ..)
    have hminus : c ≠ '-' := fun heq => absurd (heq ▸ hc) (by decide)
    have hplus : c ≠ '+' := fun heq => absurd (heq ▸ hc) (by decide)
    rw [List.cons_append]
    unfold splitSign
    split
    · rename_i heq
      exact absurd (List.cons.inj heq).1 hminus
    · rename_i heq
      exact absurd (List.cons.inj heq).1 hplus
    · rfl

theorem splitSign_decimal (n : ℕ) (tail : List Char) :
    splitSign (decimal n ++ tail) = (false, decimal n ++ tail) :=
  splitSign_digits Nat.toDigits_ne_nil (fun _ hc => isDigit_of_mem_decimal hc) tail

/-- A number in range is read back, whatever is separated from it. -/
theorem extractInteger_word {α : Type} (t : IntegerType α) (lead w tail : List Char) (x v : α)
    (negative : Bool) (n : ℕ) (hlead : Blank lead) (hw : Word w) (htail : Separated tail)
    (hsign : splitSign (w ++ tail) = (negative, decimal n ++ tail))
    (hread : t.read negative n = some v) :
    extractInteger t { rest := lead ++ (w ++ tail) } x =
      ({ rest := tail, eofbit := tail.isEmpty }, v) := by
  have hspace : ∀ c, isSpace c = true → c.isDigit = false := by
    intro c hc
    cases hdigit : c.isDigit with
    | false => rfl
    | true => rw [isSpace_of_isDigit hdigit] at hc; exact absurd hc (by decide)
  obtain ⟨htake, hdrop⟩ := takeWhile_append_separated Char.isDigit (decimal n) tail
    (fun c hc => isDigit_of_mem_decimal hc) hspace htail
  have hvalue : Nat.ofDigitChars 10 (decimal n) 0 = n := Nat.ofDigitChars_ten_toDigits
  have hne : decimal n ≠ [] := Nat.toDigits_ne_nil
  unfold extractInteger
  simp only [sentry_word lead w tail (isSpace_of_blank hlead) hw, hsign, htake, hdrop, hvalue, hread, hne,
    Bool.false_eq_true, if_false]

theorem extractUInt64_decimal (lead tail : List Char) (x v : UInt64) (hlead : Blank lead)
    (htail : Separated tail) :
    extractInteger uint64Type { rest := lead ++ (decimal v.toNat ++ tail) } x =
      ({ rest := tail, eofbit := tail.isEmpty }, v) := by
  apply extractInteger_word uint64Type lead _ tail x v false v.toNat hlead (decimal_word _) htail
    (splitSign_decimal _ _)
  have hv : v.toNat < 2 ^ 64 := v.toNat_lt
  simp only [uint64Type, if_pos hv, Bool.false_eq_true, if_false, UInt64.ofNat_toNat]

theorem extractInt32_signed (lead tail : List Char) (x z : ℤ) (hlead : Blank lead)
    (htail : Separated tail) (hz : -2 ^ 31 ≤ z ∧ z < 2 ^ 31) :
    extractInteger int32Type { rest := lead ++ (signed z ++ tail) } x =
      ({ rest := tail, eofbit := tail.isEmpty }, z) := by
  by_cases hneg : z < 0
  · have hform : signed z = '-' :: decimal z.natAbs := if_pos hneg
    apply extractInteger_word int32Type lead _ tail x z true z.natAbs hlead (signed_word z) htail
    · rw [hform]
      rfl
    · have hvalue : -(z.natAbs : ℤ) = z := by omega
      simp only [int32Type, if_true, hvalue, hz, and_self]
  · have hform : signed z = decimal z.natAbs := if_neg hneg
    apply extractInteger_word int32Type lead _ tail x z false z.natAbs hlead (signed_word z) htail
    · rw [hform]
      exact splitSign_decimal _ _
    · have hvalue : (z.natAbs : ℤ) = z := by omega
      simp only [int32Type, Bool.false_eq_true, if_false, hvalue, hz, and_self, if_true]

end NodeMonitor.InputStreams
