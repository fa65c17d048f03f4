import NodeMonitor.InputStreams

/-!
Texts as lines and words. A text is split at every newline, a line at every run of
white space; a conversion reads the number at the beginning of a word. The lemmas say
how the words of a line grow from its first one on and where the lines of a text end.
-/

namespace NodeMonitor.TextWords

open InputStreams

/-! ### Words -/

/-- The maximal runs of a line without white space. -/
def words (line : List Char) : List (List Char) :=
  (line.splitOnP isSpace).filter (fun w => w ≠ [])

theorem words_nil : words [] = [] := by
  rw [words, List.splitOnP_nil]
  rfl

theorem words_append_space (left right : List Char) {c : Char} (hc : isSpace c = true) :
    words (left ++ c :: right) = words left ++ words right := by
  rw [words, List.splitOnP_append_cons left right hc, List.filter_append]
  rfl

theorem words_cons_space {c : Char} (hc : isSpace c = true) (line : List Char) :
    words (c :: line) = words line := by
  have h := words_append_space [] line hc
  rwa [words_nil, List.nil_append, List.nil_append] at h

/-- White space in front of a line adds no word. -/
theorem words_lead {lead : List Char} (hlead : ∀ c ∈ lead, isSpace c = true)
    (line : List Char) : words (lead ++ line) = words line := by
  induction lead with
  | nil => rfl
  | cons c cs ih =>
    obtain ⟨hc, hcs⟩ := List.forall_mem_cons.mp hlead
    rw [List.cons_append, words_cons_space hc, ih hcs]

theorem words_spaces {line : List Char} (h : ∀ c ∈ line, isSpace c = true) :
    words line = [] := by
  have hlead := words_lead h []
  rwa [List.append_nil, words_nil] at hlead

/-- A word that is separated from what follows is the first one. -/
theorem words_word_append {w tail : List Char} (hw : Word w) (htail : Separated tail) :
    words (w ++ tail) = w :: words tail := by
  have hsingle : words w = [w] := by
    rw [words, List.splitOnP_eq_singleton hw.2, List.filter_cons_of_pos (by simp [hw.1])]
    rfl
  cases tail with
  | nil => rw [List.append_nil, words_nil, hsingle]
  | cons c cs =>
    have hc : isSpace c = true := htail c cs rfl
    rw [words_append_space w cs hc, hsingle, words_cons_space hc]
    rfl

/-- Any characters begin with a run without white space that is separated from the rest. -/
theorem exists_separated (cs : List Char) :
    ∃ front rest, cs = front ++ rest ∧ (∀ c ∈ front, isSpace c = false) ∧ Separated rest := by
  refine ⟨cs.takeWhile (fun c => !isSpace c), cs.dropWhile (fun c => !isSpace c),
    List.takeWhile_append_dropWhile.symm, ?_, ?_⟩
  · intro c hc
    simpa using List.mem_takeWhile_imp hc
  · intro c rest hrest
    have hne : cs.dropWhile (fun c => !isSpace c) ≠ [] := by simp [hrest]
    simpa [hrest] using List.head_dropWhile_not (fun c => !isSpace c) hne

/-- A line with anything but white space has a first word. -/
theorem exists_first_word {line : List Char} (h : ∃ c ∈ line, isSpace c = false) :
    ∃ lead w tail, line = lead ++ (w ++ tail) ∧ (∀ c ∈ lead, isSpace c = true) ∧ Word w ∧
      Separated tail := by
  have hlead : ∀ c ∈ line.takeWhile isSpace, isSpace c = true := fun c hc =>
    List.mem_takeWhile_imp hc
  have hbody : line.takeWhile isSpace ++ line.dropWhile isSpace = line :=
    List.takeWhile_append_dropWhile
  obtain ⟨w, tail, hsplit, hw, htail⟩ := exists_separated (line.dropWhile isSpace)
  refine ⟨line.takeWhile isSpace, w, tail, by rw [← hsplit, hbody], hlead, ⟨?_, hw⟩, htail⟩
  rintro rfl
  rw [List.nil_append] at hsplit
  cases hrest : line.dropWhile isSpace with
  | nil =>
    obtain ⟨c, hc, hword⟩ := h
    rw [← hbody, hrest, List.append_nil] at hc
    exact absurd ((hlead c hc).symm.trans hword) (by decide)
  | cons c cs =>
    have hne : line.dropWhile isSpace ≠ [] := by simp [hrest]
    have hfirst : isSpace c = false := by
      simpa [hrest] using List.head_dropWhile_not isSpace hne
    exact absurd ((htail c cs (hsplit.symm.trans hrest)).symm.trans hfirst) (by decide)

theorem words_eq_nil_iff (line : List Char) :
    words line = [] ↔ ∀ c ∈ line, isSpace c = true := by
  constructor
  · intro h
    by_contra hword
    push Not at hword
    simp only [Bool.not_eq_true] at hword
    obtain ⟨lead, w, tail, rfl, hlead, hw, htail⟩ := exists_first_word hword
    rw [words_lead hlead, words_word_append hw htail] at h
    exact List.cons_ne_nil _ _ h
  · exact words_spaces

theorem word_of_mem_words {line w : List Char} (h : w ∈ words line) : Word w := by
  induction hlength : line.length using Nat.strong_induction_on generalizing line with
  | h n ih =>
    by_cases hword : ∃ c ∈ line, isSpace c = false
    · obtain ⟨lead, first, tail, rfl, hlead, hfirst, htail⟩ := exists_first_word hword
      rw [words_lead hlead, words_word_append hfirst htail] at h
      have hpos : 0 < first.length := List.length_pos_iff.mpr hfirst.1
      rcases List.mem_cons.mp h with rfl | hmem
      · exact hfirst
      · refine ih tail.length ?_ hmem rfl
        simp only [List.length_append] at hlength
        omega
    · rw [words_spaces (by simpa using hword)] at h
      exact absurd h List.not_mem_nil

/-- The last character of the line belongs to a word. -/
def EndsInWord (line : List Char) : Prop := line.getLast?.map isSpace = some false

instance (line : List Char) : Decidable (EndsInWord line) :=
  inferInstanceAs (Decidable (_ = _))

theorem not_endsInWord_spaces {line : List Char} (h : ∀ c ∈ line, isSpace c = true) :
    ¬ EndsInWord line := by
  intro hend
  obtain ⟨c, hlast, hc⟩ := Option.map_eq_some_iff.mp hend
  rw [h c (List.mem_of_getLast? hlast)] at hc
  exact absurd hc (by decide)

/-- What is behind a word decides how the line ends. -/
theorem endsInWord_append {w tail : List Char} (hw : Word w) (lead : List Char) :
    EndsInWord (lead ++ (w ++ tail)) ↔ tail = [] ∨ EndsInWord tail := by
  unfold EndsInWord
  cases tail with
  | nil =>
    obtain ⟨front, last, rfl⟩ := List.eq_nil_or_concat w |>.resolve_left hw.1
    have hlast : isSpace last = false := hw.2 last (by simp)
    simp [List.getLast?_append, hlast]
  | cons c cs => simp [List.getLast?_append]

/-! ### Lines -/

theorem splitOn_newline {line : List Char} (h : '\n' ∉ line) (tail : List Char) :
    (line ++ '\n' :: tail).splitOn '\n' = line :: tail.splitOn '\n' := by
  rw [List.splitOn_eq_splitOnP, List.splitOnP_append_cons_of_forall_mem _ _ (by rfl)]
  · rfl
  · intro c hc
    rw [beq_eq_false_iff_ne]
    rintro rfl
    exact h hc

theorem splitOn_end {line : List Char} (h : '\n' ∉ line) : line.splitOn '\n' = [line] := by
  rw [List.splitOn_eq_splitOnP]
  apply List.splitOnP_eq_singleton
  intro c hc
  rw [beq_eq_false_iff_ne]
  rintro rfl
  exact h hc

/-- A text of the given lines splits into them and the empty rest behind the last one. -/
theorem splitOn_unlines {lines : List (List Char)} (h : ∀ line ∈ lines, '\n' ∉ line) :
    (unlines lines).splitOn '\n' = lines ++ [[]] := by
  induction lines with
  | nil => rfl
  | cons line rest ih =>
    obtain ⟨hline, hrest⟩ := List.forall_mem_cons.mp h
    have hcons : unlines (line :: rest) = line ++ '\n' :: unlines rest := by
      rw [unlines, List.flatMap_cons, List.append_assoc]
      rfl
    rw [hcons, splitOn_newline hline, ih hrest, List.cons_append]

/-! ### Numbers -/

inductive ConversionError
  | invalidArgument | outOfRange
  deriving DecidableEq

/-- `std::stoll`: the number at the beginning, whatever follows it. -/
def stoll (w : List Char) : Except ConversionError ℤ :=
  let negative := (splitSign (w.dropWhile isSpace)).1
  let digits := (splitSign (w.dropWhile isSpace)).2.takeWhile Char.isDigit
  if digits = [] then .error .invalidArgument
  else
    match int64Type.read negative (Nat.ofDigitChars 10 digits 0) with
    | some v => .ok v
    | none => .error .outOfRange

/-- A word that begins with an optional sign and the digits of a number in range. -/
def BeginsWith (v : ℤ) (w : List Char) : Prop :=
  ∃ sign digits tail, w = sign ++ (digits ++ tail) ∧
    (sign = [] ∨ sign = ['+'] ∨ sign = ['-']) ∧
    digits ≠ [] ∧ (∀ c ∈ digits, c.isDigit = true) ∧
    (∀ c cs, tail = c :: cs → c.isDigit = false) ∧
    v = (if sign = ['-'] then -(Nat.ofDigitChars 10 digits 0 : ℤ)
      else Nat.ofDigitChars 10 digits 0) ∧ -2 ^ 63 ≤ v ∧ v < 2 ^ 63

theorem exists_sign (cs : List Char) :
    ∃ sign, (sign = [] ∨ sign = ['+'] ∨ sign = ['-']) ∧ cs = sign ++ (splitSign cs).2 ∧
      (splitSign cs).1 = decide (sign = ['-']) := by
  unfold splitSign
  split
  · exact ⟨['-'], by simp⟩
  · exact ⟨['+'], by simp⟩
  · exact ⟨[], by simp⟩

theorem splitSign_sign {sign digits : List Char} (tail : List Char)
    (hsign : sign = [] ∨ sign = ['+'] ∨ sign = ['-']) (hne : digits ≠ [])
    (hdigits : ∀ c ∈ digits, c.isDigit = true) :
    splitSign (sign ++ (digits ++ tail)) = (decide (sign = ['-']), digits ++ tail) := by
  rcases hsign with rfl | rfl | rfl
  · exact splitSign_digits hne hdigits tail
  · rfl
  · rfl

theorem takeWhile_digits {digits tail : List Char} (hdigits : ∀ c ∈ digits, c.isDigit = true)
    (htail : ∀ c cs, tail = c :: cs → c.isDigit = false) :
    (digits ++ tail).takeWhile Char.isDigit = digits := by
  rw [List.takeWhile_append_of_pos hdigits]
  cases tail with
  | nil => simp
  | cons c cs => simp [htail c cs rfl]

theorem int64_read_eq_some_iff (negative : Bool) (n : ℕ) (v : ℤ) :
    int64Type.read negative n = some v ↔
      v = (if negative then -(n : ℤ) else n) ∧ -2 ^ 63 ≤ v ∧ v < 2 ^ 63 := by
  simp only [int64Type, Option.ite_none_right_eq_some, Option.some.injEq]
  constructor
  · rintro ⟨hrange, rfl⟩
    exact ⟨rfl, hrange⟩
  · rintro ⟨rfl, hrange⟩
    exact ⟨hrange, rfl⟩

/-- A word converts to the number that it begins with. -/
theorem stoll_eq_ok_iff {w : List Char} (hw : Word w) (v : ℤ) :
    stoll w = .ok v ↔ BeginsWith v w := by
  have hskip : w.dropWhile isSpace = w := by
    cases w with
    | nil => rfl
    | cons c cs => simp [hw.2 c (List.mem_cons_self ..)]
  unfold stoll
  rw [hskip]
  constructor
  · intro h
    obtain ⟨sign, hsign, hsplit, hnegative⟩ := exists_sign w
    generalize (splitSign w).2 = body at h hsplit
    rw [hnegative] at h
    by_cases hnone : body.takeWhile Char.isDigit = []
    · simp [hnone] at h
    · simp only [hnone, if_false] at h
      split at h
      · rename_i u hread
        obtain rfl := Except.ok.inj h
        have hv := (int64_read_eq_some_iff _ _ u).mp hread
        refine ⟨sign, body.takeWhile Char.isDigit, body.dropWhile Char.isDigit, ?_, hsign, hnone,
          fun c hc => List.mem_takeWhile_imp hc, ?_, by simpa using hv⟩
        · rw [List.takeWhile_append_dropWhile]
          exact hsplit
        · intro c cs htail
          have hne : body.dropWhile Char.isDigit ≠ [] := by simp [htail]
          simpa [htail] using List.head_dropWhile_not Char.isDigit hne
      · exact absurd h (by simp)
  · rintro ⟨sign, digits, tail, rfl, hsign, hne, hdigits, htail, hv⟩
    rw [splitSign_sign tail hsign hne hdigits]
    dsimp only
    rw [takeWhile_digits hdigits htail, if_neg hne,
      (int64_read_eq_some_iff (decide (sign = ['-'])) _ v).mpr (by simpa using hv)]

/-- Digits and what follows them without white space in between make up a word that begins
with their number. -/
theorem words_digits {digits tail : List Char} (hne : digits ≠ [])
    (hdigits : ∀ c ∈ digits, c.isDigit = true)
    (htail : ∀ c cs, tail = c :: cs → c.isDigit = false)
    (hrange : Nat.ofDigitChars 10 digits 0 < 2 ^ 63) :
    ∃ w ws, words (digits ++ tail) = w :: ws ∧
      BeginsWith (Nat.ofDigitChars 10 digits 0 : ℕ) w := by
  obtain ⟨more, rest, rfl, hmore, hrest⟩ := exists_separated tail
  have hword : Word (digits ++ more) := by
    refine ⟨by simp [hne], ?_⟩
    intro c hc
    rcases List.mem_append.mp hc with hdigit | hc
    · exact isSpace_of_isDigit (hdigits c hdigit)
    · exact hmore c hc
  refine ⟨digits ++ more, words rest, ?_, [], digits, more, rfl, Or.inl rfl, hne, hdigits, ?_, ?_⟩
  · rw [← List.append_assoc, words_word_append hword hrest]
  · intro c cs hcons
    exact htail c (cs ++ rest) (by rw [hcons, List.cons_append])
  · rw [if_neg (List.cons_ne_nil _ _).symm]
    omega

end NodeMonitor.TextWords
