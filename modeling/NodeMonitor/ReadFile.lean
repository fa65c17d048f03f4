import NodeMonitor.TextWords

/-!
The line reader of the agent. A call takes the next line of the file and pushes its
words; a line that ends with the file counts as the end, and so does an empty one. The
loop over the words stops when the stream of the line has ended, which white space
behind the last word delays by one empty extraction.
-/

namespace NodeMonitor.ReadFile

open InputStreams TextWords

/-- A stream that has ended if it has failed. -/
structure LineStream extends IStream where
  ended : failbit = true → eofbit = true

/-- A stream of one line. -/
def LineStream.ofLine (line : List Char) : LineStream where
  rest := line
  ended := by simp

/-- A stream that has not ended is good. -/
theorem eq_ofLine (s : LineStream) (h : s.eofbit = false) : s = LineStream.ofLine s.rest := by
  obtain ⟨⟨rest, eofbit, failbit⟩, hended⟩ := s
  obtain rfl : eofbit = false := h
  cases failbit with
  | false => rfl
  | true => exact absurd (hended rfl) (by simp)

theorem extractWord_spaces {line : List Char} (h : ∀ c ∈ line, isSpace c = true)
    (word : List Char) :
    extractWord { rest := line } word =
      ({ rest := [], eofbit := true, failbit := true }, word) := by
  have hskip : line.dropWhile isSpace = [] := by
    rw [List.dropWhile_eq_nil_iff]
    exact h
  simp [extractWord, IStream.sentry, IStream.good, hskip]

/-- An extraction ends the stream or takes a character and leaves it good. -/
theorem extractWord_progress (line word : List Char) :
    (extractWord { rest := line } word).1.eofbit = true ∨
      ((extractWord { rest := line } word).1.failbit = false ∧
        (extractWord { rest := line } word).1.rest.length < line.length) := by
  by_cases h : ∃ c ∈ line, isSpace c = false
  · obtain ⟨lead, w, tail, rfl, hlead, hw, htail⟩ := exists_first_word h
    have hlength : 0 < w.length := List.length_pos_iff.mpr hw.1
    rw [extractWord_word lead w tail word hlead hw htail]
    right
    refine ⟨rfl, ?_⟩
    simp only [List.length_append]
    omega
  · left
    rw [extractWord_spaces (by simpa using h)]

/-- `line_ss >> word` into a new string. -/
def LineStream.extract (s : LineStream) : LineStream × List Char :=
  ({ toIStream := (extractWord s.toIStream []).1
     ended := by
      cases heof : s.eofbit with
      | true =>
        intro _
        simp [extractWord, IStream.sentry, IStream.good, heof]
      | false =>
        intro hfail
        rw [eq_ofLine s heof] at hfail ⊢
        rcases extractWord_progress s.rest [] with hend | ⟨hgood, _⟩
        · exact hend
        · exact absurd (hfail.symm.trans hgood) (by decide) },
    (extractWord s.toIStream []).2)

/-- `while (!line_ss.eof())`: one word is pushed for every extraction, also for one that
finds nothing. -/
def pushWords (s : LineStream) (args : List (List Char)) : List (List Char) :=
  if s.eofbit then args else pushWords s.extract.1 (args ++ [s.extract.2])
termination_by if s.eofbit then 0 else s.rest.length + 1
decreasing_by
  rename_i heof
  have hstream : s.toIStream = { rest := s.rest } :=
    congrArg LineStream.toIStream (eq_ofLine s (by simpa using heof))
  have hprogress := extractWord_progress s.rest []
  rw [← hstream] at hprogress
  change (if (extractWord s.toIStream []).1.eofbit = true then 0
    else (extractWord s.toIStream []).1.rest.length + 1) < _
  rw [if_neg heof]
  rcases hprogress with hend | ⟨_, hless⟩
  · rw [if_pos hend]
    omega
  · split
    · omega
    · omega

/-- `ReadLine`: the result, the state of the file stream and the vector. -/
def readLine (ifs : IStream) (args : List (List Char)) :
    Bool × IStream × List (List Char) :=
  let read := getline ifs []
  if read.1.eofbit || read.2.isEmpty then (false, read.1, args)
  else (true, read.1, pushWords (LineStream.ofLine read.2) args)

/-! ### The words of a line -/

theorem pushWords_ofLine (line : List Char) (args : List (List Char)) :
    pushWords (LineStream.ofLine line) args =
      let read := extractWord { rest := line } []
      if read.1.eofbit then args ++ [read.2]
      else pushWords (LineStream.ofLine read.1.rest) (args ++ [read.2]) := by
  rw [pushWords, if_neg (by simp [LineStream.ofLine])]
  have hread : (LineStream.ofLine line).extract.1.toIStream =
      (extractWord { rest := line } []).1 := rfl
  dsimp only
  rw [← hread]
  cases heof : (LineStream.ofLine line).extract.1.eofbit with
  | true =>
    rw [pushWords, if_pos heof]
    rfl
  | false =>
    rw [eq_ofLine _ heof]
    rfl

/-- What a line adds to the vector: its words, and an empty one for white space at its
end. -/
def pushed (line : List Char) : List (List Char) :=
  words line ++ if EndsInWord line then [] else [[]]

theorem pushWords_eq (line : List Char) (args : List (List Char)) :
    pushWords (LineStream.ofLine line) args = args ++ pushed line := by
  unfold pushed
  induction hlength : line.length using Nat.strong_induction_on generalizing line args with
  | h n ih =>
    rw [pushWords_ofLine]
    by_cases h : ∃ c ∈ line, isSpace c = false
    · obtain ⟨lead, w, tail, rfl, hlead, hw, htail⟩ := exists_first_word h
      rw [extractWord_word lead w tail [] hlead hw htail, words_lead hlead,
        words_word_append hw htail]
      simp only [endsInWord_append hw lead]
      cases tail with
      | nil => simp [words_nil]
      | cons c cs =>
        have hpos : 0 < w.length := List.length_pos_iff.mpr hw.1
        have hless : (c :: cs).length < n := by
          rw [← hlength, List.length_append, List.length_append]
          omega
        simp [ih _ hless _ _ rfl]
    · have hspaces : ∀ c ∈ line, isSpace c = true := by simpa using h
      rw [extractWord_spaces hspaces, words_spaces hspaces,
        if_neg (not_endsInWord_spaces hspaces)]
      rfl

/-! ### The lines of a file -/

theorem readLine_line {line : List Char} (hline : '\n' ∉ line) (hne : line ≠ [])
    (tail : List Char) (args : List (List Char)) :
    readLine { rest := line ++ '\n' :: tail } args =
      (true, { rest := tail }, args ++ pushed line) := by
  have hempty : line.isEmpty = false := by simpa using hne
  simp [readLine, getline_newline line tail [] hline, hempty, pushWords_eq]

theorem readLine_empty (tail : List Char) (args : List (List Char)) :
    (readLine { rest := '\n' :: tail } args).1 = false := by
  have hread := getline_newline [] tail [] List.not_mem_nil
  rw [List.nil_append] at hread
  simp [readLine, hread]

/-- A line without a newline is taken for the end of the file. -/
theorem readLine_end {line : List Char} (hline : '\n' ∉ line) (args : List (List Char)) :
    (readLine { rest := line } args).1 = false := by
  simp [readLine, getline_end line [] hline]

theorem readLine_not_good {ifs : IStream} (h : ifs.good = false) (args : List (List Char)) :
    (readLine ifs args).1 = false := by
  simp [readLine, getline, h]

/-- A call that delivers a line takes it off the file. -/
theorem readLine_progress {ifs next : IStream} {args read : List (List Char)}
    (h : readLine ifs args = (true, next, read)) : next.rest.length < ifs.rest.length := by
  have hgood : ifs.good = true := by
    by_contra hbad
    have hfalse := readLine_not_good (by simpa using hbad) args
    rw [h] at hfalse
    exact Bool.noConfusion hfalse
  have hstream : ifs = { rest := ifs.rest } := by
    obtain ⟨rest, eofbit, failbit⟩ := ifs
    simpa [IStream.good] using hgood
  rw [hstream] at h
  by_cases hmem : '\n' ∈ ifs.rest
  · obtain ⟨line, tail, hrest, hline⟩ := List.eq_append_cons_of_mem hmem
    rw [hrest] at h ⊢
    by_cases hne : line = []
    · rw [hne, List.nil_append] at h
      have hfalse := readLine_empty tail args
      rw [h] at hfalse
      exact Bool.noConfusion hfalse
    · rw [readLine_line hline hne] at h
      obtain ⟨_, hnext⟩ := Prod.mk.inj h
      rw [← (Prod.mk.inj hnext).1]
      simp only [List.length_append, List.length_cons]
      omega
  · have hfalse := readLine_end hmem args
    rw [h] at hfalse
    exact Bool.noConfusion hfalse

/-- The vectors delivered by calls with an empty vector until one returns false. -/
def readAll (ifs : IStream) : List (List (List Char)) :=
  match _h : readLine ifs [] with
  | (true, next, args) => args :: readAll next
  | (false, _, _) => []
termination_by ifs.rest.length
decreasing_by exact readLine_progress (by assumption)

/-- The lines that are delivered: those before the first empty line, and not the rest
behind the last newline. -/
def linesRead (content : List Char) : List (List Char) :=
  (content.splitOn '\n').dropLast.takeWhile (fun line => line ≠ [])

/-- The lines that are not. -/
def linesLeft (content : List Char) : List (List Char) :=
  (content.splitOn '\n').drop (linesRead content).length

theorem linesRead_append_linesLeft (content : List Char) :
    linesRead content ++ linesLeft content = content.splitOn '\n' :=
  List.prefix_iff_eq_append.mp ((List.takeWhile_prefix _).trans (List.dropLast_prefix _))

theorem linesRead_line {line : List Char} (hline : '\n' ∉ line) (hne : line ≠ [])
    (tail : List Char) : linesRead (line ++ '\n' :: tail) = line :: linesRead tail := by
  rw [linesRead, splitOn_newline hline, List.dropLast_cons_of_ne_nil (List.splitOn_ne_nil _ _),
    List.takeWhile_cons_of_pos (by simpa using hne), linesRead]

theorem linesRead_empty (tail : List Char) : linesRead ('\n' :: tail) = [] := by
  have hsplit := splitOn_newline List.not_mem_nil tail
  rw [List.nil_append] at hsplit
  rw [linesRead, hsplit, List.dropLast_cons_of_ne_nil (List.splitOn_ne_nil _ _)]
  simp

theorem linesRead_end {line : List Char} (hline : '\n' ∉ line) : linesRead line = [] := by
  rw [linesRead, splitOn_end hline]
  rfl

theorem readAll_stop {ifs : IStream} (h : (readLine ifs []).1 = false) : readAll ifs = [] := by
  rw [readAll]
  split
  · rename_i hread
    rw [hread] at h
    exact Bool.noConfusion h
  · rfl

theorem readAll_next {ifs next : IStream} {args : List (List Char)}
    (h : readLine ifs [] = (true, next, args)) : readAll ifs = args :: readAll next := by
  rw [readAll]
  split
  · rename_i hread
    obtain ⟨_, hpair⟩ := Prod.mk.inj (h.symm.trans hread)
    obtain ⟨rfl, rfl⟩ := Prod.mk.inj hpair
    rfl
  · rename_i hread
    exact absurd (h.symm.trans hread) (by simp)

theorem readAll_line {line : List Char} (hline : '\n' ∉ line) (hne : line ≠ [])
    (tail : List Char) :
    readAll { rest := line ++ '\n' :: tail } = pushed line :: readAll { rest := tail } :=
  readAll_next (readLine_line hline hne tail [])

/-- The calls deliver a vector for every line that is read. -/
theorem readAll_eq (content : List Char) :
    readAll { rest := content } = (linesRead content).map pushed := by
  induction hlength : content.length using Nat.strong_induction_on generalizing content with
  | h n ih =>
    by_cases hmem : '\n' ∈ content
    · obtain ⟨line, tail, rfl, hline⟩ := List.eq_append_cons_of_mem hmem
      by_cases hne : line = []
      · subst hne
        rw [List.nil_append, readAll_stop (readLine_empty tail []), linesRead_empty]
        rfl
      · have hless : tail.length < n := by
          rw [← hlength, List.length_append, List.length_cons]
          omega
        rw [readAll_line hline hne, linesRead_line hline hne, List.map_cons, ih _ hless _ rfl]
    · rw [readAll_stop (readLine_end hmem []), linesRead_end hmem]
      rfl

/-! ### The whole file -/

/-- The line has a word. -/
def nonBlank (line : List Char) : Bool := line.any (fun c => !isSpace c)

/-- The words of every line of a file with any, the last one with or without a newline. -/
def wholeFile (content : List Char) : List (List (List Char)) :=
  ((content.splitOn '\n').filter nonBlank).map words

/-- Every line that is read ends in a word, and no other line has one. -/
def ReadsWhole (content : List Char) : Prop :=
  (∀ line ∈ linesRead content, EndsInWord line) ∧
    ∀ line ∈ linesLeft content, ∀ c ∈ line, isSpace c = true

theorem nonBlank_of_endsInWord {line : List Char} (h : EndsInWord line) :
    nonBlank line = true := by
  obtain ⟨c, hlast, hc⟩ := Option.map_eq_some_iff.mp h
  rw [nonBlank, List.any_eq_true]
  exact ⟨c, List.mem_of_getLast? hlast, by simp [hc]⟩

theorem nonBlank_eq_false_iff (line : List Char) :
    nonBlank line = false ↔ ∀ c ∈ line, isSpace c = true := by
  simp [nonBlank]

theorem nil_notMem_words (line : List Char) : [] ∉ words line := by
  simp [words]

theorem pushed_endsInWord {line : List Char} (h : EndsInWord line) :
    pushed line = words line := by
  rw [pushed, if_pos h, List.append_nil]

/-- Without white space behind the words of the lines read, only the lines that are not read
can be missing. -/
theorem wholeFile_eq {content : List Char} (hends : ∀ line ∈ linesRead content, EndsInWord line) :
    wholeFile content = (linesRead content).map pushed ++
      ((linesLeft content).filter nonBlank).map words := by
  have hread : (linesRead content).filter nonBlank = linesRead content :=
    List.filter_eq_self.mpr (fun line hline => nonBlank_of_endsInWord (hends line hline))
  have hwords : (linesRead content).map pushed = (linesRead content).map words :=
    List.map_congr_left (fun line hline => pushed_endsInWord (hends line hline))
  rw [wholeFile, ← linesRead_append_linesLeft, List.filter_append, List.map_append, hread, hwords]

theorem endsInWord_of_readAll {content : List Char}
    (h : readAll { rest := content } = wholeFile content) :
    ∀ line ∈ linesRead content, EndsInWord line := by
  intro line hline
  by_contra hend
  have hpushed : pushed line ∈ wholeFile content := by
    rw [← h, readAll_eq]
    exact List.mem_map_of_mem hline
  obtain ⟨other, _, hwords⟩ := List.mem_map.mp hpushed
  have hempty : [] ∈ pushed line := by simp [pushed, hend]
  rw [← hwords] at hempty
  exact nil_notMem_words other hempty

/-- The calls deliver the words of the whole file exactly when every line before the first
empty one, or before the rest behind the last newline, ends in a word and nothing but white
space follows. -/
theorem read_whole_iff (content : List Char) :
    readAll { rest := content } = wholeFile content ↔ ReadsWhole content := by
  constructor
  · intro h
    have hends := endsInWord_of_readAll h
    rw [readAll_eq, wholeFile_eq hends, eq_comm, List.append_right_eq_self, List.map_eq_nil_iff,
      List.filter_eq_nil_iff] at h
    refine ⟨hends, ?_⟩
    intro line hline
    exact (nonBlank_eq_false_iff line).mp (by simpa using h line hline)
  · intro h
    obtain ⟨hends, hblank⟩ := h
    have hleft : (linesLeft content).filter nonBlank = [] := by
      rw [List.filter_eq_nil_iff]
      intro line hline
      simp [(nonBlank_eq_false_iff line).mpr (hblank line hline)]
    rw [readAll_eq, wholeFile_eq hends, hleft, List.map_nil, List.append_nil]

/-- The line behind an empty one is not delivered. -/
theorem line_after_empty_lost :
    ¬ ∀ content : List Char, readAll { rest := content } = wholeFile content := by
  intro h
  have hread := h "MemTotal: 2 kB\n\nMemFree: 1 kB\n".toList
  rw [readAll_eq] at hread
  exact absurd hread (by decide)

end NodeMonitor.ReadFile
