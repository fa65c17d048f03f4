import NodeMonitor.MemMonitor
import NodeMonitor.Readings

/-!
What the memory monitor publishes of a file. A line assigns the number behind its key,
whatever the record holds; the figure of a key is the last number assigned to it, and
what the record held before where no line has the key. A recognised line without a
number ends the poll.
-/

namespace NodeMonitor.MemFigures

open InputStreams KeyedMaps MemMonitor Messages ReadFile Readings Runs TextWords

/-! ### Keys -/

theorem ofName_text (key : Key) : Key.ofName key.text.toList = some key := by
  cases key <;> decide

theorem word_text (key : Key) : Word key.text.toList := by
  have hnonempty : key.text.toList ≠ [] := by
    cases key <;> decide
  have hletters : key.text.toList.all (fun c => !isSpace c) = true := by
    cases key <;> decide
  refine ⟨hnonempty, ?_⟩
  simpa only [List.all_eq_true, Bool.not_eq_true'] using hletters

theorem ofName_eq_some_iff (name : List Char) (key : Key) :
    Key.ofName name = some key ↔ name = key.text.toList := by
  constructor
  · intro h
    have hfind : Key.all.find? (fun key => key.text.toList = name) = some key := h
    have hfound := List.find?_some hfind
    exact (of_decide_eq_true hfound).symm
  · rintro rfl
    exact ofName_text key

/-- The value of a field of the record. -/
def get (m : MenInfo) : Key → ℤ
  | .memTotal => m.total
  | .memFree => m.free
  | .memAvailable => m.avail
  | .buffers => m.buffers
  | .cached => m.cached
  | .swapCached => m.swapCached
  | .active => m.active
  | .inactive => m.inActive
  | .activeAnon => m.activeAnon
  | .inactiveAnon => m.inactiveAnon
  | .activeFile => m.activeFile
  | .inactiveFile => m.inactiveFile
  | .dirty => m.dirty
  | .writeback => m.writeback
  | .anonPages => m.anonPages
  | .mapped => m.mapped
  | .kReclaimable => m.kReclaimable
  | .sReclaimable => m.sReclaimable
  | .sUnreclaim => m.sUnreclaim

/-- The published figure of a key. -/
def figure (detail : MemInfo) : Key → ℚ
  | .memTotal => detail.total
  | .memFree => detail.free
  | .memAvailable => detail.avail
  | .buffers => detail.buffers
  | .cached => detail.cached
  | .swapCached => detail.swapCached
  | .active => detail.active
  | .inactive => detail.inactive
  | .activeAnon => detail.activeAnon
  | .inactiveAnon => detail.inactiveAnon
  | .activeFile => detail.activeFile
  | .inactiveFile => detail.inactiveFile
  | .dirty => detail.dirty
  | .writeback => detail.writeback
  | .anonPages => detail.anonPages
  | .mapped => detail.mapped
  | .kReclaimable => detail.kReclaimable
  | .sReclaimable => detail.sReclaimable
  | .sUnreclaim => detail.sUnreclaim

theorem figure_memDetail (m : MenInfo) (detail : MemInfo) (key : Key) :
    figure (memDetail m detail) key = get m key / kbToGB := by
  cases key <;> rfl

theorem get_set (m : MenInfo) (v : ℤ) (key other : Key) :
    get (m.set v key) other = if other = key then v else get m other := by
  cases key <;> cases other <;> rfl

theorem eq_of_get {m n : MenInfo} (h : ∀ key, get m key = get n key) : m = n := by
  obtain ⟨_⟩ := m
  obtain ⟨_⟩ := n
  congr
  exacts [h .memTotal, h .memFree, h .memAvailable, h .buffers, h .cached, h .swapCached,
    h .active, h .inactive, h .activeAnon, h .inactiveAnon, h .activeFile, h .inactiveFile,
    h .dirty, h .writeback, h .anonPages, h .mapped, h .kReclaimable, h .sReclaimable,
    h .sUnreclaim]

/-- The record as a container with every key. -/
def contents (m : MenInfo) : KeyedMap Key ℤ := fun key => some (get m key)

theorem contents_set (m : MenInfo) (v : ℤ) (key : Key) :
    contents (m.set v key) = assign (contents m) key v := by
  funext other
  rw [contents, get_set, assign_apply]
  split
  · rfl
  · rfl

/-- The record holds the last number assigned to a key, or what it held before. -/
theorem contents_foldl_store (m : MenInfo) (entries : List (Option (Key × ℤ))) :
    contents (entries.foldl store m) =
      assignAll Prod.fst Prod.snd (contents m) (entries.filterMap id) := by
  induction entries generalizing m with
  | nil => rfl
  | cons e rest ih =>
    rw [List.foldl_cons, ih]
    cases e with
    | none => rfl
    | some assigned =>
      rw [store, contents_set]
      rfl

/-! ### Lines -/

/-- The first word of the line is the key. -/
def StartsWith (key : Key) (line : List Char) : Prop :=
  (words line).head? = some key.text.toList

instance (key : Key) (line : List Char) : Decidable (StartsWith key line) :=
  inferInstanceAs (Decidable (_ = _))

/-- A recognised line has a number in range as its second word. -/
def WellFormed (line : List Char) : Prop :=
  ∀ key, StartsWith key line → ∃ v w, (words line)[1]? = some w ∧ BeginsWith v w

/-- What a line assigns when the poll gets past it. -/
def assigned (line : List Char) : Option (Key × ℤ) :=
  match entry (pushed line) with
  | .ok e => e
  | .error _ => none

theorem head_pushed (line : List Char) : (pushed line)[0]? = some ((words line).headD []) := by
  unfold pushed
  cases hwords : words line with
  | nil =>
    rw [words_eq_nil_iff] at hwords
    rw [if_neg (not_endsInWord_spaces hwords)]
    rfl
  | cons w ws => rfl

/-- The second word is converted if there is one, and what stands in its place is no number. -/
theorem valueAt_pushed_eq_ok_iff {line : List Char} (hne : words line ≠ []) (v : ℤ) :
    valueAt (pushed line) = .ok v ↔ ∃ w, (words line)[1]? = some w ∧ BeginsWith v w := by
  have hword : ∀ w ∈ words line, Word w := fun w => word_of_mem_words
  unfold pushed
  match hwords : words line with
  | [] => exact absurd hwords hne
  | [first] =>
    have hmissing : valueAt [first] = .error (.noWord 1) := rfl
    have hempty : valueAt [first, []] = .error (.thrown .invalidArgument) := rfl
    split
    · simp [hmissing]
    · simp [hempty]
  | first :: w :: ws =>
    rw [hwords] at hword
    have hw : Word w := hword w (by simp)
    have hvalue : valueAt (first :: w :: ws ++ if EndsInWord line then [] else [[]]) =
        (stoll w).mapError .thrown := rfl
    rw [hvalue]
    simp only [List.getElem?_cons_succ, List.getElem?_cons_zero, Option.some.injEq,
      exists_eq_left']
    rw [← stoll_eq_ok_iff hw]
    cases stoll w with
    | ok u => simp [Except.mapError]
    | error e => simp [Except.mapError]

theorem entry_pushed (line : List Char) :
    entry (pushed line) = match Key.ofName ((words line).headD []) with
      | none => .ok none
      | some key => (fun v => some (key, v)) <$> valueAt (pushed line) := by
  have hname : wordAt (pushed line) 0 = .ok ((words line).headD []) := by
    rw [wordAt, head_pushed]
  unfold entry
  rw [hname]
  change (match Key.ofName ((words line).headD []) with
    | none => pure none
    | some key => do return some (key, ← valueAt (pushed line))) = _
  cases Key.ofName ((words line).headD []) with
  | none => rfl
  | some key =>
    cases valueAt (pushed line) with
    | error e => rfl
    | ok v => rfl

theorem startsWith_iff (key : Key) (line : List Char) :
    StartsWith key line ↔ Key.ofName ((words line).headD []) = some key := by
  rw [ofName_eq_some_iff, StartsWith]
  cases words line with
  | nil =>
    have hne : key.text.toList ≠ [] := (word_text key).1
    simp [Ne.symm hne]
  | cons w ws => simp

theorem words_ne_nil {key : Key} {line : List Char} (h : StartsWith key line) :
    words line ≠ [] := by
  intro hnil
  rw [StartsWith, hnil] at h
  exact absurd h (by simp)

/-- A line with a key assigns the number it has behind it. -/
theorem entry_startsWith {key : Key} {line : List Char} (h : StartsWith key line) (v : ℤ) :
    entry (pushed line) = .ok (some (key, v)) ↔
      ∃ w, (words line)[1]? = some w ∧ BeginsWith v w := by
  rw [← valueAt_pushed_eq_ok_iff (words_ne_nil h), entry_pushed, (startsWith_iff key line).mp h]
  cases valueAt (pushed line) with
  | error e => simp
  | ok u => simp

/-- Any other line assigns nothing. -/
theorem entry_not_startsWith {line : List Char} (h : ∀ key, ¬ StartsWith key line) :
    entry (pushed line) = .ok none := by
  rw [entry_pushed]
  cases hname : Key.ofName ((words line).headD []) with
  | none => rfl
  | some key => exact absurd ((startsWith_iff key line).mpr hname) (h key)

/-- A poll gets past a line exactly when the line is well formed. -/
theorem exists_entry_iff (line : List Char) :
    (∃ e, entry (pushed line) = .ok e) ↔ WellFormed line := by
  constructor
  · intro h key hkey
    obtain ⟨e, he⟩ := h
    rw [entry_pushed, (startsWith_iff key line).mp hkey] at he
    cases hv : valueAt (pushed line) with
    | error fault =>
      rw [hv] at he
      exact absurd he (by simp)
    | ok v => exact ⟨v, (valueAt_pushed_eq_ok_iff (words_ne_nil hkey) v).mp hv⟩
  · intro h
    by_cases hkey : ∃ key, StartsWith key line
    · obtain ⟨key, hkey⟩ := hkey
      obtain ⟨v, hv⟩ := h key hkey
      exact ⟨_, (entry_startsWith hkey v).mpr hv⟩
    · exact ⟨none, entry_not_startsWith (not_exists.mp hkey)⟩

theorem entry_assigned {line : List Char} (h : WellFormed line) :
    entry (pushed line) = .ok (assigned line) := by
  obtain ⟨e, he⟩ := (exists_entry_iff line).mpr h
  rw [assigned, he]

theorem assigned_eq_some {key : Key} {line : List Char} {v : ℤ} (hkey : StartsWith key line)
    (h : ∃ w, (words line)[1]? = some w ∧ BeginsWith v w) : assigned line = some (key, v) := by
  rw [assigned, (entry_startsWith hkey v).mpr h]

theorem startsWith_of_assigned {key : Key} {line : List Char} {v : ℤ}
    (h : assigned line = some (key, v)) : StartsWith key line := by
  rw [startsWith_iff]
  rw [assigned, entry_pushed] at h
  cases hname : Key.ofName ((words line).headD []) with
  | none =>
    rw [hname] at h
    exact absurd h (by simp)
  | some other =>
    rw [hname] at h
    cases hv : valueAt (pushed line) with
    | error fault =>
      rw [hv] at h
      exact absurd h (by simp)
    | ok u =>
      rw [hv] at h
      exact congrArg some (Prod.mk.inj (Option.some.inj h)).1

/-! ### Polls -/

/-- The record with what the lines of a poll assign. -/
def stored (file : Option (List Char)) (m : MenInfo) : MenInfo :=
  ((fileLines file).map assigned).foldl store m

/-- A poll over well formed lines publishes it. -/
theorem updateOnce_wellFormed {file : Option (List Char)}
    (h : ∀ line ∈ fileLines file, WellFormed line) (m : MenInfo) (info : MonitorInfo) :
    updateOnce file m info = .ok (publish info (stored file m)) := by
  rw [updateOnce_eq, mapM_ok (fun line hline => entry_assigned (h line hline))]
  rfl

/-- What the lines of a poll assign, in order. -/
def assignments (file : Option (List Char)) : List (Key × ℤ) := (fileLines file).filterMap assigned

theorem get_stored (file : Option (List Char)) (m : MenInfo) (key : Key) :
    some (get (stored file m) key) =
      ((latest Prod.fst key (assignments file)).map Prod.snd).or (some (get m key)) := by
  have hcontents := congrFun (contents_foldl_store m ((fileLines file).map assigned)) key
  rw [assignAll_apply, List.filterMap_map] at hcontents
  exact hcontents

/-- The figure of a key that is read is the last number assigned to it. -/
theorem exists_latest {file : Option (List Char)} (h : ∀ line ∈ fileLines file, WellFormed line)
    {key : Key} (hread : ∃ line ∈ fileLines file, StartsWith key line) :
    ∃ a, latest Prod.fst key (assignments file) = some a := by
  obtain ⟨line, hline, hkey⟩ := hread
  obtain ⟨v, hv⟩ := h line hline key hkey
  have hmem : (key, v) ∈ assignments file :=
    List.mem_filterMap.mpr ⟨line, hline, assigned_eq_some hkey hv⟩
  rw [← Option.ne_none_iff_exists']
  intro hnone
  exact (latest_eq_none_iff Prod.fst key _).mp hnone (key, v) hmem rfl

/-- A key that is not read keeps what the record held. -/
theorem get_stored_unread {file : Option (List Char)} (m : MenInfo) {key : Key}
    (hunread : ∀ line ∈ fileLines file, ¬ StartsWith key line) :
    get (stored file m) key = get m key := by
  have hnone : latest Prod.fst key (assignments file) = none := by
    rw [latest_eq_none_iff]
    intro a ha heq
    obtain ⟨line, hline, hassigned⟩ := List.mem_filterMap.mp ha
    obtain ⟨other, v⟩ := a
    subst heq
    exact hunread line hline (startsWith_of_assigned hassigned)
  have hget := get_stored file m key
  rw [hnone] at hget
  exact Option.some.inj hget

theorem kbToGB_ne_zero : kbToGB ≠ 0 := by
  norm_num [kbToGB]

/-- The same message means the same record. -/
theorem get_of_publish {info : MonitorInfo} {m n : MenInfo} (h : publish info m = publish info n)
    (key : Key) : get m key = get n key := by
  have hdetail := Option.some.inj (congrArg MonitorInfo.memInfo h)
  have hfigure := congrArg (fun detail => figure detail key) hdetail
  simp only [figure_memDetail, div_left_inj' kbToGB_ne_zero] at hfigure
  exact_mod_cast hfigure

/-- A record of zeros. -/
def cleared : MenInfo := ⟨0, 0, 0, 0, 0, 0, 0, 0, 0, 0, 0, 0, 0, 0, 0, 0, 0, 0, 0⟩

theorem get_cleared (key : Key) : get cleared key = 0 := by
  cases key <;> rfl

/-- A key that is not read shows in the message what the record held. -/
theorem read_of_determined {file : Option (List Char)}
    (h : ∀ line ∈ fileLines file, WellFormed line)
    (hsame : ∀ m n info, updateOnce file m info = updateOnce file n info) (key : Key) :
    ∃ line ∈ fileLines file, StartsWith key line := by
  by_contra hunread
  push Not at hunread
  have hpublished := hsame cleared (cleared.set 1 key) MonitorInfo.default
  rw [updateOnce_wellFormed h, updateOnce_wellFormed h] at hpublished
  have hget := get_of_publish (Except.ok.inj hpublished) key
  rw [get_stored_unread cleared hunread, get_stored_unread _ hunread, get_set, if_pos rfl,
    get_cleared] at hget
  exact absurd hget (by decide)

theorem stored_eq_of_read {file : Option (List Char)}
    (h : ∀ line ∈ fileLines file, WellFormed line)
    (hread : ∀ key, ∃ line ∈ fileLines file, StartsWith key line) (m n : MenInfo) :
    stored file m = stored file n := by
  apply eq_of_get
  intro key
  obtain ⟨a, ha⟩ := exists_latest h (hread key)
  have hm := get_stored file m key
  have hn := get_stored file n key
  rw [ha] at hm hn
  exact Option.some.inj (hm.trans hn.symm)

/-- Over well formed lines, the message does not depend on what the record held before exactly
when every key is read. -/
theorem figures_determined_iff (file : Option (List Char))
    (h : ∀ line ∈ fileLines file, WellFormed line) :
    (∀ m n info, updateOnce file m info = updateOnce file n info) ↔
      ∀ key, ∃ line ∈ fileLines file, StartsWith key line := by
  constructor
  · exact read_of_determined h
  · intro hread m n info
    rw [updateOnce_wellFormed h, updateOnce_wellFormed h, stored_eq_of_read h hread m n]

/-- A file cut off behind its first line. -/
def truncated : List Char := "MemTotal: 2 kB\n".toList

/-- The other figures are those of the record before the poll. -/
theorem truncated_undetermined :
    ¬ ∀ file : Option (List Char), (∀ line ∈ fileLines file, WellFormed line) →
      ∀ m n info, updateOnce file m info = updateOnce file n info := by
  intro h
  have hlines : fileLines (some truncated) = ["MemTotal: 2 kB".toList] := by decide
  have hwell : ∀ line ∈ fileLines (some truncated), WellFormed line := by
    rw [hlines]
    intro line hline
    rw [List.mem_singleton.mp hline, ← exists_entry_iff]
    exact ⟨some (.memTotal, 2), by decide⟩
  obtain ⟨line, hline, hkey⟩ := read_of_determined hwell (h _ hwell) .memFree
  rw [hlines, List.mem_singleton] at hline
  rw [hline] at hkey
  exact absurd hkey (by decide)

/-- A poll returns normally exactly when every recognised line that it reads has a number in
range as its second word. -/
theorem poll_returns_iff (file : Option (List Char)) (m : MenInfo) (info : MonitorInfo) :
    (∃ published, updateOnce file m info = .ok published) ↔
      ∀ line ∈ fileLines file, WellFormed line := by
  constructor
  · intro h line hline
    obtain ⟨published, hpublished⟩ := h
    rw [← exists_entry_iff]
    cases hentry : entry (pushed line) with
    | ok e => exact ⟨e, rfl⟩
    | error fault =>
      rw [updateOnce_eq] at hpublished
      cases hmap : (fileLines file).mapM (fun line => entry (pushed line)) with
      | error other =>
        rw [hmap] at hpublished
        exact absurd hpublished (by simp)
      | ok entries => exact absurd hmap (mapM_error hline hentry entries)
  · intro h
    exact ⟨_, updateOnce_wellFormed h m info⟩

/-- A key without a value is accessed behind the last word. -/
theorem lone_key_faults :
    ¬ ∀ (content : List Char) (m : MenInfo) (info : MonitorInfo),
      ∃ published, updateOnce (some content) m info = .ok published := by
  intro h
  obtain ⟨published, hpublished⟩ := h "MemTotal:\n".toList cleared MonitorInfo.default
  have hfault : (fileLines (some "MemTotal:\n".toList)).mapM (fun line => entry (pushed line)) =
      .error (.noWord 1) := by decide
  rw [updateOnce_eq, hfault] at hpublished
  exact absurd hpublished (by simp)

/-! ### Complete files -/

/-- The line of a key: the key is its first word, and behind blanks a decimal number and
anything may follow. -/
def Reads (key : Key) (n : ℕ) (line : List Char) : Prop :=
  ∃ lead gap digits tail, line = lead ++ (key.text.toList ++ (gap ++ (digits ++ tail))) ∧
    (∀ c ∈ lead, isSpace c = true) ∧ gap ≠ [] ∧ (∀ c ∈ gap, isSpace c = true) ∧
    digits ≠ [] ∧ (∀ c ∈ digits, c.isDigit = true) ∧
    (∀ c cs, tail = c :: cs → c.isDigit = false) ∧ Nat.ofDigitChars 10 digits 0 = n

/-- A file with exactly one line for every key, and any other lines, in any order. -/
structure Listing where
  lines : List (List Char)
  number : Key → ℕ
  nonempty : ∀ line ∈ lines, line ≠ []
  no_newline : ∀ line ∈ lines, '\n' ∉ line
  key_once : ∀ key, ∃ line, lines.filter (fun line => StartsWith key line) = [line] ∧
    Reads key (number key) line
  number_range : ∀ key, number key < 2 ^ 63
  total_pos : 0 < number .memTotal

theorem words_reads {key : Key} {n : ℕ} {line : List Char} (h : Reads key n line)
    (hn : n < 2 ^ 63) :
    StartsWith key line ∧ ∃ w, (words line)[1]? = some w ∧ BeginsWith n w := by
  obtain ⟨lead, gap, digits, tail, rfl, hlead, hgapne, hgap, hne, hdigits, htail, rfl⟩ := h
  have hseparated : Separated (gap ++ (digits ++ tail)) := by
    intro c cs hcons
    cases gap with
    | nil => exact absurd rfl hgapne
    | cons d ds =>
      rw [List.cons_append] at hcons
      rw [← (List.cons.inj hcons).1]
      exact hgap d (List.mem_cons_self ..)
  obtain ⟨w, ws, hrest, hbegins⟩ := words_digits hne hdigits htail hn
  have hwords : words (lead ++ (key.text.toList ++ (gap ++ (digits ++ tail)))) =
      key.text.toList :: w :: ws := by
    rw [words_lead hlead, words_word_append (word_text key) hseparated, words_lead hgap, hrest]
  rw [StartsWith, hwords]
  exact ⟨rfl, w, rfl, hbegins⟩

namespace Listing

def file (f : Listing) : Option (List Char) := some (unlines f.lines)

theorem fileLines_file (f : Listing) : fileLines f.file = f.lines := by
  change linesRead (unlines f.lines) = f.lines
  rw [linesRead, splitOn_unlines f.no_newline, List.dropLast_concat, List.takeWhile_eq_self_iff]
  intro line hline
  simpa using f.nonempty line hline

theorem reads_of_startsWith (f : Listing) {key : Key} {line : List Char} (hline : line ∈ f.lines)
    (hkey : StartsWith key line) : Reads key (f.number key) line := by
  obtain ⟨own, honce, hreads⟩ := f.key_once key
  have hmem : line ∈ f.lines.filter (fun line => StartsWith key line) :=
    List.mem_filter.mpr ⟨hline, by simpa using hkey⟩
  rw [honce, List.mem_singleton] at hmem
  rw [hmem]
  exact hreads

theorem wellFormed (f : Listing) : ∀ line ∈ fileLines f.file, WellFormed line := by
  rw [f.fileLines_file]
  intro line hline key hkey
  exact ⟨f.number key,
    (words_reads (f.reads_of_startsWith hline hkey) (f.number_range key)).2⟩

theorem read (f : Listing) (key : Key) : ∃ line ∈ fileLines f.file, StartsWith key line := by
  obtain ⟨line, honce, hreads⟩ := f.key_once key
  have hmem : line ∈ f.lines.filter (fun line => StartsWith key line) := by
    rw [honce]
    exact List.mem_singleton.mpr rfl
  rw [f.fileLines_file]
  exact ⟨line, List.mem_of_mem_filter hmem, (words_reads hreads (f.number_range key)).1⟩

/-- The record holds the number of every key in the end. -/
theorem get_stored (f : Listing) (m : MenInfo) (key : Key) :
    get (stored f.file m) key = f.number key := by
  obtain ⟨a, ha⟩ := exists_latest f.wellFormed (f.read key)
  obtain ⟨hmem, hkey⟩ := latest_mem Prod.fst ha
  obtain ⟨line, hline, hassigned⟩ := List.mem_filterMap.mp hmem
  obtain ⟨other, v⟩ := a
  obtain rfl : other = key := hkey
  have hstarts := startsWith_of_assigned hassigned
  rw [f.fileLines_file] at hline
  have hnumber := assigned_eq_some hstarts
    (words_reads (f.reads_of_startsWith hline hstarts) (f.number_range other)).2
  rw [hassigned] at hnumber
  have hstored := MemFigures.get_stored f.file m other
  rw [ha] at hstored
  exact (Option.some.inj hstored).trans (Prod.mk.inj (Option.some.inj hnumber)).2

end Listing

theorem usedPercent_memDetail {m : MenInfo} {total avail : ℕ} (htotal : m.total = total)
    (havail : m.avail = avail) (detail : MemInfo) :
    (memDetail m detail).usedPercent = ((total : ℚ) - avail) / total * 100 := by
  simp only [memDetail, htotal, havail]
  push_cast
  rfl

/-- Of a file with exactly one line for every key, each figure is the number of its own key,
whatever the order and the other lines are and whatever the record held before. -/
theorem figures_published (f : Listing) (m : MenInfo) (info : MonitorInfo) :
    ∃ detail, updateOnce f.file m info = .ok { info with memInfo := some detail } ∧
      (∀ key, figure detail key = f.number key / 1000000) ∧
      detail.usedPercent = ((f.number .memTotal : ℚ) - f.number .memAvailable) /
        f.number .memTotal * 100 ∧
      (f.number .memAvailable ≤ f.number .memTotal →
        0 ≤ detail.usedPercent ∧ detail.usedPercent ≤ 100) ∧
      ∀ (g : Listing) (n : MenInfo), g.number = f.number →
        updateOnce g.file n info = updateOnce f.file m info := by
  have hused := usedPercent_memDetail (f.get_stored m .memTotal) (f.get_stored m .memAvailable)
    (info.memInfo.getD {})
  refine ⟨_, updateOnce_wellFormed f.wellFormed m info, ?_, hused, ?_, ?_⟩
  · intro key
    rw [figure_memDetail, f.get_stored, Int.cast_natCast]
    rfl
  · intro havail
    have htotal : (0 : ℚ) < f.number .memTotal := by exact_mod_cast f.total_pos
    have hle : (f.number .memAvailable : ℚ) ≤ f.number .memTotal := by exact_mod_cast havail
    have hnonneg : (0 : ℚ) ≤ f.number .memAvailable := Nat.cast_nonneg _
    rw [hused]
    exact share_bounds htotal (sub_nonneg.mpr hle) (sub_le_self _ hnonneg)
  · intro g n hnumber
    have hstored : stored g.file n = stored f.file m := by
      apply eq_of_get
      intro key
      rw [g.get_stored, f.get_stored, hnumber]
    rw [updateOnce_wellFormed g.wellFormed, updateOnce_wellFormed f.wellFormed, hstored]

/-- A line for a key. -/
def numberLine (key : Key) (n : ℕ) : List Char :=
  key.text.toList ++ ([' '] ++ (Nat.toDigits 10 n ++ " kB".toList))

theorem reads_numberLine (key : Key) (n : ℕ) : Reads key n (numberLine key n) := by
  refine ⟨[], [' '], Nat.toDigits 10 n, " kB".toList, rfl, List.forall_mem_nil _,
    List.cons_ne_nil _ _, List.forall_mem_singleton.mpr rfl, Nat.toDigits_ne_nil, ?_, ?_,
    Nat.ofDigitChars_ten_toDigits⟩
  · intro c hc
    exact Nat.isDigit_of_mem_toDigits (by decide) (by decide) hc
  · intro c cs hcons
    rw [← (List.cons.inj hcons).1]
    rfl

theorem startsWith_numberLine {n : ℕ} (hn : n < 2 ^ 63) (key other : Key) :
    StartsWith key (numberLine other n) ↔ other = key := by
  have hother := (words_reads (reads_numberLine other n) hn).1
  rw [StartsWith] at hother
  rw [StartsWith, hother, Option.some.injEq, ← ofName_eq_some_iff, ofName_text,
    Option.some.injEq]

theorem newline_not_mem_numberLine (key : Key) (n : ℕ) : '\n' ∉ numberLine key n := by
  have htext : '\n' ∉ key.text.toList := by
    cases key <;> decide
  simp only [numberLine, List.mem_append, not_or]
  refine ⟨htext, by decide, ?_, by decide⟩
  intro hmem
  exact absurd (Nat.isDigit_of_mem_toDigits (by decide) (by decide) hmem) (by decide)

/-- A file with one line for every key, in the order of the comparisons. -/
def Listing.ofNumbers (number : Key → ℕ) (hrange : ∀ key, number key < 2 ^ 63)
    (htotal : 0 < number .memTotal) : Listing where
  lines := Key.all.map (fun key => numberLine key (number key))
  number := number
  nonempty := by
    intro line hline
    obtain ⟨key, _, rfl⟩ := List.mem_map.mp hline
    exact List.append_ne_nil_of_left_ne_nil (word_text key).1 _
  no_newline := by
    intro line hline
    obtain ⟨key, _, rfl⟩ := List.mem_map.mp hline
    exact newline_not_mem_numberLine key _
  key_once := by
    intro key
    refine ⟨numberLine key (number key), ?_, reads_numberLine key _⟩
    simp only [List.filter_map, Function.comp_def, startsWith_numberLine (hrange _)]
    cases key <;> rfl
  number_range := hrange
  total_pos := htotal

/-- Nineteen units, eighteen, and so on. -/
def Listing.descending : Listing :=
  .ofNumbers (fun key => 19 - Key.all.idxOf key) (fun key => by omega) (by decide)

/-- Every figure of that file is different. -/
theorem figures_published_descending :
    ∃ detail, updateOnce Listing.descending.file cleared MonitorInfo.default =
        .ok { MonitorInfo.default with memInfo := some detail } ∧
      (∀ key, figure detail key = (19 - Key.all.idxOf key : ℕ) / 1000000) ∧
      detail.usedPercent = (19 - 17) / 19 * 100 := by
  obtain ⟨detail, hpoll, hfigure, hused, -⟩ :=
    figures_published Listing.descending cleared MonitorInfo.default
  exact ⟨detail, hpoll, hfigure, hused⟩

/-- A file of two units for every key. -/
def Listing.two : Listing := .ofNumbers (fun _ => 2) (fun _ => by decide) (by decide)

/-- A record with a number in front of the poll makes no difference to that file. -/
theorem figures_determined_iff_two :
    updateOnce Listing.two.file cleared MonitorInfo.default =
      updateOnce Listing.two.file (cleared.set 7 .memTotal) MonitorInfo.default :=
  (figures_determined_iff Listing.two.file Listing.two.wellFormed).mpr Listing.two.read _ _ _

end NodeMonitor.MemFigures
