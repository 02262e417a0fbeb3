import CuttingPlanes.Proofs.Dimacs.Document

/-!
# Where reading a DIMACS file stops

Reading stops at the first line that contributes nothing where it stands, and the number of
that line, counted from one over lines of all kinds, is the number in the error. What stands
behind the line has no say. A wrong number of clauses is found only when all lines are in
order, and so is a missing header behind the last line (`fail_fast_law`).
-/

namespace CuttingPlanes.Dimacs

open CuttingPlanes.Text Source

/-- The lines in front of the one with the number are in order and contribute the items. -/
def Reaches (mode : Mode) (lines : List (List UInt8)) (number : Nat) (items : List Item)
    (bytes : List UInt8) : Prop :=
  ∃ (before : List (List Char)) (after : List (List UInt8)),
    lines = before.map encode ++ bytes :: after ∧ number = before.length + 1 ∧
      Reads none (before.map mode.spell) items

/-- The line with the number is text and the first line that contributes nothing. -/
def Offends (mode : Mode) (lines : List (List UInt8)) (number : Nat) : Prop :=
  ∃ items line, Reaches mode lines number items (encode line) ∧
    ∀ item, ¬Contributes (items.foldl headerAfter none) (mode.spell line) item

/-- All lines are in order, but there are more or fewer clause lines than the header says. -/
def Miscounts (mode : Mode) (lines : List (List UInt8)) (expected found : Nat)
    (comments : List String) : Prop :=
  ∃ (texts : List (List Char)) (varCount : Nat) (clauses : List (List Int)),
    lines = texts.map encode ∧
    Contains (texts.map mode.spell) ⟨varCount, expected⟩ clauses comments ∧
    found = (texts.filter (kindOf · = .clause)).length ∧ found ≠ expected

/-- All lines are in order, but none is a header. -/
def LacksHeader (mode : Mode) (lines : List (List UInt8)) : Prop :=
  ∃ (texts : List (List Char)) (items : List Item), lines = texts.map encode ∧
    Reads none (texts.map mode.spell) items ∧ items.foldl headerAfter none = none

/-- The errors that are found behind the last of so many lines. -/
def Error.IsAtEnd (lineCount : Nat) : Error → Prop
  | .missingHeader line => line = lineCount + 1
  | .clauseCount _ _ => True
  | _ => False

variable {mode : Mode} {p q : Progress} {e : Error} {lines : List (List UInt8)}
  {bytes : List UInt8} {items : List Item} {number : Nat} {s : Source}

/-! ## The line that is refused -/

theorem varCount_lt_nothing : ∀ h, Progress.nothing.header = some h → h.varCount < 0x80000000 :=
  nofun

/-- A header in front of a line keeps the literals behind it within 32 bits. -/
theorem Reads.varCount_lt {header : Option Header} {texts : List (List Char)}
    (hreads : Reads header texts items)
    (hheader : ∀ h, header = some h → h.varCount < 0x80000000) :
    ∀ h, items.foldl headerAfter header = some h → h.varCount < 0x80000000 := by
  induction hreads with
  | nil => exact hheader
  | cons hitem _ ih => exact ih (hitem.varCount_lt hheader)

/-- The line that the reader comes to is accepted with what it contributes. -/
theorem Reaches.takeLine_eq_ok_iff {line : List Char} {item : Item}
    (h : Reaches mode lines number items (encode line)) :
    takeLine mode (items.foldl Progress.push .nothing) (encode line) = .ok item ↔
      Contributes (items.foldl headerAfter none) (mode.spell line) item := by
  obtain ⟨before, after, -, -, hreads⟩ := h
  have hheader : (items.foldl Progress.push .nothing).header = items.foldl headerAfter none :=
    header_foldl_push .nothing items
  rw [takeLine_encode_eq_ok_iff, hheader]
  rw [hheader]
  exact hreads.varCount_lt varCount_lt_nothing

/-- The reader comes to a line when those in front of it are in order. -/
theorem Reaches.follow_eq (h : Reaches mode lines number items bytes)
    (htake : takeLine mode (items.foldl Progress.push .nothing) bytes = .error e) :
    follow mode .nothing lines = (items.foldl Progress.push .nothing, some e) := by
  obtain ⟨before, after, hlines, -, hreads⟩ := h
  exact follow_eq_some_iff.mpr ⟨_, bytes, after, hlines,
    (follow_eq_none_iff varCount_lt_nothing).mpr ⟨before, items, rfl, hreads, rfl⟩, htake⟩

theorem Reaches.number_eq (h : Reaches mode lines number items bytes) :
    number = (items.foldl Progress.push .nothing).items.size + 1 ∧ number ≤ lines.length := by
  obtain ⟨before, after, rfl, rfl, hreads⟩ := h
  have hbefore : follow mode .nothing (before.map encode) =
      (items.foldl Progress.push .nothing, none) :=
    (follow_eq_none_iff varCount_lt_nothing).mpr ⟨before, items, rfl, hreads, rfl⟩
  have hsize := size_of_follow hbefore
  rw [List.length_map] at hsize
  constructor
  · rw [hsize]
    simp [Progress.nothing]
  · rw [List.length_append, List.length_map, List.length_cons]
    omega

theorem exists_reaches (h : follow mode .nothing lines = (q, some e)) :
    ∃ number items bytes, Reaches mode lines number items bytes ∧
      q = items.foldl Progress.push .nothing ∧ takeLine mode q bytes = .error e := by
  obtain ⟨before, bytes, after, rfl, hbefore, htake⟩ := follow_eq_some_iff.mp h
  obtain ⟨texts, items, rfl, hreads, hq⟩ := (follow_eq_none_iff varCount_lt_nothing).mp hbefore
  exact ⟨_, items, bytes, ⟨texts, after, rfl, rfl, hreads⟩, hq, htake⟩

theorem read_of_refused (h : follow mode .nothing s.lines = (q, some e)) :
    read mode s = ⟨q.items.toList, .error e⟩ := by
  rw [read_eq_follow, h]
  rfl

theorem read_of_accepted (h : follow mode .nothing (linesOf bytes) = (q, none)) :
    read mode (.ofBytes bytes) = ⟨q.items.toList, q.complete⟩ := by
  rw [read_eq_follow, lines_ofBytes, h]
  rfl

/-! ## Errors behind the last line -/

theorem isAtEnd_of_complete (h : p.complete = .error e) : e.IsAtEnd p.items.size := by
  unfold Progress.complete at h
  split at h
  · cases h
    rfl
  · split at h
    · cases h
    · cases h
      trivial

theorem not_isAtEnd_of_takeLine {lineCount : Nat} (h : takeLine mode p bytes = .error e)
    (hlt : p.items.size < lineCount) : ¬e.IsAtEnd lineCount := by
  intro hend
  rcases takeLine_error_cases h with ⟨-, rfl⟩ | ⟨line, -, hnumber⟩
  · exact hend
  · cases e with
    | missingHeader line =>
      have hline : line = p.items.size + 1 := Option.some.inj hnumber
      have hcount : line = lineCount + 1 := hend
      omega
    | clauseCount expected found => cases hnumber
    | _ => exact hend

theorem complete_eq_clauseCount_iff {expected found : Nat} :
    p.complete = .error (.clauseCount expected found) ↔
      ∃ varCount, p.header = some ⟨varCount, expected⟩ ∧ found = p.clauses.length ∧
        found ≠ expected := by
  unfold Progress.complete
  cases hheader : p.header with
  | none => simp
  | some h =>
    obtain ⟨varCount, clauseCount⟩ := h
    simp only
    split
    · rename_i hcount
      refine ⟨nofun, ?_⟩
      rintro ⟨varCount', heq, rfl, hne⟩
      cases heq
      exact absurd hcount.symm hne
    · rename_i hcount
      constructor
      · intro h
        cases h
        exact ⟨varCount, rfl, rfl, fun heq => hcount heq.symm⟩
      · rintro ⟨varCount', heq, rfl, -⟩
        cases heq
        rfl

theorem complete_eq_missingHeader_iff {line : Nat} :
    p.complete = .error (.missingHeader line) ↔ p.header = none ∧ line = p.items.size + 1 := by
  unfold Progress.complete
  cases hheader : p.header with
  | none => simp [eq_comm]
  | some h =>
    simp only [reduceCtorEq, false_and, iff_false]
    split <;> exact nofun

/-- An error is found on a line or behind the last one. -/
theorem error_cases (h : (read mode (.ofBytes bytes)).result = .error e) :
    (∃ q, follow mode .nothing (linesOf bytes) = (q, some e) ∧
      ¬e.IsAtEnd (linesOf bytes).length) ∨
    ∃ q, follow mode .nothing (linesOf bytes) = (q, none) ∧ q.complete = .error e ∧
      e.IsAtEnd (linesOf bytes).length := by
  cases hrun : follow mode .nothing (linesOf bytes) with
  | mk q refusal =>
    cases refusal with
    | some e' =>
      rw [read_of_refused (by rwa [lines_ofBytes])] at h
      obtain rfl := Except.error.inj h
      obtain ⟨number, items, line, hreaches, rfl, htake⟩ := exists_reaches hrun
      obtain ⟨hnumber, hle⟩ := hreaches.number_eq
      exact Or.inl ⟨_, rfl, not_isAtEnd_of_takeLine htake (by omega)⟩
    | none =>
      rw [read_of_accepted hrun] at h
      have hsize := size_of_follow hrun
      have hend := isAtEnd_of_complete h
      rw [hsize] at hend
      exact Or.inr ⟨q, rfl, h, by simpa [Progress.nothing] using hend⟩

/-! ## The law -/

/-- The text fails on one of its lines, or behind them, and what that says of the lines. -/
structure FailFast (mode : Mode) (bytes : List UInt8) : Prop where
  /-- What follows the line feed of a text that fails on a line changes nothing. -/
  stable : bytes.getLast? = some 10 → ∀ e, (read mode (.ofBytes bytes)).result = .error e →
    ¬e.IsAtEnd (linesOf bytes).length →
    ∀ suffix, read mode (.ofBytes (bytes ++ suffix)) = read mode (.ofBytes bytes)
  line_number : ∀ number,
    (∃ e, (read mode (.ofBytes bytes)).result = .error e ∧ e.line? = some number ∧
      ¬e.IsAtEnd (linesOf bytes).length) ↔ Offends mode (linesOf bytes) number
  notText : (read mode (.ofBytes bytes)).result = .error (.fault .notText) ↔
    ∃ number items line, Reaches mode (linesOf bytes) number items line ∧ decode? line = none
  clauseCount : ∀ expected found comments,
    ((read mode (.ofBytes bytes)).result = .error (.clauseCount expected found) ∧
      (read mode (.ofBytes bytes)).comments = comments) ↔
      Miscounts mode (linesOf bytes) expected found comments
  missingHeader : (read mode (.ofBytes bytes)).result =
    .error (.missingHeader ((linesOf bytes).length + 1)) ↔ LacksHeader mode (linesOf bytes)

theorem read_append (hlf : bytes.getLast? = some 10)
    (h : (read mode (.ofBytes bytes)).result = .error e)
    (hend : ¬e.IsAtEnd (linesOf bytes).length) (suffix : List UInt8) :
    read mode (.ofBytes (bytes ++ suffix)) = read mode (.ofBytes bytes) := by
  rcases error_cases h with ⟨q, hrun, -⟩ | ⟨q, -, -, hend'⟩
  · have hlonger : follow mode .nothing (ofBytes (bytes ++ suffix)).lines = (q, some e) := by
      rw [lines_ofBytes, linesOf_append hlf]
      exact follow_append_of_refused hrun _
    rw [read_of_refused hlonger, read_of_refused (by rwa [lines_ofBytes])]
  · exact absurd hend' hend

theorem error_iff_offends : (∃ e, (read mode (.ofBytes bytes)).result = .error e ∧
    e.line? = some number ∧ ¬e.IsAtEnd (linesOf bytes).length) ↔
      Offends mode (linesOf bytes) number := by
  constructor
  · rintro ⟨e, h, hline, hend⟩
    rcases error_cases h with ⟨q, hrun, -⟩ | ⟨q, -, -, hend'⟩
    · obtain ⟨number', items, bytes', hreaches, rfl, htake⟩ := exists_reaches hrun
      rcases takeLine_error_cases htake with ⟨-, rfl⟩ | ⟨line, hdecode, hnumber⟩
      · cases hline
      · rw [hline, ← hreaches.number_eq.1] at hnumber
        obtain rfl := Option.some.inj hnumber
        obtain rfl := eq_encode_of_decode? hdecode
        refine ⟨items, line, hreaches, fun item hitem => ?_⟩
        rw [hreaches.takeLine_eq_ok_iff.mpr hitem] at htake
        cases htake
    · exact absurd hend' hend
  · rintro ⟨items, line, hreaches, hnothing⟩
    obtain ⟨hnumber, hle⟩ := hreaches.number_eq
    cases htake : takeLine mode (items.foldl Progress.push .nothing) (encode line) with
    | ok item => exact absurd (hreaches.takeLine_eq_ok_iff.mp htake) (hnothing item)
    | error e =>
      have hrun := hreaches.follow_eq htake
      refine ⟨e, ?_, ?_, not_isAtEnd_of_takeLine htake (by omega)⟩
      · rw [read_of_refused (by rwa [lines_ofBytes])]
      · rcases takeLine_error_cases htake with ⟨hdecode, -⟩ | ⟨line', -, hline⟩
        · rw [decode?_encode] at hdecode
          cases hdecode
        · rw [hline, hnumber]

theorem notText_iff : (read mode (.ofBytes bytes)).result = .error (.fault .notText) ↔
    ∃ number items line, Reaches mode (linesOf bytes) number items line ∧ decode? line = none := by
  constructor
  · intro h
    rcases error_cases h with ⟨q, hrun, -⟩ | ⟨q, -, -, hend⟩
    · obtain ⟨number, items, line, hreaches, -, htake⟩ := exists_reaches hrun
      rcases takeLine_error_cases htake with ⟨hdecode, -⟩ | ⟨-, -, hline⟩
      · exact ⟨number, items, line, hreaches, hdecode⟩
      · cases hline
    · cases hend
  · rintro ⟨number, items, line, hreaches, hdecode⟩
    have hrun := hreaches.follow_eq (takeLine_of_undecodable hdecode)
    rw [read_of_refused (by rwa [lines_ofBytes])]

theorem Contains.length_clauses {texts : List (List Char)} {h : Header}
    {clauses : List (List Int)} {comments : List String}
    (hcontains : Contains (texts.map mode.spell) h clauses comments) :
    clauses.length = (texts.filter (kindOf · = .clause)).length := by
  rw [← hcontains.clauses.length_eq, List.filter_map, List.length_map]
  congr 1
  refine List.filter_congr fun text _ => ?_
  rw [Function.comp_apply, kindOf_spell]

theorem miscounted_iff {expected found : Nat} {comments : List String} :
    ((read mode (.ofBytes bytes)).result = .error (.clauseCount expected found) ∧
      (read mode (.ofBytes bytes)).comments = comments) ↔
      Miscounts mode (linesOf bytes) expected found comments := by
  constructor
  · rintro ⟨h, rfl⟩
    rcases error_cases h with ⟨q, -, hend⟩ | ⟨q, hrun, hcomplete, -⟩
    · exact absurd trivial hend
    · obtain ⟨texts, items, hlines, hreads, hq⟩ :=
        (follow_eq_none_iff varCount_lt_nothing).mp hrun
      obtain ⟨varCount, hheader, hfound, hne⟩ := complete_eq_clauseCount_iff.mp hcomplete
      rw [hq, header_foldl_push] at hheader
      rw [hq, clauses_foldl_push] at hfound
      have hcontains := hreads.contains hheader
      have hcomments : (read mode (.ofBytes bytes)).comments = items.filterMap Item.comment? := by
        rw [read_of_accepted hrun, hq]
        exact congrArg (List.filterMap Item.comment?) (items_foldl_push .nothing items)
      rw [hcomments]
      exact ⟨texts, varCount, _, hlines, hcontains, hfound.trans hcontains.length_clauses, hne⟩
  · rintro ⟨texts, varCount, clauses, hlines, hcontains, hfound, hne⟩
    obtain ⟨items, hreads, hheader, hclauses, hcomments⟩ := hcontains.exists_reads
    have hrun := (follow_eq_none_iff varCount_lt_nothing).mpr ⟨texts, items, hlines, hreads, rfl⟩
    rw [read_of_accepted hrun]
    refine ⟨complete_eq_clauseCount_iff.mpr ⟨varCount, ?_, ?_, hne⟩, ?_⟩
    · rw [header_foldl_push]
      exact hheader
    · rw [clauses_foldl_push, hclauses, hcontains.length_clauses, hfound]
    · rw [← hcomments]
      exact congrArg (List.filterMap Item.comment?) (items_foldl_push .nothing items)

theorem missingHeader_iff : (read mode (.ofBytes bytes)).result =
    .error (.missingHeader ((linesOf bytes).length + 1)) ↔ LacksHeader mode (linesOf bytes) := by
  constructor
  · intro h
    rcases error_cases h with ⟨q, -, hend⟩ | ⟨q, hrun, hcomplete, -⟩
    · exact absurd rfl hend
    · obtain ⟨texts, items, hlines, hreads, rfl⟩ :=
        (follow_eq_none_iff varCount_lt_nothing).mp hrun
      obtain ⟨hheader, -⟩ := complete_eq_missingHeader_iff.mp hcomplete
      rw [header_foldl_push] at hheader
      exact ⟨texts, items, hlines, hreads, hheader⟩
  · rintro ⟨texts, items, hlines, hreads, hheader⟩
    have hrun := (follow_eq_none_iff varCount_lt_nothing).mpr ⟨texts, items, hlines, hreads, rfl⟩
    rw [read_of_accepted hrun]
    refine complete_eq_missingHeader_iff.mpr ⟨(header_foldl_push _ _).trans hheader, ?_⟩
    rw [size_of_follow hrun]
    simp [Progress.nothing]

/-- Where and why reading fails. On a line it fails at the first one that is out of order, under
the number of that line, and stays so whatever follows the line. Behind the last line it fails
when all lines are in order: for a wrong number of clauses, or because there is no header. -/
theorem fail_fast_law (mode : Mode) (bytes : List UInt8) : FailFast mode bytes :=
  ⟨fun hlf _ h hend => read_append hlf h hend, fun _ => error_iff_offends, notText_iff,
    fun _ _ _ => miscounted_iff, missingHeader_iff⟩

/-- Comments, blank lines and the header count, and the line behind the refused one does not. -/
example : (read .careful (.ofBytes (encode
    "c\np cnf 3 2\n\n1 1 0\n4 0\n".toList))).result = .error (.repeatedVariable 4 1) := by
  cbv

end CuttingPlanes.Dimacs
