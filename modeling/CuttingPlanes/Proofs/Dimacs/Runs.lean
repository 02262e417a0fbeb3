import CuttingPlanes.Dimacs.File
import CuttingPlanes.Proofs.Dimacs.Line
import CuttingPlanes.Proofs.Stream.Delivered

/-!
# Reading a DIMACS file line by line

The reader takes the lines that its source delivers one after the other and stops at the
first one that it refuses (`follow`). Nothing else decides what it returns: the error of the
refused line, which has the number of that line, or what is found behind the last line
(`readFrom_eq_follow`). Lines behind a refused one play no part
(`follow_append_of_refused`).
-/

namespace CuttingPlanes.Dimacs

open CuttingPlanes.Text

variable {mode : Mode} {number varCount : Nat} {ws : List (List Char)} {e : Error}

/-! ## Errors of a line -/

/-- The number of the line that an error is about. -/
def Error.line? : Error → Option Nat
  | .missingHeader line => some line
  | .invalidHeader line _ => some line
  | .duplicateHeader line => some line
  | .malformedClause line _ => some line
  | .literalOutOfRange line _ _ => some line
  | .repeatedVariable line _ => some line
  | .fault _ => none
  | .clauseCount _ _ => none

/-- What becomes of the literals of a clause that is at its end. -/
def closeClause (number : Nat) (literals : List Int) : Except Error (List Int) :=
  if literals = [] then .error (.malformedClause number .empty)
  else
    match firstRepeated? (sortLiterals literals) with
    | some var => .error (.repeatedVariable number var)
    | none => .ok (sortLiterals literals)

/-- The modes differ only where the literals are not ended. -/
theorem readClause_eq : readClause mode number varCount ws =
    match readLiterals number varCount ws with
    | .error e => .error e
    | .ok (literals, ended) =>
      if ended = false ∧ mode = .careful then .error (.malformedClause number .notEnded)
      else closeClause number literals := by
  unfold readClause closeClause
  cases readLiterals number varCount ws with
  | error e => rfl
  | ok read =>
    obtain ⟨literals, ended⟩ := read
    by_cases hended : ended = false ∧ mode = .careful
    · obtain ⟨rfl, rfl⟩ := hended
      rfl
    · have hpass : ¬((!ended) = true ∧ mode = .careful) := by simpa using hended
      simp only [bind, Except.bind, hended, hpass, if_false]
      cases literals with
      | nil => rfl
      | cons l literals => cases firstRepeated? (sortLiterals (l :: literals)) <;> rfl

theorem line?_of_readLiterals_error (h : readLiterals number varCount ws = .error e) :
    e.line? = some number := by
  fun_induction readLiterals number varCount ws with
  | case1 => cases h
  | case2 =>
    cases h
    rfl
  | case3 => cases h
  | case4 =>
    cases h
    rfl
  | case5 =>
    cases h
    rfl
  | case6 => cases h
  | case7 w rest literal hliteral hne hle e' hrest ih =>
    cases h
    exact ih hrest

theorem line?_of_closeClause_error {literals : List Int}
    (h : closeClause number literals = .error e) : e.line? = some number := by
  unfold closeClause at h
  split at h
  · cases h
    rfl
  · split at h
    · cases h
      rfl
    · cases h

theorem line?_of_readClause_error (h : readClause mode number varCount ws = .error e) :
    e.line? = some number := by
  rw [readClause_eq] at h
  split at h
  · rename_i hread
    cases h
    exact line?_of_readLiterals_error hread
  · split at h
    · cases h
      rfl
    · exact line?_of_closeClause_error h

/-- A clause line is read by its words and for the header in front of it. -/
theorem readLine_of_clause {header : Option Header} {line : List Char}
    (hkind : kindOf line = .clause) : readLine mode header number line =
      match header with
      | none => .error (.missingHeader number)
      | some h => .clause <$> readClause mode number h.varCount (words line) := by
  rw [← words_trimmed line]
  unfold readLine
  split
  · rename_i hbody
    rw [kindOf_eq_of_trimmed hbody] at hkind
    cases hkind
  · rename_i hbody
    rw [kindOf_eq_of_trimmed hbody] at hkind
    cases hkind
  · rename_i hbody
    rw [kindOf_eq_of_trimmed hbody] at hkind
    cases hkind
  · rfl

/-- Lines other than clauses are read in every mode alike. -/
theorem readLine_of_not_clause {header : Option Header} {line : List Char}
    (hkind : kindOf line ≠ .clause) :
    readLine mode header number line = readLine .careful header number line := by
  unfold readLine
  split
  · rfl
  · rfl
  · rfl
  · rename_i hnil hc hp
    exact absurd (kindOf_eq_clause hnil hc hp) hkind

/-- A line is refused under its own number. -/
theorem line?_of_readLine_error {header : Option Header} {line : List Char}
    (h : readLine mode header number line = .error e) : e.line? = some number := by
  by_cases hkind : kindOf line = .clause
  · rw [readLine_of_clause hkind] at h
    split at h
    · cases h
      rfl
    · rename_i declared
      cases hread : readClause mode number declared.varCount (words line) with
      | ok literals =>
        rw [hread] at h
        cases h
      | error e' =>
        rw [hread] at h
        cases h
        exact line?_of_readClause_error hread
  · unfold readLine at h
    split at h
    · cases h
    · cases h
    · split at h <;> cases h <;> rfl
    · rename_i hnil hc hp
      exact absurd (kindOf_eq_clause hnil hc hp) hkind

/-! ## Lines one after the other -/

variable {p q : Progress} {bytes : List UInt8} {lines : List (List UInt8)}

/-- What the reader makes of the bytes of the next line. -/
def takeLine (mode : Mode) (p : Progress) (bytes : List UInt8) : Except Error Item :=
  match decode? bytes with
  | none => .error (.fault .notText)
  | some line => readLine mode p.header (p.items.size + 1) line

/-- What the lines contribute in front of the first one that is refused, and why it is. -/
def follow (mode : Mode) (p : Progress) : List (List UInt8) → Progress × Option Error
  | [] => (p, none)
  | bytes :: lines =>
    match takeLine mode p bytes with
    | .ok item => follow mode (p.push item) lines
    | .error e => (p, some e)

theorem takeLine_of_decode? {line : List Char} (h : decode? bytes = some line) :
    takeLine mode p bytes = readLine mode p.header (p.items.size + 1) line := by
  rw [takeLine, h]

theorem takeLine_of_undecodable (h : decode? bytes = none) :
    takeLine mode p bytes = .error (.fault .notText) := by
  rw [takeLine, h]

/-- Only bytes that are not UTF-8 are refused without the number of the line. -/
theorem takeLine_error_cases (h : takeLine mode p bytes = .error e) :
    (decode? bytes = none ∧ e = .fault .notText) ∨
    ∃ line, decode? bytes = some line ∧ e.line? = some (p.items.size + 1) := by
  cases hdecode : decode? bytes with
  | none =>
    rw [takeLine_of_undecodable hdecode] at h
    cases h
    exact Or.inl ⟨rfl, rfl⟩
  | some line =>
    rw [takeLine_of_decode? hdecode] at h
    exact Or.inr ⟨line, rfl, line?_of_readLine_error h⟩

theorem follow_cons_of_ok {item : Item} (h : takeLine mode p bytes = .ok item) :
    follow mode p (bytes :: lines) = follow mode (p.push item) lines := by
  rw [follow, h]

theorem follow_cons_of_error (h : takeLine mode p bytes = .error e) :
    follow mode p (bytes :: lines) = (p, some e) := by
  rw [follow, h]

theorem follow_append_of_refused (h : follow mode p lines = (q, some e))
    (after : List (List UInt8)) : follow mode p (lines ++ after) = (q, some e) := by
  induction lines generalizing p with
  | nil => cases h
  | cons bytes lines ih =>
    rw [List.cons_append]
    cases hline : takeLine mode p bytes with
    | ok item =>
      rw [follow_cons_of_ok hline] at h ⊢
      exact ih h
    | error e' =>
      rw [follow_cons_of_error hline] at h ⊢
      exact h

theorem follow_append_of_accepted (h : follow mode p lines = (q, none))
    (after : List (List UInt8)) : follow mode p (lines ++ after) = follow mode q after := by
  induction lines generalizing p with
  | nil =>
    cases h
    rfl
  | cons bytes lines ih =>
    rw [List.cons_append]
    cases hline : takeLine mode p bytes with
    | ok item =>
      rw [follow_cons_of_ok hline] at h ⊢
      exact ih h
    | error e' =>
      rw [follow_cons_of_error hline] at h
      cases h

/-- A refused line stands behind lines that are all accepted. -/
theorem follow_eq_some_iff : follow mode p lines = (q, some e) ↔
    ∃ before bytes after, lines = before ++ bytes :: after ∧
      follow mode p before = (q, none) ∧ takeLine mode q bytes = .error e := by
  constructor
  · intro h
    induction lines generalizing p with
    | nil => cases h
    | cons bytes lines ih =>
      cases hline : takeLine mode p bytes with
      | ok item =>
        rw [follow_cons_of_ok hline] at h
        obtain ⟨before, refused, after, rfl, hbefore, hrefused⟩ := ih h
        refine ⟨bytes :: before, refused, after, rfl, ?_, hrefused⟩
        rw [follow_cons_of_ok hline, hbefore]
      | error e' =>
        rw [follow_cons_of_error hline] at h
        cases h
        exact ⟨[], bytes, lines, rfl, rfl, hline⟩
  · rintro ⟨before, bytes, after, rfl, hbefore, hbytes⟩
    rw [follow_append_of_accepted hbefore, follow_cons_of_error hbytes]

/-! ## Sources -/

theorem size_push (p : Progress) (item : Item) : (p.push item).items.size = p.items.size + 1 := by
  cases item <;> exact Array.size_push ..

theorem size_of_follow (h : follow mode p lines = (q, none)) :
    q.items.size = p.items.size + lines.length := by
  induction lines generalizing p with
  | nil =>
    cases h
    rfl
  | cons bytes lines ih =>
    cases hline : takeLine mode p bytes with
    | ok item =>
      rw [follow_cons_of_ok hline] at h
      rw [ih h, size_push, List.length_cons]
      omega
    | error e =>
      rw [follow_cons_of_error hline] at h
      cases h

/-- What is found behind the last line of a source. -/
def Progress.atEnd (p : Progress) : Option Fault → Except Error Formula
  | none => p.complete
  | some fault => .error (.fault fault)

/-- The result of a run: the error of the refused line, or what is found at the end. -/
def resultOf (failure : Option Fault) : Progress × Option Error → Reading
  | (p, some e) => ⟨p.items.toList, .error e⟩
  | (p, none) => ⟨p.items.toList, p.atEnd failure⟩

/-- Only the lines that a source delivers, and how it ends, decide what is read. -/
theorem readFrom_eq_follow (mode : Mode) (p : Progress) (s : Source) :
    readFrom mode p s = resultOf s.failure (follow mode p s.lines) := by
  fun_induction readFrom mode p s with
  | case1 p s fault t hline =>
    obtain ⟨hlines, hfailure⟩ := Source.lines_of_line?_error hline
    rw [hlines, hfailure]
    rfl
  | case2 p s t hline =>
    obtain ⟨hlines, hfailure⟩ := Source.lines_of_line?_none hline
    rw [hlines, hfailure]
    rfl
  | case3 p s bytes t hline hdecode =>
    rw [Source.lines_of_line?_some hline,
      follow_cons_of_error (takeLine_of_undecodable hdecode)]
    rfl
  | case4 p s bytes t hline line hdecode e hitem =>
    have htake : takeLine mode p bytes = .error e := (takeLine_of_decode? hdecode).trans hitem
    rw [Source.lines_of_line?_some hline, follow_cons_of_error htake]
    rfl
  | case5 p s bytes t hline line hdecode item hitem ih =>
    have htake : takeLine mode p bytes = .ok item := (takeLine_of_decode? hdecode).trans hitem
    have hfailure := (Source.advancing_line?.ok hline).failure_eq
    rw [Source.lines_of_line?_some hline, follow_cons_of_ok htake, ih, hfailure]

theorem readFrom_eq_ok_iff {s : Source} {items : List Item} {f : Formula} :
    readFrom mode p s = ⟨items, .ok f⟩ ↔ s.failure = none ∧
      ∃ q, follow mode p s.lines = (q, none) ∧ items = q.items.toList ∧ q.complete = .ok f := by
  rw [readFrom_eq_follow]
  cases follow mode p s.lines with
  | mk q refusal =>
    cases refusal with
    | some e => simp [resultOf]
    | none =>
      cases s.failure with
      | some fault => simp [resultOf, Progress.atEnd]
      | none => simp [resultOf, Progress.atEnd, eq_comm]

theorem read_eq_follow (mode : Mode) (s : Source) :
    read mode s = resultOf s.failure (follow mode .nothing s.lines) :=
  readFrom_eq_follow mode .nothing s

end CuttingPlanes.Dimacs
