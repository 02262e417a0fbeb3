import CuttingPlanes.Proofs.Dimacs.Runs
import CuttingPlanes.Proofs.Text.Lines

/-!
# Careful and lenient reading

The lenient reader does without the zero at the end of a clause and is as strict as the
careful one in all else. What it reads is what the careful reader reads once every clause
line without a zero has got one at its end (`endClauses`, `lenient_law`).
-/

namespace CuttingPlanes.Dimacs

open CuttingPlanes.Text

/-- The line with a zero behind it. Carriage returns stay at its end. -/
def withZero (line : List Char) : List Char :=
  dropReturns line ++ ' ' :: '0' :: line.drop (dropReturns line).length

/-- A clause line in which no word is zero gets one. -/
def endClause (line : List Char) : List Char :=
  if kindOf line = .clause ∧ ∀ w ∈ words line, integer? w ≠ some 0 then withZero line else line

/-- The bytes of a line get a zero if they spell a clause line without one. -/
def endLine (bytes : List UInt8) : List UInt8 :=
  match decode? bytes with
  | some line => encode (endClause line)
  | none => bytes

/-- The bytes of a file with a zero in every clause line. -/
def endClauses (bytes : List UInt8) : List UInt8 := Source.changeLines endLine bytes

variable {line : List Char} {bytes : List UInt8}

/-! ## Lines with a zero -/

theorem exists_withZero_eq (line : List Char) : ∃ n,
    line = dropReturns line ++ List.replicate n '\r' ∧
      withZero line = dropReturns line ++ ' ' :: '0' :: List.replicate n '\r' := by
  obtain ⟨n, hline⟩ := dropReturns_append_returns line
  refine ⟨n, hline.symm, ?_⟩
  have hdrop : (dropReturns line ++ List.replicate n '\r').drop (dropReturns line).length =
      List.replicate n '\r' := List.drop_left
  rw [hline] at hdrop
  rw [withZero, hdrop]

theorem words_withZero (line : List Char) : words (withZero line) = words line ++ [['0']] := by
  obtain ⟨n, hline, hzero⟩ := exists_withZero_eq line
  have hreturns := isBlank_of_mem_returns n
  have hword : words ('0' :: List.replicate n '\r') = [['0']] := by
    have h := words_append_blank hreturns ['0']
    rw [words_of_isWord (isWord_cons (by decide) (by simp))] at h
    exact h
  rw [hzero, words_append_blank_cons (by decide), hword]
  congr 1
  conv_rhs => rw [hline]
  exact (words_append_blank hreturns _).symm

theorem kindOf_withZero (hkind : kindOf line = .clause) : kindOf (withZero line) = .clause := by
  obtain ⟨n, hline, hzero⟩ := exists_withZero_eq line
  have hnone : (List.replicate n '\r').find? (!isBlank ·) = none :=
    List.find?_eq_none.mpr fun c hc => by simp [isBlank_of_mem_returns n c hc]
  have hfind : line.find? (!isBlank ·) = (dropReturns line).find? (!isBlank ·) := by
    conv_lhs => rw [hline]
    rw [List.find?_append, hnone, Option.or_none]
  unfold kindOf at hkind ⊢
  rw [hzero, List.find?_append, ← hfind]
  cases hfirst : line.find? (!isBlank ·) with
  | none =>
    rw [hfirst] at hkind
    cases hkind
  | some c =>
    rw [hfirst] at hkind
    exact hkind

theorem kindOf_endClause (line : List Char) : kindOf (endClause line) = kindOf line := by
  unfold endClause
  split
  · rename_i h
    rw [kindOf_withZero h.1, h.1]
  · rfl

theorem lf_notMem_endClause (h : '\n' ∉ line) : '\n' ∉ endClause line := by
  unfold endClause
  split
  · obtain ⟨n, hline, hzero⟩ := exists_withZero_eq line
    have hfront : '\n' ∉ dropReturns line := by
      rw [hline] at h
      exact fun hmem => h (List.mem_append_left _ hmem)
    rw [hzero]
    simp [hfront]
  · exact h

theorem endClause_eq_nil_iff : endClause line = [] ↔ line = [] := by
  unfold endClause
  split
  · rename_i h
    have hne : line ≠ [] := by
      rintro rfl
      cases h.1
    simp [withZero, hne]
  · rfl

theorem keepsLines_endLine : Source.KeepsLines endLine := by
  constructor
  · intro bytes hbytes
    unfold endLine
    split
    · rename_i line hdecode
      rw [eq_encode_of_decode? hdecode] at hbytes
      exact lf_notMem_encode (lf_notMem_endClause (lf_notMem_of_encode hbytes))
    · exact hbytes
  · intro bytes
    unfold endLine
    split
    · rename_i line hdecode
      rw [eq_encode_of_decode? hdecode, encode_eq_nil_iff, encode_eq_nil_iff, endClause_eq_nil_iff]
    · rfl

/-! ## Clauses in both modes -/

variable {number varCount : Nat} {ws : List (List Char)} {header : Option Header}

/-- A word that is read as the literal zero is a zero. -/
theorem integer?_eq_zero {w : List Char} (h : (integer? w).bind fit? = some 0) :
    integer? w = some 0 :=
  integer?_eq_some_iff.mpr (bind_fit?_eq_some_iff.mp h)

theorem bind_fit?_of_zero {w : List Char} (h : integer? w = some 0) :
    (integer? w).bind fit? = some 0 := by
  rw [h]
  rfl

theorem readLiterals_append_zero (h : ∀ w ∈ ws, integer? w ≠ some 0) :
    readLiterals number varCount (ws ++ [['0']]) =
      match readLiterals number varCount ws with
      | .ok (literals, _) => .ok (literals, true)
      | .error e => .error e := by
  induction ws with
  | nil => rfl
  | cons w ws ih =>
    obtain ⟨hw, hws⟩ := List.forall_mem_cons.mp h
    unfold readLiterals
    rw [List.cons_append]
    simp only
    cases hvalue : (integer? w).bind fit? with
    | none => rfl
    | some literal =>
      have hne : literal ≠ 0 := by
        rintro rfl
        exact hw (integer?_eq_zero hvalue)
      simp only [hne, if_false]
      split
      · rfl
      · rw [ih hws]
        cases readLiterals number varCount ws <;> rfl

theorem ne_zero_of_readLiterals {literals : List Int}
    (h : readLiterals number varCount ws = .ok (literals, false)) :
    ∀ w ∈ ws, integer? w ≠ some 0 := by
  fun_induction readLiterals number varCount ws generalizing literals with
  | case1 => exact List.forall_mem_nil _
  | case2 => cases h
  | case3 => cases h
  | case4 => cases h
  | case5 => cases h
  | case6 w rest literal hliteral hne hle literals' ended hrest ih =>
    cases h
    refine List.forall_mem_cons.mpr ⟨fun hzero => hne ?_, ih hrest⟩
    exact (Option.some.inj ((bind_fit?_of_zero hzero).symm.trans hliteral)).symm
  | case7 => cases h

theorem readClause_append_zero (h : ∀ w ∈ ws, integer? w ≠ some 0) :
    readClause .careful number varCount (ws ++ [['0']]) =
      readClause .lenient number varCount ws := by
  rw [readClause_eq, readClause_eq, readLiterals_append_zero h]
  cases readLiterals number varCount ws <;> simp

/-- The careful reader differs only at a clause that has no zero. -/
theorem readClause_careful_cases (number varCount : Nat) (ws : List (List Char)) :
    readClause .careful number varCount ws = readClause .lenient number varCount ws ∨
    ((∀ w ∈ ws, integer? w ≠ some 0) ∧
      readClause .careful number varCount ws = .error (.malformedClause number .notEnded)) := by
  rw [readClause_eq, readClause_eq]
  cases hread : readLiterals number varCount ws with
  | error e => exact Or.inl rfl
  | ok read =>
    obtain ⟨literals, ended⟩ := read
    cases ended with
    | true => exact Or.inl rfl
    | false => exact Or.inr ⟨ne_zero_of_readLiterals hread, rfl⟩

/-! ## Lines in both modes -/

/-- A line is read leniently as it is read carefully with a zero at its end. -/
theorem readLine_endClause : readLine .careful header number (endClause line) =
    readLine .lenient header number line := by
  by_cases hkind : kindOf line = .clause
  · rw [readLine_of_clause ((kindOf_endClause line).trans hkind), readLine_of_clause hkind]
    cases header with
    | none => rfl
    | some h =>
      simp only
      unfold endClause
      split
      · rename_i hzero
        rw [words_withZero, readClause_append_zero hzero.2]
      · rename_i hzero
        rcases readClause_careful_cases number h.varCount (words line) with heq | ⟨hall, -⟩
        · rw [heq]
        · exact absurd ⟨hkind, hall⟩ hzero
  · have hsame : endClause line = line := if_neg fun h => hkind h.1
    rw [hsame]
    exact (readLine_of_not_clause hkind).symm

theorem readLine_careful_cases :
    readLine .careful header number line = readLine .lenient header number line ∨
    readLine .careful header number line = .error (.malformedClause number .notEnded) := by
  by_cases hkind : kindOf line = .clause
  · rw [readLine_of_clause hkind, readLine_of_clause hkind]
    cases header with
    | none => exact Or.inl rfl
    | some h =>
      rcases readClause_careful_cases number h.varCount (words line) with heq | ⟨-, hmissing⟩
      · exact Or.inl (congrArg (Item.clause <$> ·) heq)
      · refine Or.inr ?_
        simp only [hmissing]
        rfl
  · exact Or.inl (readLine_of_not_clause hkind).symm

/-- The line as a careful reader wants it. -/
def Mode.spell : Mode → List Char → List Char
  | .careful => id
  | .lenient => endClause

theorem readLine_spell (mode : Mode) : readLine .careful header number (mode.spell line) =
    readLine mode header number line := by
  cases mode with
  | careful => rfl
  | lenient => exact readLine_endClause

theorem kindOf_spell (mode : Mode) (line : List Char) : kindOf (mode.spell line) = kindOf line := by
  cases mode with
  | careful => rfl
  | lenient => exact kindOf_endClause line

theorem map_spell_careful (lines : List (List Char)) : lines.map (Mode.spell .careful) = lines :=
  List.map_id lines

/-! ## Sources in both modes -/

variable {p : Progress}

theorem takeLine_endLine (p : Progress) (bytes : List UInt8) :
    takeLine .careful p (endLine bytes) = takeLine .lenient p bytes := by
  cases hdecode : decode? bytes with
  | none =>
    have hsame : endLine bytes = bytes := by rw [endLine, hdecode]
    rw [hsame, takeLine_of_undecodable hdecode, takeLine_of_undecodable hdecode]
  | some line =>
    have hline : endLine bytes = encode (endClause line) := by rw [endLine, hdecode]
    rw [hline, takeLine_of_decode? (decode?_encode _), takeLine_of_decode? hdecode,
      readLine_endClause]

theorem follow_endLine (p : Progress) (lines : List (List UInt8)) :
    follow .careful p (lines.map endLine) = follow .lenient p lines := by
  induction lines generalizing p with
  | nil => rfl
  | cons bytes lines ih =>
    rw [List.map_cons, follow, follow, takeLine_endLine]
    split
    · exact ih _
    · rfl

theorem follow_careful_cases (p : Progress) (lines : List (List UInt8)) :
    follow .careful p lines = follow .lenient p lines ∨
    ∃ q line, follow .careful p lines = (q, some (.malformedClause line .notEnded)) := by
  induction lines generalizing p with
  | nil => exact Or.inl rfl
  | cons bytes lines ih =>
    have hline : takeLine .careful p bytes = takeLine .lenient p bytes ∨
        takeLine .careful p bytes = .error (.malformedClause (p.items.size + 1) .notEnded) := by
      cases hdecode : decode? bytes with
      | none =>
        exact Or.inl
          ((takeLine_of_undecodable hdecode).trans (takeLine_of_undecodable hdecode).symm)
      | some line =>
        rw [takeLine_of_decode? hdecode, takeLine_of_decode? hdecode]
        exact readLine_careful_cases
    rcases hline with heq | hmissing
    · rw [follow, follow, heq]
      split
      · exact ih _
      · exact Or.inl rfl
    · exact Or.inr ⟨p, _, follow_cons_of_error hmissing⟩

theorem read_endClauses (s : Source) :
    read .careful { s with rest := endClauses s.rest } = read .lenient s := by
  rw [read_eq_follow, read_eq_follow, endClauses, Source.lines_changeLines keepsLines_endLine,
    follow_endLine]

theorem read_careful_cases (s : Source) : read .careful s = read .lenient s ∨
    ∃ line, (read .careful s).result = .error (.malformedClause line .notEnded) := by
  rw [read_eq_follow, read_eq_follow]
  rcases follow_careful_cases .nothing s.lines with heq | ⟨q, line, hmissing⟩
  · exact Or.inl (by rw [heq])
  · exact Or.inr ⟨line, by rw [hmissing]; rfl⟩

/-- What the lenient reader reads from a source, with all comments and with its error if there
is one, is what the careful reader reads when every clause line without a zero has got one. So
a source that the careful reader accepts is read alike in both modes, and so is every source
that the careful reader refuses for anything but a clause that is not ended. -/
theorem lenient_law (s : Source) :
    read .lenient s = read .careful { s with rest := endClauses s.rest } ∧
    (∀ f, (read .careful s).result = .ok f → read .lenient s = read .careful s) ∧
    ((∀ line, (read .careful s).result ≠ .error (.malformedClause line .notEnded)) →
      read .lenient s = read .careful s) := by
  have hsame (hended : ∀ line, (read .careful s).result ≠
      .error (.malformedClause line .notEnded)) : read .lenient s = read .careful s := by
    refine ((read_careful_cases s).resolve_right ?_).symm
    rintro ⟨line, hmissing⟩
    exact hended line hmissing
  refine ⟨(read_endClauses s).symm, fun f haccepted => hsame fun line => ?_, hsame⟩
  rw [haccepted]
  exact nofun

/-- The zero goes in front of the end of the line, and only where there is none. -/
example : endClauses (encode "p cnf 3 2\r\n3 -1\r\n +2 00".toList) =
    encode "p cnf 3 2\r\n3 -1 0\r\n +2 00".toList := by
  cbv

end CuttingPlanes.Dimacs
