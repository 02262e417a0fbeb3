import CuttingPlanes.Proofs.Dimacs.FailFast

/-!
# Literals out of range

A literal whose variable is not declared is refused as out of range as long as it fits into
64 bits. A longer one is refused as well, but not as a number: it is reported as a word that
is no literal (`out_of_range_law`).
-/

namespace CuttingPlanes.Dimacs

open CuttingPlanes.Text Source

/-- The first word that is no literal of the declared variables is an integer out of their
range, and no zero stands in front of it. -/
def LeavesRange (varCount : Nat) (line w : List Char) (z : Int) : Prop :=
  ∃ front rest, SplitsInto line (front ++ w :: rest) ∧
    (∀ u ∈ front, ∃ l, IsInteger u l ∧ l ≠ 0 ∧ l.natAbs ≤ varCount) ∧
    IsInteger w z ∧ varCount < z.natAbs

/-- The reader comes to a clause behind the header, under the number, that leaves the range. -/
def ComesOutOfRange (mode : Mode) (lines : List (List UInt8)) (number varCount : Nat)
    (w : List Char) (z : Int) : Prop :=
  ∃ items line declared, Reaches mode lines number items (encode line) ∧
    items.foldl headerAfter none = some ⟨varCount, declared⟩ ∧
    kindOf line = .clause ∧ LeavesRange varCount line w z

/-- What is reported for a literal that is out of range. -/
def refusalOf (number varCount : Nat) (w : List Char) (z : Int) : Error :=
  if -0x8000000000000000 ≤ z ∧ z < 0x8000000000000000 then .literalOutOfRange number z varCount
  else .malformedClause number (.notLiteral (String.ofList w))

variable {mode : Mode} {number varCount : Nat} {ws : List (List Char)} {w line : List Char}
  {z : Int} {e : Error}

/-! ## Words of a clause -/

/-- Literals of declared variables do not keep the reader from the error behind them. -/
theorem readLiterals_append_of_error {front : List (List Char)} (hvars : varCount < 0x80000000)
    (hfront : ∀ u ∈ front, ∃ l, IsInteger u l ∧ l ≠ 0 ∧ l.natAbs ≤ varCount)
    (h : readLiterals number varCount ws = .error e) :
    readLiterals number varCount (front ++ ws) = .error e := by
  induction front with
  | nil => exact h
  | cons u front ih =>
    obtain ⟨⟨l, hl, hne, hle⟩, hfront⟩ := List.forall_mem_cons.mp hfront
    obtain ⟨k, hliteral, hnonzero, hvalue⟩ := exists_literal_of_fits hl hne (by omega) (by omega)
    simp [readLiterals, hliteral, hnonzero, hvalue, Nat.not_lt.mpr hle, ih hfront]

theorem readLiterals_of_fits (hw : IsInteger w z) (hz : varCount < z.natAbs)
    (hfits : -0x8000000000000000 ≤ z ∧ z < 0x8000000000000000) :
    readLiterals number varCount (w :: ws) = .error (.literalOutOfRange number z varCount) := by
  obtain ⟨k, hliteral, hnonzero, hvalue⟩ := exists_literal_of_fits hw (by omega) hfits.1 hfits.2
  simp [readLiterals, hliteral, hnonzero, hvalue, hz]

theorem readLiterals_of_not_fits (hw : IsInteger w z)
    (hfits : ¬(-0x8000000000000000 ≤ z ∧ z < 0x8000000000000000)) :
    readLiterals number varCount (w :: ws) =
      .error (.malformedClause number (.notLiteral (String.ofList w))) := by
  have hliteral : (integer? w).bind fit? = none := by
    rw [integer?_eq_some_iff.mpr hw, Option.bind_some, fit?_eq_none_iff]
    exact hfits
  simp [readLiterals, hliteral]

/-! ## Lines and sources -/

theorem readClause_of_leavesRange (hvars : varCount < 0x80000000)
    (hleaves : LeavesRange varCount line w z) :
    readClause mode number varCount (words line) = .error (refusalOf number varCount w z) := by
  obtain ⟨front, rest, hsplit, hfront, hw, hz⟩ := hleaves
  have hread : readLiterals number varCount (w :: rest) =
      .error (refusalOf number varCount w z) := by
    unfold refusalOf
    split
    · rename_i hfits
      exact readLiterals_of_fits hw hz hfits
    · rename_i hfits
      exact readLiterals_of_not_fits hw hfits
  rw [readClause_eq, hsplit.words_eq, readLiterals_append_of_error hvars hfront hread]

/-- The reader comes to a line when it accepts those in front. -/
theorem comesOutOfRange_of_follow {q : Progress} {before : List (List UInt8)} {declared : Nat}
    (hbefore : follow mode .nothing before = (q, none))
    (hheader : q.header = some ⟨varCount, declared⟩) (line : List Char)
    (hkind : kindOf line = .clause) (hleaves : LeavesRange varCount line w z)
    (after : List (List UInt8)) :
    ComesOutOfRange mode (before ++ encode line :: after) (before.length + 1) varCount w z := by
  obtain ⟨texts, items, rfl, hreads, rfl⟩ := (follow_eq_none_iff varCount_lt_nothing).mp hbefore
  rw [header_foldl_push] at hheader
  exact ⟨items, line, declared, ⟨texts, after, rfl, by rw [List.length_map], hreads⟩, hheader,
    hkind, hleaves⟩

theorem result_of_comesOutOfRange {s : Source}
    (h : ComesOutOfRange mode s.lines number varCount w z) :
    (read mode s).result = .error (refusalOf number varCount w z) := by
  obtain ⟨items, line, declared, hreaches, hheader, hkind, hleaves⟩ := h
  have hvars : varCount < 0x80000000 := by
    obtain ⟨before, after, -, -, hreads⟩ := hreaches
    exact hreads.varCount_lt varCount_lt_nothing _ hheader
  have hprogress : (items.foldl Progress.push .nothing).header = some ⟨varCount, declared⟩ :=
    (header_foldl_push _ _).trans hheader
  have htake : takeLine mode (items.foldl Progress.push .nothing) (encode line) =
      .error (refusalOf number varCount w z) := by
    rw [takeLine_of_decode? (decode?_encode line), readLine_of_clause hkind, hprogress,
      ← hreaches.number_eq.1]
    simp only [readClause_of_leavesRange hvars hleaves]
    rfl
  rw [read_of_refused (hreaches.follow_eq htake)]

/-- A literal that is the first one out of range is reported as out of range if it fits into
64 bits. Otherwise it is reported as a word that is no literal. -/
theorem out_of_range_law {s : Source} (h : ComesOutOfRange mode s.lines number varCount w z) :
    (-0x8000000000000000 ≤ z ∧ z < 0x8000000000000000 →
      (read mode s).result = .error (.literalOutOfRange number z varCount)) ∧
    (¬(-0x8000000000000000 ≤ z ∧ z < 0x8000000000000000) →
      (read mode s).result =
        .error (.malformedClause number (.notLiteral (String.ofList w)))) := by
  have hresult := result_of_comesOutOfRange h
  constructor
  · intro hfits
    rwa [refusalOf, if_pos hfits] at hresult
  · intro hfits
    rwa [refusalOf, if_neg hfits] at hresult

/-- A header and the least literal of 64 bits behind a literal of a declared variable. -/
def leastLiteral : Source :=
  .ofBytes (encode "p cnf 2 1\n1 -9223372036854775808 0\n".toList)

theorem comesOutOfRange_leastLiteral :
    ComesOutOfRange .lenient leastLiteral.lines 2 2 "-9223372036854775808".toList
      (-9223372036854775808) := by
  have hheader : follow .lenient .nothing [encode "p cnf 2 1".toList] =
      (⟨#[.header ⟨2, 1⟩], some ⟨2, 1⟩⟩, none) := rfl
  refine comesOutOfRange_of_follow hheader rfl "1 -9223372036854775808 0".toList rfl
    ⟨["1".toList], ["0".toList], words_eq_iff.mp rfl, ?_,
      integer?_eq_some_iff.mp rfl, by decide⟩ []
  exact List.forall_mem_singleton.mpr
    ⟨1, integer?_eq_some_iff.mp rfl, by decide, by decide⟩

theorem out_of_range_law_leastLiteral :
    ComesOutOfRange .lenient leastLiteral.lines 2 2 "-9223372036854775808".toList
      (-9223372036854775808) ∧
    (read .lenient leastLiteral).result =
      .error (.literalOutOfRange 2 (-9223372036854775808) 2) :=
  ⟨comesOutOfRange_leastLiteral, (out_of_range_law comesOutOfRange_leastLiteral).1 (by decide)⟩

/-- A header and a literal that is by one too large for 64 bits. -/
def largeLiteral : Source := .ofBytes (encode "p cnf 2 1\n9223372036854775808 0\n".toList)

/-- The literal is out of range and the reader says that it is none. -/
theorem large_literal_is_malformed :
    ComesOutOfRange .careful largeLiteral.lines 2 2 "9223372036854775808".toList
      9223372036854775808 ∧
    (read .careful largeLiteral).result =
      .error (.malformedClause 2 (.notLiteral "9223372036854775808")) := by
  have hheader : follow .careful .nothing [encode "p cnf 2 1".toList] =
      (⟨#[.header ⟨2, 1⟩], some ⟨2, 1⟩⟩, none) := rfl
  have hcomes : ComesOutOfRange .careful largeLiteral.lines 2 2 "9223372036854775808".toList
      9223372036854775808 :=
    comesOutOfRange_of_follow hheader rfl "9223372036854775808 0".toList rfl
      ⟨[], ["0".toList], words_eq_iff.mp rfl, List.forall_mem_nil _, integer?_eq_some_iff.mp rfl,
        by decide⟩ []
  exact ⟨hcomes, result_of_comesOutOfRange hcomes⟩

end CuttingPlanes.Dimacs
