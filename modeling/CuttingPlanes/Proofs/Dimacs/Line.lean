import CuttingPlanes.Dimacs.Line
import CuttingPlanes.Proofs.Text.Numerals
import CuttingPlanes.Proofs.Text.Trimming
import Mathlib.Data.List.Sort

/-!
# What the lines of a DIMACS file say

Each kind of line has a relation between the line and what it contributes to the file,
stated without the reader. A line that the careful reader accepts contributes by these
relations what the reader makes of it, and no other line is accepted
(`readLine_eq_ok_iff`).
-/

namespace CuttingPlanes.Dimacs

open CuttingPlanes.Text

inductive LineKind
  | blank
  | comment
  | header
  | clause
deriving DecidableEq

/-- The first character that is not blank decides. -/
def kindOf (line : List Char) : LineKind :=
  match line.find? (!isBlank ·) with
  | none => .blank
  | some 'c' => .comment
  | some 'p' => .header
  | some _ => .clause

/-- The text of a comment stands behind the first `c`. One space that separates them and
carriage returns at the end of the line do not belong to it. -/
def IsComment (line : List Char) (text : String) : Prop :=
  ∃ blanks body returns, line = blanks ++ 'c' :: (body ++ List.replicate returns '\r') ∧
    (∀ b ∈ blanks, isBlank b = true) ∧ body.getLast? ≠ some '\r' ∧
    (body = ' ' :: text.toList ∨ body.head? ≠ some ' ' ∧ body = text.toList)

/-- The words of a header are `p`, `cnf` and two counts. Literals have to fit into 32 bits
and counts into 64 bits. -/
structure IsHeader (line : List Char) (h : Header) : Prop where
  words : ∃ vars clauses, SplitsInto line [['p'], ['c', 'n', 'f'], vars, clauses] ∧
    IsNatural vars h.varCount ∧ IsNatural clauses h.clauseCount
  varCount_lt : h.varCount < 0x80000000
  clauseCount_lt : h.clauseCount < 0x10000000000000000

/-- The words are literals of the declared variables and a zero behind them. -/
inductive SpellsLiterals (varCount : Nat) : List (List Char) → List Int → Prop
  | zero {w : List Char} (h : IsInteger w 0) : SpellsLiterals varCount [w] []
  | cons {w : List Char} {literal : Int} {ws : List (List Char)} {literals : List Int}
      (h : IsInteger w literal) (hne : literal ≠ 0) (hle : literal.natAbs ≤ varCount)
      (hrest : SpellsLiterals varCount ws literals) :
      SpellsLiterals varCount (w :: ws) (literal :: literals)

/-- The words of the line are one or more literals, no two of one variable, and a zero. -/
structure SpellsClause (varCount : Nat) (line : List Char) (literals : List Int) : Prop where
  words : ∃ ws, SplitsInto line ws ∧ SpellsLiterals varCount ws literals
  ne_nil : literals ≠ []
  distinct : (literals.map Int.natAbs).Nodup

/-- The clause holds the literals of the line in ascending order of their variables. -/
def IsClause (varCount : Nat) (line : List Char) (clause : List Int) : Prop :=
  ∃ literals, SpellsClause varCount line literals ∧ clause.Perm literals ∧
    clause.Pairwise fun l m => l.natAbs < m.natAbs

/-- The line is a clause that stands behind the header. -/
def IsClauseBehind (header : Option Header) (line : List Char) (clause : List Int) : Prop :=
  ∃ declared, header = some declared ∧ IsClause declared.varCount line clause

/-- What a line contributes behind the header, or in front of it if there is none. -/
def Contributes (header : Option Header) (line : List Char) (item : Item) : Prop :=
  match kindOf line with
  | .blank => item = .blank
  | .comment => ∃ text, item = .comment text ∧ IsComment line text
  | .header => ∃ declared, item = .header declared ∧ header = none ∧ IsHeader line declared
  | .clause => ∃ literals, item = .clause literals ∧ IsClauseBehind header line literals

/-! ## Comments -/

variable {line : List Char}

theorem commentText_eq_iff {body : List Char} {text : String} : commentText body = text ↔
    body = ' ' :: text.toList ∨ body.head? ≠ some ' ' ∧ body = text.toList := by
  have hof (cs : List Char) : String.ofList cs = text ↔ cs = text.toList := by
    constructor
    · rintro rfl
      exact String.toList_ofList.symm
    · rintro rfl
      exact String.ofList_toList
  unfold commentText
  split
  · simp [hof]
  · rename_i hspace
    have hhead : body.head? ≠ some ' ' := fun h => by
      obtain ⟨rest, rfl⟩ := List.head?_eq_some_iff.mp h
      exact hspace rest rfl
    rw [hof]
    refine ⟨fun h => .inr ⟨hhead, h⟩, ?_⟩
    rintro (h | ⟨-, h⟩)
    · exact absurd h (hspace _)
    · exact h

theorem isComment_iff {body : List Char} {text : String}
    (hbody : trimStart (dropReturns line) = 'c' :: body) :
    IsComment line text ↔ commentText body = text := by
  rw [commentText_eq_iff]
  constructor
  · rintro ⟨blanks, body', returns, hline, hblanks, hlast, htext⟩
    have htrimmed : trimStart (dropReturns line) = 'c' :: body' :=
      (trimmed_eq_cons_iff (by decide)).mpr ⟨blanks, returns, hline, hblanks, hlast⟩
    rw [hbody] at htrimmed
    cases htrimmed
    exact htext
  · intro htext
    obtain ⟨blanks, returns, hline, hblanks, hlast⟩ := (trimmed_eq_cons_iff (by decide)).mp hbody
    exact ⟨blanks, body, returns, hline, hblanks, hlast, htext⟩

/-! ## Headers -/

theorem count?_eq_some_iff {w : List Char} {n : Nat} :
    count? w = some n ↔ IsNatural w n ∧ n < 0x10000000000000000 := by
  simp [count?, Option.filter_eq_some_iff, natural?_eq_some_iff]

theorem header?_eq_some_iff {h : Header} : header? (words line) = some h ↔ IsHeader line h := by
  constructor
  · intro hh
    unfold header? at hh
    split at hh
    · rename_i p cnf vars clauses hwords
      split at hh
      · rename_i hnames
        obtain ⟨rfl, rfl⟩ := hnames
        obtain ⟨varCount, hvars, hh⟩ := Option.bind_eq_some_iff.mp hh
        obtain ⟨clauseCount, hclauses, hh⟩ := Option.bind_eq_some_iff.mp hh
        split at hh
        · rename_i hlt
          cases hh
          obtain ⟨hvars, -⟩ := count?_eq_some_iff.mp hvars
          obtain ⟨hclauses, hfits⟩ := count?_eq_some_iff.mp hclauses
          exact ⟨⟨vars, clauses, words_eq_iff.mp hwords, hvars, hclauses⟩, hlt, hfits⟩
        · cases hh
      · cases hh
    · cases hh
  · rintro ⟨⟨vars, clauses, hsplit, hvars, hclauses⟩, hlt, hfits⟩
    have hvarCount : count? vars = some h.varCount :=
      count?_eq_some_iff.mpr ⟨hvars, by omega⟩
    have hclauseCount : count? clauses = some h.clauseCount :=
      count?_eq_some_iff.mpr ⟨hclauses, hfits⟩
    simp [hsplit.words_eq, header?, hvarCount, hclauseCount, hlt]

/-! ## Clauses -/

variable {number varCount : Nat} {ws : List (List Char)} {literals clause : List Int}

theorem spellsLiterals_of_readLiterals
    (h : readLiterals number varCount ws = .ok (literals, true)) :
    SpellsLiterals varCount ws literals := by
  fun_induction readLiterals number varCount ws generalizing literals with
  | case1 => cases h
  | case2 => cases h
  | case3 w hzero =>
    cases h
    exact .zero (bind_fit?_eq_some_iff.mp hzero)
  | case4 => cases h
  | case5 => cases h
  | case6 w rest literal hliteral hne hle _ _ _ ih =>
    cases h
    refine .cons (bind_fit?_eq_some_iff.mp hliteral) ?_ (Nat.le_of_not_lt hle) (ih ‹_›)
    exact fun h => hne (Int64.toInt_inj.mp h)
  | case7 => cases h

/-- A word is read as a literal if it is an integer that fits into 64 bits and is not zero. -/
theorem exists_literal_of_fits {w : List Char} {z : Int} (hw : IsInteger w z) (hne : z ≠ 0)
    (hlow : -0x8000000000000000 ≤ z) (hhigh : z < 0x8000000000000000) :
    ∃ literal : Int64, (integer? w).bind fit? = some literal ∧ literal ≠ 0 ∧ literal.toInt = z := by
  have hvalue : (Int64.ofInt z).toInt = z := Int64.toInt_ofInt_of_le hlow hhigh
  refine ⟨Int64.ofInt z, bind_fit?_eq_some_iff.mpr (hvalue.symm ▸ hw), ?_, hvalue⟩
  intro hzero
  rw [hzero] at hvalue
  exact hne hvalue.symm

/-- Literals of the declared variables fit into 64 bits as long as the variables do. -/
theorem readLiterals_of_spellsLiterals (hvars : varCount < 0x80000000)
    (h : SpellsLiterals varCount ws literals) :
    readLiterals number varCount ws = .ok (literals, true) := by
  induction h with
  | @zero w h =>
    have hzero : (integer? w).bind fit? = some 0 := bind_fit?_eq_some_iff.mpr h
    simp [readLiterals, hzero]
  | @cons w literal ws literals h hne hle hrest ih =>
    obtain ⟨k, hliteral, hnonzero, hvalue⟩ := exists_literal_of_fits h hne (by omega) (by omega)
    simp [readLiterals, hliteral, hnonzero, hvalue, Nat.not_lt.mpr hle, ih]

theorem sortLiterals_perm (literals : List Int) : (sortLiterals literals).Perm literals :=
  List.mergeSort_perm literals _

theorem sortLiterals_pairwise (literals : List Int) :
    (sortLiterals literals).Pairwise fun l m => l.natAbs ≤ m.natAbs := by
  have h : (sortLiterals literals).Pairwise fun l m => decide (l.natAbs ≤ m.natAbs) = true :=
    List.pairwise_mergeSort (by simp only [decide_eq_true_eq]; omega)
      (by simp only [Bool.or_eq_true, decide_eq_true_eq]; omega) literals
  exact h.imp of_decide_eq_true

theorem pairwise_of_firstRepeated? (hsorted : literals.Pairwise fun l m => l.natAbs ≤ m.natAbs)
    (h : firstRepeated? literals = none) : literals.Pairwise fun l m => l.natAbs < m.natAbs := by
  fun_induction firstRepeated? literals with
  | case1 => cases h
  | case2 l m rest hne ih =>
    obtain ⟨hl, hsorted⟩ := List.pairwise_cons.mp hsorted
    have hrest := ih hsorted h
    have hlm : l.natAbs < m.natAbs := Nat.lt_of_le_of_ne (hl m List.mem_cons_self) hne
    refine List.pairwise_cons.mpr ⟨fun k hk => ?_, hrest⟩
    rcases List.mem_cons.mp hk with rfl | hk
    · exact hlm
    · exact hlm.trans ((List.pairwise_cons.mp hrest).1 k hk)
  | case3 ls hls =>
    match ls, hls with
    | [], _ => exact .nil
    | [_], _ => exact List.pairwise_singleton _ _
    | l :: m :: rest, hls => exact absurd rfl (hls l m rest)

theorem firstRepeated?_of_pairwise (h : literals.Pairwise fun l m => l.natAbs < m.natAbs) :
    firstRepeated? literals = none := by
  fun_induction firstRepeated? literals with
  | case1 l m rest heq =>
    have hlt := (List.pairwise_cons.mp h).1 m List.mem_cons_self
    omega
  | case2 l m rest _ ih => exact ih (List.pairwise_cons.mp h).2
  | case3 => rfl

/-- Sorted literals repeat no variable exactly when the unsorted ones do not. -/
theorem distinct_iff : (literals.map Int.natAbs).Nodup ↔
    (sortLiterals literals).Pairwise fun l m => l.natAbs < m.natAbs := by
  rw [← ((sortLiterals_perm literals).map Int.natAbs).nodup_iff, List.Nodup, List.pairwise_map]
  constructor
  · intro h
    exact (h.and (sortLiterals_pairwise literals)).imp fun h => Nat.lt_of_le_of_ne h.2 h.1
  · exact List.Pairwise.imp Nat.ne_of_lt

theorem firstRepeated?_sortLiterals :
    firstRepeated? (sortLiterals literals) = none ↔ (literals.map Int.natAbs).Nodup := by
  rw [distinct_iff]
  exact ⟨pairwise_of_firstRepeated? (sortLiterals_pairwise literals), firstRepeated?_of_pairwise⟩

/-- Only sorting puts the literals in ascending order. -/
theorem eq_sortLiterals_iff (hdistinct : (literals.map Int.natAbs).Nodup) :
    clause = sortLiterals literals ↔
      clause.Perm literals ∧ clause.Pairwise fun l m => l.natAbs < m.natAbs := by
  have hpairwise := distinct_iff.mp hdistinct
  constructor
  · rintro rfl
    exact ⟨sortLiterals_perm literals, hpairwise⟩
  · rintro ⟨hperm, hclause⟩
    refine List.Perm.eq_of_pairwise ?_ hclause hpairwise
      (hperm.trans (sortLiterals_perm literals).symm)
    intro l m _ _ hlm hml
    omega

theorem readClause_eq_ok_iff : readClause .careful number varCount ws = .ok clause ↔
    ∃ literals, readLiterals number varCount ws = .ok (literals, true) ∧ literals ≠ [] ∧
      (literals.map Int.natAbs).Nodup ∧ clause = sortLiterals literals := by
  simp only [← firstRepeated?_sortLiterals]
  unfold readClause
  rcases readLiterals number varCount ws with e | ⟨literals, ended⟩
  · simp [bind, Except.bind]
  · cases ended with
    | false => simp [bind, Except.bind, throw, throwThe, MonadExceptOf.throw]
    | true =>
      cases literals with
      | nil => simp [bind, Except.bind, throw, throwThe, MonadExceptOf.throw]
      | cons l ls =>
        cases hrepeated : firstRepeated? (sortLiterals (l :: ls)) with
        | some v => simp [bind, Except.bind, throw, throwThe, MonadExceptOf.throw, hrepeated]
        | none => simp [bind, Except.bind, pure, Except.pure, hrepeated, eq_comm]

theorem readClause_words_iff (hvars : varCount < 0x80000000) :
    readClause .careful number varCount (words line) = .ok clause ↔
      IsClause varCount line clause := by
  rw [readClause_eq_ok_iff]
  constructor
  · rintro ⟨literals, hread, hne, hdistinct, hclause⟩
    have hspells := spellsLiterals_of_readLiterals hread
    exact ⟨literals, ⟨⟨_, splitsInto_words line, hspells⟩, hne, hdistinct⟩,
      (eq_sortLiterals_iff hdistinct).mp hclause⟩
  · rintro ⟨literals, ⟨⟨ws, hsplit, hspells⟩, hne, hdistinct⟩, hclause⟩
    obtain rfl := hsplit.words_eq
    exact ⟨literals, readLiterals_of_spellsLiterals hvars hspells, hne, hdistinct,
      (eq_sortLiterals_iff hdistinct).mpr hclause⟩

/-! ## Lines -/

theorem kindOf_eq_of_trimmed {body : List Char} (hbody : trimStart (dropReturns line) = body) :
    kindOf line = match body.head? with
      | none => .blank
      | some 'c' => .comment
      | some 'p' => .header
      | some _ => .clause := by
  rw [← hbody, head?_trimmed, kindOf]

theorem kindOf_eq_clause (hnil : trimStart (dropReturns line) ≠ [])
    (hc : ∀ text, trimStart (dropReturns line) ≠ 'c' :: text)
    (hp : ∀ rest, trimStart (dropReturns line) ≠ 'p' :: rest) : kindOf line = .clause := by
  rw [kindOf_eq_of_trimmed rfl]
  split
  · rename_i h
    exact absurd (List.head?_eq_none_iff.mp h) hnil
  · rename_i h
    obtain ⟨text, h⟩ := List.head?_eq_some_iff.mp h
    exact absurd h (hc text)
  · rename_i h
    obtain ⟨rest, h⟩ := List.head?_eq_some_iff.mp h
    exact absurd h (hp rest)
  · rfl

/-- The careful reader accepts a line with what it contributes, and no other. -/
theorem readLine_eq_ok_iff {header : Option Header} {item : Item}
    (hheader : ∀ h, header = some h → h.varCount < 0x80000000) :
    readLine .careful header number line = .ok item ↔ Contributes header line item := by
  have hwords := words_trimmed line
  unfold readLine Contributes
  split
  · rename_i hbody
    have hkind : kindOf line = .blank := kindOf_eq_of_trimmed hbody
    simp [hkind, eq_comm]
  · rename_i text hbody
    have hkind : kindOf line = .comment := kindOf_eq_of_trimmed hbody
    simp [hkind, isComment_iff hbody, eq_comm]
  · rename_i rest hbody
    have hkind : kindOf line = .header := kindOf_eq_of_trimmed hbody
    rw [← hbody, hwords, hkind]
    simp only [← header?_eq_some_iff]
    cases header with
    | some h => simp
    | none => cases header? (words line) <;> simp [eq_comm]
  · rename_i hnil hc hp
    rw [kindOf_eq_clause hnil hc hp, hwords]
    cases header with
    | none => simp [IsClauseBehind]
    | some h =>
      have hclause (literals : List Int) : IsClauseBehind (some h) line literals ↔
          readClause .careful number h.varCount (words line) = .ok literals := by
        simp [IsClauseBehind, readClause_words_iff (hheader h rfl)]
      cases hread : readClause .careful number h.varCount (words line) <;>
        simp [hclause, hread, eq_comm]

end CuttingPlanes.Dimacs
