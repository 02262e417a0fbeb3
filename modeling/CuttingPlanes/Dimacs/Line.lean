import CuttingPlanes.Dimacs.Basic
import CuttingPlanes.Number
import CuttingPlanes.Text.Blank
import CuttingPlanes.Text.Decimal
import CuttingPlanes.Text.Lines

/-!
# The lines of a DIMACS file

The first character behind blanks decides what a line is: `c` starts a comment,
`p` the header, and anything else a clause. A line may be blank.
-/

namespace CuttingPlanes.Dimacs

open CuttingPlanes.Text

/-- What a line contributes to the file. -/
inductive Item
  | blank
  | comment (text : String)
  | header (h : Header)
  | clause (literals : List Int)
deriving DecidableEq, Repr

/-! ## Headers -/

def count? (w : List Char) : Option Nat := (natural? w).filter (· < 0x10000000000000000)

/-- The header that words spell. Literals have to fit into 32 bits. -/
def header? : List (List Char) → Option Header
  | [p, cnf, vars, clauses] =>
    if p = ['p'] ∧ cnf = ['c', 'n', 'f'] then do
      let varCount ← count? vars
      let clauseCount ← count? clauses
      if varCount < 0x80000000 then some ⟨varCount, clauseCount⟩ else none
    else none
  | _ => none

/-! ## Clauses -/

/-- The literals of a clause and whether a zero ends it. -/
def readLiterals (line varCount : Nat) : List (List Char) → Except Error (List Int × Bool)
  | [] => .ok ([], false)
  | w :: rest =>
    match (integer? w).bind fit? with
    | none => .error (.malformedClause line (.notLiteral (String.ofList w)))
    | some literal =>
      if literal = 0 then
        match rest with
        | [] => .ok ([], true)
        | extra :: _ => .error (.malformedClause line (.afterEnd (String.ofList extra)))
      else if varCount < literal.toInt.natAbs then
        .error (.literalOutOfRange line literal.toInt varCount)
      else
        match readLiterals line varCount rest with
        | .ok (literals, ended) => .ok (literal.toInt :: literals, ended)
        | .error e => .error e

/-- The literals by ascending variable; two of one variable keep their order. -/
def sortLiterals (literals : List Int) : List Int :=
  literals.mergeSort fun l m => l.natAbs ≤ m.natAbs

/-- The first variable that also stands in the next literal. -/
def firstRepeated? : List Int → Option Nat
  | l :: m :: rest => if l.natAbs = m.natAbs then some l.natAbs else firstRepeated? (m :: rest)
  | _ => none

def readClause (mode : Mode) (line varCount : Nat) (words : List (List Char)) :
    Except Error (List Int) := do
  let (literals, ended) ← readLiterals line varCount words
  if !ended ∧ mode = .careful then throw (.malformedClause line .notEnded)
  if literals.isEmpty then throw (.malformedClause line .empty)
  match firstRepeated? (sortLiterals literals) with
  | some var => throw (.repeatedVariable line var)
  | none => return sortLiterals literals

/-! ## Lines -/

/-- The text of a comment behind its first character. -/
def commentText : List Char → String
  | ' ' :: text => String.ofList text
  | text => String.ofList text

def readLine (mode : Mode) (header : Option Header) (number : Nat) (line : List Char) :
    Except Error Item :=
  match trimStart (dropReturns line) with
  | [] => .ok .blank
  | 'c' :: text => .ok (.comment (commentText text))
  | 'p' :: rest =>
    match header, header? (words ('p' :: rest)) with
    | some _, _ => .error (.duplicateHeader number)
    | none, some h => .ok (.header h)
    | none, none => .error (.invalidHeader number (String.ofList (trimEnd ('p' :: rest))))
  | body =>
    match header with
    | none => .error (.missingHeader number)
    | some h => .clause <$> readClause mode number h.varCount (words body)

end CuttingPlanes.Dimacs
