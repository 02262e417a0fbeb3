import CuttingPlanes.Stream.Fault

/-!
# Formulas in conjunctive normal form

A DIMACS file declares the number of its variables and clauses and then lists the
clauses as literals, a negative number standing for a negated variable.
-/

namespace CuttingPlanes.Dimacs

/-- Whether every clause has to be ended by a zero. -/
inductive Mode
  | careful
  | lenient
deriving DecidableEq, Repr

structure Header where
  varCount : Nat
  clauseCount : Nat
deriving DecidableEq, Repr

/-- The declared numbers and the clauses. The literals of a clause stand in
ascending order of their variables. -/
structure Formula where
  varCount : Nat
  declared : Nat
  clauses : List (List Int)
deriving DecidableEq, Repr

inductive ClauseDefect
  | afterEnd (word : String)
  | notLiteral (word : String)
  | notEnded
  | empty
deriving DecidableEq, Repr

def ClauseDefect.message : ClauseDefect → String
  | .afterEnd word => s!"'{word}' follows the terminating 0"
  | .notLiteral word => s!"'{word}' is an invalid DIMACS literal"
  | .notEnded => "the clause is not terminated with a '0'"
  | .empty => "the clause is empty"

/-- Why a file is not a formula. Lines are counted from one. -/
inductive Error
  | fault (fault : Fault)
  | missingHeader (line : Nat)
  | invalidHeader (line : Nat) (text : String)
  | duplicateHeader (line : Nat)
  | malformedClause (line : Nat) (defect : ClauseDefect)
  | literalOutOfRange (line : Nat) (literal : Int) (varCount : Nat)
  | repeatedVariable (line var : Nat)
  | clauseCount (expected found : Nat)
deriving DecidableEq, Repr

def Error.message : Error → String
  | .fault f => s!"failed to read from source: {f.message}"
  | .missingHeader line => s!"line {line}: clause found before the 'p cnf' header"
  | .invalidHeader line text => s!"line {line}: '{text}' is an invalid header"
  | .duplicateHeader line => s!"line {line}: multiple 'p cnf' headers found"
  | .malformedClause line defect => s!"line {line}: malformed clause, {defect.message}"
  | .literalOutOfRange line literal varCount =>
    s!"line {line}: literal {literal} is outside the {varCount} declared variables"
  | .repeatedVariable line var => s!"line {line}: variable {var} occurs more than once in the clause"
  | .clauseCount expected found => s!"expected to parse {expected} clauses, but parsed {found}"

end CuttingPlanes.Dimacs
