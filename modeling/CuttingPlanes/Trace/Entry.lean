import CuttingPlanes.Trace.Step

/-!
# Entries

What a trace spells for one record, before the reader numbers it, and what can be
wrong with it.
-/

namespace CuttingPlanes.Trace

/-- A record without a step number. -/
inductive Entry
  | comment (text : String)
  | step (kind : StepKind) (constraint : Constraint) (hints : List StepId)
deriving DecidableEq

/-- What a line lacks when it ends too early. -/
inductive Part
  | termOrRelation
  | var
  | bound
  | semicolon
deriving DecidableEq, Repr

def Part.name : Part → String
  | .termOrRelation => "a term or a relation"
  | .var => "a variable"
  | .bound => "a bound"
  | .semicolon => "';'"

/-- Why an entry is not a record. -/
inductive Malformation
  | unknownKind (word : String)
  | missing (part : Part)
  | notCoefficient (word : String)
  | notVariable (word : String)
  | notBound (word : String)
  | notSemicolon (word : String)
  | notStepNumber (word : String)
  | inputWithHints
  | notConstraint (e : ConstraintError)
  | endOfTrace
  | unknownRecordCode (code : UInt8)
  | unknownRelationCode (code : UInt8)
  | variableOutOfRange
  | hintOutOfRange
  | negativeLength
  | commentNotText
deriving DecidableEq, Repr

namespace Malformation

def hexadecimal (b : UInt8) : String :=
  String.ofList ['0', 'x', Nat.digitChar (b.toNat / 16), Nat.digitChar (b.toNat % 16)]

def message : Malformation → String
  | unknownKind word => s!"expected i, a, or *. got '{word}'"
  | missing part => s!"unexpected end of line, expected {part.name}"
  | notCoefficient word => s!"'{word}' is not a coefficient"
  | notVariable word => s!"'{word}' is not a variable"
  | notBound word => s!"'{word}' is not a bound"
  | notSemicolon word => s!"expected ';', got '{word}'"
  | notStepNumber word => s!"'{word}' is not a step id"
  | inputWithHints => "input steps cannot have hints"
  | notConstraint e => e.message
  | endOfTrace => "unexpected end of proof"
  | unknownRecordCode code => s!"unknown record code {hexadecimal code}"
  | unknownRelationCode code => s!"unknown relation code {hexadecimal code}"
  | variableOutOfRange => "variable out of range"
  | hintOutOfRange => "hint out of range"
  | negativeLength => "negative length"
  | commentNotText => "comment is not valid UTF-8"

end Malformation

/-- The entry of a step, once its parts are known. -/
def Entry.ofParts (kind : StepKind) (terms : List Term) (relation : Relation) (bound : Int64)
    (hints : List StepId) : Except Malformation Entry :=
  if kind = .input ∧ hints ≠ [] then .error .inputWithHints
  else
    match Constraint.ofTerms terms relation bound with
    | .ok c => .ok (.step kind c hints)
    | .error e => .error (.notConstraint e)

end CuttingPlanes.Trace
