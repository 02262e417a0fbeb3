import CuttingPlanes.Constraint.Opb
import CuttingPlanes.Trace.Step

/-!
# Events

What a run has to tell apart from its results. An event is a value; its level
decides whether it is shown.
-/

namespace CuttingPlanes

inductive Level
  | error
  | info
  | debug
  | trace
deriving DecidableEq, Repr

namespace Level

def name : Level → String
  | .error => "ERROR"
  | .info => "INFO"
  | .debug => "DEBUG"
  | .trace => "TRACE"

/-- Whether events of a level are shown; a run that is not verbose shows errors only. -/
def isShown (level : Level) (verbose : Bool) : Bool :=
  match level with
  | .error => true
  | .info | .debug => verbose
  | .trace => false

end Level

inductive Event
  | header (varCount clauseCount : Nat)
  /-- A clause was read; clauses are counted from one. -/
  | clause (count line : Nat) (literals : List Int)
  | comment (text : String)
  /-- Two steps have a sum, which is about to be recorded. -/
  | adding (left right : StepId) (sum : Constraint)
  /-- A derived step was found to be the sum of its hints. -/
  | follows (step left right : StepId)
  | sealedTrace (counts : Counts)
  | summedPigeons (step : StepId)
  | summedHoles (step : StepId)
  | written (counts : Counts)
  /-- All steps of a trace were accepted. -/
  | checked (inputs derived : Nat)
  | started
  | failed (reason : String)
deriving DecidableEq

namespace Event

def level : Event → Level
  | .clause .. | .adding .. => .trace
  | .header .. | .comment .. | .follows .. | .sealedTrace .. | .summedPigeons .. | .summedHoles .. =>
    .debug
  | .written .. | .checked .. | .started => .info
  | .failed .. => .error

def bracketed (literals : List Int) : String :=
  "[" ++ String.intercalate ", " (literals.map fun l => String.ofList (Text.plain l)) ++ "]"

def message : Event → String
  | .header varCount clauseCount =>
    s!"header declares {varCount} variables and {clauseCount} clauses"
  | .clause count line literals => s!"clause {count} on line {line}: {bracketed literals}"
  | .comment text => s!"comment: {text}"
  | .adding left right sum => s!"merging {left.number} and {right.number} into {sum.text}"
  | .follows step left right =>
    s!"step {step.number} follows from {left.number} and {right.number}"
  | .sealedTrace counts =>
    s!"finished proof with {counts.inputs} inputs and {counts.derived} asserts"
  | .summedPigeons step => s!"summed the pigeon constraints into step {step.number}"
  | .summedHoles step => s!"summed the hole constraints into step {step.number}"
  | .written counts =>
    s!"inputs={counts.inputs} asserts={counts.derived} comments={counts.comments}"
  | .checked inputs derived => s!"checked {inputs} inputs and {derived} asserts"
  | .started => "Logging successfully configured"
  | .failed reason => s!"Execution failed, error: {reason}"

end Event

end CuttingPlanes
