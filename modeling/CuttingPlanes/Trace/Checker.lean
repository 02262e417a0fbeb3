import CuttingPlanes.Event

/-!
# Checking steps

A checker accepts the steps of a trace one at a time. Inputs are accepted as they
are. A derived step needs exactly two hints and has to be the sum of the two
constraints that they name, so its constraint follows from earlier ones. A step
that is not accepted leaves the checker as it was.
-/

namespace CuttingPlanes

/-- Why a step is not accepted. -/
inductive StepError
  | outOfOrder (expected found : StepId)
  | danglingHint (step hint : StepId)
  | notTwoHints (step : StepId) (count : Nat)
  | notSummable (step : StepId) (e : ConstraintError)
  | notTheSum (step : StepId) (given sum : Constraint)
deriving DecidableEq

def StepError.message : StepError → String
  | .outOfOrder expected found => s!"expected step {expected.number}, found step {found.number}"
  | .danglingHint step hint =>
    s!"step {step.number} refers to step {hint.number}, which does not precede it"
  | .notTwoHints step count =>
    s!"step {step.number} has {count} hints, only the sum of two steps can be checked"
  | .notSummable step e => s!"step {step.number} cannot be derived: {e.message}"
  | .notTheSum step given sum =>
    s!"step {step.number} asserts {given.text}, but the sum of its hints is {sum.text}"

/-- The constraints accepted so far in order, and how many of them were inputs
and derived. -/
structure Checker where
  known : Array Constraint
  inputs : Nat
  derived : Nat
  journal : Array Event
deriving DecidableEq

namespace Checker

def new : Checker := ⟨#[], 0, 0, #[]⟩

/-- The number that the next step must have. -/
def next (c : Checker) : StepId := ⟨c.known.size⟩

def acceptInput (c : Checker) (constraint : Constraint) : Checker :=
  { c with known := c.known.push constraint, inputs := c.inputs + 1 }

def acceptSum (c : Checker) (step left right : StepId) (constraint : Constraint) : Checker :=
  { c with
    known := c.known.push constraint
    derived := c.derived + 1
    journal := c.journal.push (.follows step left right) }

/-- Accept a derived step if it is the sum of its two hints. -/
def checkSum (c : Checker) (s : Step) : Except StepError Checker :=
  match s.hints with
  | [left, right] =>
    match c.known[left.index]?, c.known[right.index]? with
    | some l, some r =>
      match l.add r with
      | .error e => .error (.notSummable s.id e)
      | .ok sum =>
        if sum = s.constraint then .ok (c.acceptSum s.id left right s.constraint)
        else .error (.notTheSum s.id s.constraint sum)
    | none, _ => .error (.danglingHint s.id left)
    | _, none => .error (.danglingHint s.id right)
  | hints => .error (.notTwoHints s.id hints.length)

/-- Accept the next step, or say why not. -/
def check (c : Checker) (s : Step) : Except StepError Checker :=
  if s.id ≠ c.next then .error (.outOfOrder c.next s.id)
  else
    match s.hints.find? (s.id ≤ ·) with
    | some hint => .error (.danglingHint s.id hint)
    | none =>
      match s.kind with
      | .input => .ok (c.acceptInput s.constraint)
      | .derived => c.checkSum s

/-- The last accepted step is a contradiction. -/
def concludesContradiction (c : Checker) : Bool :=
  match c.known.back? with
  | some constraint => constraint.isContradiction
  | none => false

end Checker

end CuttingPlanes
