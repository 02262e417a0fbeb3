import CuttingPlanes.LinearForm.Addition

/-!
# Constraints

A constraint compares a linear form with a bound. Two constraints of one relation
are added side by side, and the result follows from them under every assignment
of integers. A constraint without terms that excludes zero is a contradiction.
-/

namespace CuttingPlanes

inductive Relation
  | atLeast
  | equal
deriving DecidableEq, Repr

namespace Relation

def symbol : Relation → String
  | .atLeast => ">="
  | .equal => "="

/-- Whether a value stands in the relation to a bound. -/
def Holds (r : Relation) (value bound : Int) : Prop :=
  match r with
  | .atLeast => bound ≤ value
  | .equal => value = bound

instance (r : Relation) (value bound : Int) : Decidable (r.Holds value bound) :=
  match r with
  | .atLeast => inferInstanceAs (Decidable (bound ≤ value))
  | .equal => inferInstanceAs (Decidable (value = bound))

end Relation

structure Constraint where
  form : LinearForm
  relation : Relation
  bound : Int64
deriving DecidableEq

/-- Why a constraint cannot be formed. -/
inductive ConstraintError
  | differentRelations (left right : Relation)
  | noVariables
  | repeatedVariable (v : Variable)
  | coefficientOverflow (v : Variable)
  | boundOverflow
deriving DecidableEq, Repr

def ConstraintError.message : ConstraintError → String
  | .differentRelations left right =>
    s!"cannot merge a '{left.symbol}' constraint with a '{right.symbol}' constraint"
  | .noVariables => "a constraint over an empty set of variables was requested"
  | .repeatedVariable v => s!"variable {v.number} occurs more than once"
  | .coefficientOverflow v =>
    s!"the sum of the coefficients of variable {v.number} does not fit in 64 bits"
  | .boundOverflow => "the sum of the bounds does not fit in 64 bits"

namespace Constraint

/-- The constraint holds under an assignment of integers. -/
def Satisfied (a : Variable → Int) (c : Constraint) : Prop :=
  c.relation.Holds (c.form.eval a) c.bound.toInt

/-! ## Forming constraints -/

/-- The constraint over terms given in any order. -/
def ofTerms (ts : List Term) (relation : Relation) (bound : Int64) :
    Except ConstraintError Constraint :=
  match LinearForm.ofTerms ts with
  | .ok form => .ok ⟨form, relation, bound⟩
  | .error v => .error (.repeatedVariable v)

/-- The constraint that gives one coefficient to each of some variables. -/
def uniform (coeff : Int64) (relation : Relation) (bound : Int64) (vars : List Variable) :
    Except ConstraintError Constraint :=
  if vars.isEmpty then .error .noVariables
  else ofTerms (vars.map (⟨coeff, ·⟩)) relation bound

/-- At least one of the variables is true. -/
def atLeastOne : List Variable → Except ConstraintError Constraint := uniform 1 .atLeast 1

/-- At most one of the variables is true, written as a lower bound. -/
def atMostOne : List Variable → Except ConstraintError Constraint := uniform (-1) .atLeast (-1)

/-- Exactly one of the variables is true. -/
def exactlyOne : List Variable → Except ConstraintError Constraint := uniform 1 .equal 1

/-- The constraint that compares the empty sum with a bound. -/
def trivial (relation : Relation) (bound : Int64) : Constraint := ⟨.zero, relation, bound⟩

/-- No terms are left and zero does not stand in the relation to the bound. -/
def isContradiction (c : Constraint) : Bool :=
  c.form.terms.isEmpty && !decide (c.relation.Holds 0 c.bound.toInt)

/-! ## Adding constraints -/

/-- The sum of two constraints of one relation. A coefficient that does not fit
is reported before a bound that does not. -/
def add (c d : Constraint) : Except ConstraintError Constraint :=
  if c.relation ≠ d.relation then .error (.differentRelations c.relation d.relation)
  else
    match c.form.add d.form with
    | .error v => .error (.coefficientOverflow v)
    | .ok form =>
      match fit? (c.bound.toInt + d.bound.toInt) with
      | none => .error .boundOverflow
      | some bound => .ok ⟨form, c.relation, bound⟩

end Constraint

end CuttingPlanes
