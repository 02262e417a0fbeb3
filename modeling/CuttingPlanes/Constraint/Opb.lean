import CuttingPlanes.Constraint.Basic
import CuttingPlanes.Text.Decimal

/-!
# Constraints as text

A constraint is written as in the OPB format: every coefficient with its sign,
variables as `x` and their number, then the relation and the bound.
-/

namespace CuttingPlanes

def Term.opb (t : Term) : List Char :=
  Text.signed t.coeff.toInt ++ [' ', 'x'] ++ Text.digits t.var.number ++ [' ']

namespace Constraint

def opb (c : Constraint) : List Char :=
  c.form.terms.flatMap Term.opb ++ c.relation.symbol.toList ++ [' '] ++ Text.plain c.bound.toInt

def text (c : Constraint) : String := String.ofList c.opb

end Constraint

end CuttingPlanes
