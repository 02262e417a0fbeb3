import CuttingPlanes.Trace.Step
import CuttingPlanes.Varint.Encoding

/-!
# Records as bytes

A step is the code of its kind, the code of its relation and integers: the number
of terms, the coefficient and the variable of each, the bound, the number of
hints and the hints. A comment is a star, its length in bytes and its bytes.
Since counts stand before what they count, records need no separators.
-/

namespace CuttingPlanes

namespace Relation

def code : Relation → UInt8
  | .atLeast => '>'.toUInt8
  | .equal => '='.toUInt8

def ofCode? (b : UInt8) : Option Relation := [atLeast, equal].find? (·.code == b)

theorem ofCode?_code (r : Relation) : ofCode? r.code = some r := by
  cases r <;> decide

end Relation

namespace Trace.Binary

open Varint

def commentCode : UInt8 := '*'.toUInt8

/-- The bytes of a count or a number of at most 63 bits. -/
def encodeNat (n : Nat) : List UInt8 := encode (Int64.ofNat n)

def stepPieces (kind : StepKind) (c : Constraint) (hints : List StepId) : List (List UInt8) :=
  [[kind.code, c.relation.code], encodeNat c.form.terms.length] ++
    c.form.terms.flatMap (fun t => [encode t.coeff, encodeNat t.var.number]) ++
    [encode c.bound, encodeNat hints.length] ++ hints.map fun h => encodeNat h.number

def commentPieces (body : List UInt8) : List (List UInt8) :=
  [[commentCode], encodeNat body.length, body]

end Trace.Binary

end CuttingPlanes
