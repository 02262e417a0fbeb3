import CuttingPlanes.Varint.Zigzag

/-!
# Taking the bytes of an integer one at a time

At most ten groups belong to an integer: with the eleventh byte it is out of
range, whatever that byte holds. An integer is refused as well when it is not in
its shortest form, that is when the last of several groups is zero or when the
zig-zag number is one.
-/

namespace CuttingPlanes.Varint

/-- What can be wrong with the bytes of an integer. -/
inductive Defect
  | truncated
  | overflow
  | nonCanonical
deriving DecidableEq, Repr

/-- A defect of the integer that starts at a byte offset. -/
structure Error where
  defect : Defect
  offset : Nat
deriving DecidableEq, Repr

def Error.message (e : Error) : String :=
  match e.defect with
  | .truncated => s!"the stream ends in the middle of an integer starting at byte {e.offset}"
  | .overflow => s!"the integer starting at byte {e.offset} does not fit in 64 bits"
  | .nonCanonical => s!"the integer starting at byte {e.offset} is not in its shortest encoding"

/-- The number of groups taken so far and the number that they hold. -/
structure Taken where
  count : Nat
  value : Nat
deriving DecidableEq, Repr

/-- What one more byte makes of the groups taken so far. -/
inductive Progress
  | more (taken : Taken)
  | done (v : Int64)
  | defective (d : Defect)
deriving DecidableEq, Repr

namespace Taken

def nothing : Taken := ⟨0, 0⟩

def push (t : Taken) (b : UInt8) : Progress :=
  if 10 ≤ t.count then .defective .overflow
  else
    let value := t.value + b.toNat % 128 * Nat.pow 128 t.count
    if 128 ≤ b.toNat then .more ⟨t.count + 1, value⟩
    else if (b = 0 ∧ 0 < t.count) ∨ value = 1 then .defective .nonCanonical
    else
      match unzigzag? value with
      | some v => .done v
      | none => .defective .overflow

end Taken

end CuttingPlanes.Varint
