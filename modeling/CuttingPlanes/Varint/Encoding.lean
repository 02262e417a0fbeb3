import CuttingPlanes.Varint.Zigzag

/-!
# The bytes of an integer

The zig-zag number of an integer is written in groups of seven bits, the least
significant group first, one group in a byte. The high bit of a byte marks that
more groups follow, so an integer ends at the first byte without it.
-/

namespace CuttingPlanes.Varint

/-- The groups of a number, all but the last marked by the high bit. -/
def groups (u : Nat) : List UInt8 :=
  if u < 128 then [UInt8.ofNat u]
  else UInt8.ofNat (u % 128 + 128) :: groups (u / 128)
termination_by u

def encode (v : Int64) : List UInt8 := groups (zigzag v)

/-- The bytes of integers written one after the other. -/
def encodeAll (vs : List Int64) : List UInt8 := vs.flatMap encode

theorem groups_of_lt {u : Nat} (h : u < 128) : groups u = [UInt8.ofNat u] := by
  rw [groups, if_pos h]

theorem groups_of_le {u : Nat} (h : 128 ≤ u) :
    groups u = UInt8.ofNat (u % 128 + 128) :: groups (u / 128) := by
  rw [groups, if_neg (by omega)]

theorem groups_ne_nil (u : Nat) : groups u ≠ [] := by
  unfold groups
  split <;> simp

@[simp] theorem encodeAll_nil : encodeAll [] = [] := rfl

@[simp] theorem encodeAll_cons (v : Int64) (vs : List Int64) :
    encodeAll (v :: vs) = encode v ++ encodeAll vs := rfl

end CuttingPlanes.Varint
