import CuttingPlanes.Varint.Accumulation

/-!
# Integers in a buffer

A decoder walks over bytes held in memory. Each call takes the bytes of one
integer, also of a defective one, so that decoding can go on behind a defect.
`decode` wants the whole buffer to be integers.
-/

namespace CuttingPlanes.Varint

/-- Bytes and the offset of the first one not yet taken. -/
structure Decoder where
  data : Array UInt8
  position : Nat
deriving Repr

namespace Decoder

def ofBytes (bytes : List UInt8) : Decoder := ⟨bytes.toArray, 0⟩

/-- Take bytes until the integer that starts at `start` is complete. -/
def takeFrom (start : Nat) (taken : Taken) (d : Decoder) : EStateM.Result Error Decoder Int64 :=
  match _h : d.data[d.position]? with
  | none => .error ⟨.truncated, start⟩ d
  | some b =>
    match taken.push b with
    | .more taken => takeFrom start taken { d with position := d.position + 1 }
    | .done v => .ok v { d with position := d.position + 1 }
    | .defective defect => .error ⟨defect, start⟩ { d with position := d.position + 1 }
termination_by d.data.size - d.position
decreasing_by
  obtain ⟨hlt, _⟩ := Array.getElem?_eq_some_iff.mp _h
  omega

def next : EStateM Error Decoder (Option Int64) := fun d =>
  if d.data.size ≤ d.position then .ok none d
  else
    match takeFrom d.position .nothing d with
    | .ok v d => .ok (some v) d
    | .error e d => .error e d

theorem takeFrom_ok {start : Nat} {taken : Taken} {d d' : Decoder} {v : Int64}
    (h : takeFrom start taken d = .ok v d') : d'.data = d.data ∧ d.position < d'.position := by
  fun_induction takeFrom start taken d with
  | case1 => simp at h
  | case2 taken d b hb taken' hp ih =>
    have := ih h
    exact ⟨this.1, by simp only at this; omega⟩
  | case3 =>
    cases h
    simp
  | case4 => simp at h

theorem next_some {d d' : Decoder} {v : Int64} (h : next d = .ok (some v) d') :
    d'.data.size - d'.position < d.data.size - d.position := by
  unfold next at h
  split at h
  · simp at h
  · split at h
    · rename_i heq
      cases h
      have := takeFrom_ok heq
      rw [this.1]
      omega
    · simp at h

def collect (found : Array Int64) (d : Decoder) : Except Error (List Int64) :=
  match _h : next d with
  | .ok none _ => .ok found.toList
  | .ok (some v) d => collect (found.push v) d
  | .error e _ => .error e
termination_by d.data.size - d.position
decreasing_by exact next_some _h

end Decoder

/-- The integers that a byte string holds, or the first defect. -/
def decode (bytes : List UInt8) : Except Error (List Int64) := (Decoder.ofBytes bytes).collect #[]

end CuttingPlanes.Varint
