import CuttingPlanes.Stream.Source
import CuttingPlanes.Varint.Accumulation

/-!
# Integers from a source

The bytes of an integer are read one at a time and none behind it is touched, so
that what follows in the source can be read in another way. Offsets in errors
count from where the source started.
-/

namespace CuttingPlanes.Varint

/-- Why no integer could be read. -/
inductive StreamError
  | source (fault : Fault)
  | malformed (error : Error)
deriving DecidableEq, Repr

def StreamError.message : StreamError → String
  | .source fault => fault.message
  | .malformed error => error.message

def readFrom (start : Nat) (taken : Taken) (s : Source) :
    EStateM.Result StreamError Source Int64 :=
  match _h : s.byte? with
  | .error fault s => .error (.source fault) s
  | .ok none s => .error (.malformed ⟨.truncated, start⟩) s
  | .ok (some b) s =>
    match taken.push b with
    | .more taken => readFrom start taken s
    | .done v => .ok v s
    | .defective defect => .error (.malformed ⟨defect, start⟩) s
termination_by s.rest.length
decreasing_by exact Source.length_rest_of_byte?_some _h

/-- The next integer, or nothing if the source ends before it starts. -/
def read? : EStateM StreamError Source (Option Int64) := fun s =>
  if s.rest.isEmpty ∧ s.failure.isNone then .ok none s
  else
    match readFrom s.position .nothing s with
    | .ok v s => .ok (some v) s
    | .error e s => .error e s

theorem advances_readFrom (start : Nat) (taken : Taken) (s : Source) :
    s.Advances (Source.stateAfter (readFrom start taken s)) := by
  fun_induction readFrom start taken s with
  | case1 taken s fault t h => exact Source.advancing_byte?.error h
  | case2 taken s t h => exact Source.advancing_byte?.ok h
  | case3 taken s b t h taken' hp ih => exact (Source.advancing_byte?.ok h).trans ih
  | case4 taken s b t h v hp => exact Source.advancing_byte?.ok h
  | case5 taken s b t h defect hp => exact Source.advancing_byte?.ok h

theorem advancing_read? : Source.Advancing read? := by
  intro s
  unfold read?
  split
  · exact .refl s
  · have h := advances_readFrom s.position .nothing s
    split <;> rename_i heq <;> rw [heq] at h <;> exact h

end CuttingPlanes.Varint
