/-!
# Faults of a stream

A read or a write can fail for reasons that lie outside the format: the bytes
are no text, they end where one more was needed, or the medium itself refuses.
-/

namespace CuttingPlanes

inductive Fault
  /-- Bytes that had to be text are not UTF-8. -/
  | notText
  /-- The stream ended before a byte that had to be there. -/
  | endedEarly
  /-- The medium failed, and describes why. -/
  | medium (description : String)
deriving DecidableEq, Repr

def Fault.message : Fault → String
  | .notText => "stream did not contain valid UTF-8"
  | .endedEarly => "failed to fill whole buffer"
  | .medium description => description

end CuttingPlanes
