import CuttingPlanes.Dimacs.Basic
import CuttingPlanes.Pigeonhole
import CuttingPlanes.Trace.Verification
import CuttingPlanes.Varint.Accumulation

/-!
# Failures of a command
-/

namespace CuttingPlanes

/-- Why a command did not succeed. -/
inductive Failure
  | fault (fault : Fault)
  | formula (e : Dimacs.Error)
  | pigeonhole (e : PigeonholeError)
  | verification (e : VerificationError)
  | noContradiction
  | varint (e : Varint.Error)
  | notAnInteger (word : String)
deriving DecidableEq

def Failure.message : Failure → String
  | .fault f => s!"IO error, more details: {f.message}"
  | .formula e => s!"The CNF file was invalid, more details: {e.message}"
  | .pigeonhole e => e.message
  | .verification (.read e) => s!"Failed to read the proof, more details: {e.message}"
  | .verification (.step e) => s!"The proof is invalid, more details: {e.message}"
  | .noContradiction => "The proof does not end in a contradiction."
  | .varint e => s!"The varint stream was invalid, more details: {e.message}"
  | .notAnInteger word => s!"'{word}' is not an integer."

end CuttingPlanes
