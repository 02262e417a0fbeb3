import CuttingPlanes.CommandLine.Program

/-!
# The program in the system

The program runs in the system and hands on what it leaves.
-/

namespace CuttingPlanes

/-- The fault that the system describes. -/
def faultOfError : IO.Error → Fault
  | .noFileOrDirectory _ code details
  | .interrupted _ code details
  | .alreadyExists _ code details
  | .invalidArgument _ code details
  | .permissionDenied _ code details
  | .resourceExhausted _ code details
  | .inappropriateType _ code details
  | .noSuchThing _ code details
  | .otherError code details
  | .resourceBusy code details
  | .resourceVanished code details
  | .unsupportedOperation code details
  | .hardwareFault code details
  | .unsatisfiedConstraints code details
  | .illegalOperation code details
  | .protocolError code details
  | .timeExpired code details => .medium s!"{details} (os error {code})"
  | .unexpectedEof => .endedEarly
  | .userError details => .medium details

/-- Read chunks until none is left or the system fails. -/
partial def readAll (chunk : USize → IO ByteArray) (held : ByteArray) : IO Source := do
  match ← (chunk 65536).toBaseIO with
  | .error e => return ⟨held.toList, 0, some (faultOfError e)⟩
  | .ok bytes =>
    if bytes.isEmpty then return .ofBytes held.toList else readAll chunk (held ++ bytes)

def openHandle (path : Path) (mode : IO.FS.Mode) : IO (Except Fault IO.FS.Handle) := do
  match ← (IO.FS.Handle.mk path.text mode).toBaseIO with
  | .ok handle => return .ok handle
  | .error e => return .error (faultOfError e)

/-- The system around the program. -/
def system : Surroundings IO where
  input := do
    let input ← IO.getStdin
    readAll input.read .empty
  openFile path := do
    match ← openHandle path .read with
    | .error fault => return .error fault
    | .ok handle => return .ok (← readAll handle.read .empty)
  createFile path := do
    match ← openHandle path .write with
    | .error fault => return .error fault
    | .ok handle =>
      return .ok fun bytes => do
        let write := do
          handle.write bytes.toByteArray
          handle.flush
        match ← write.toBaseIO with
        | .ok _ => return none
        | .error e => return some (faultOfError e)

end CuttingPlanes

open CuttingPlanes

def main (words : List String) : IO UInt32 := do
  let outcome ← program system words
  (← IO.getStderr).putStr outcome.errors
  let output ← IO.getStdout
  output.write outcome.output.toByteArray
  output.flush
  return outcome.status
