import CuttingPlanes.CommandLine.Execution

/-!
# The program

The program gets hold of what its command needs, runs the command, and puts what it leaves into
the file that it created. What it finds around it is a parameter: the system in `main`, a folder
held in memory in `Folder.run`.
-/

namespace CuttingPlanes

/-- An input and files, as actions of a monad. A file that has been created is empty, and is
given with the action that puts bytes into it, which tells the fault of doing so. -/
structure Surroundings (m : Type → Type) where
  input : m Source
  openFile : Path → m (Except Fault Source)
  createFile : Path → m (Except Fault (List UInt8 → m (Option Fault)))

variable {m : Type → Type} [Monad m]

/-- A file is created before the command starts. -/
def Invocation.perform (around : Surroundings m) (i : Invocation) : m Outcome := do
  match i.command.need with
  | .nothing => return i.run (.ok (.ofBytes []))
  | .standardInput => return i.run (.ok (← around.input))
  | .file path => return i.run (← around.openFile path)
  | .newFile path =>
    match ← around.createFile path with
    | .error fault => return i.run (.error fault)
    | .ok write =>
      let outcome := i.run (.ok (.ofBytes []))
      match ← write outcome.created with
      | none => return outcome
      | some fault => return i.runUnwritable fault

def program (around : Surroundings m) (words : List String) : m Outcome :=
  match Invocation.read? words with
  | some i => i.perform around
  | none => return .misused

end CuttingPlanes
