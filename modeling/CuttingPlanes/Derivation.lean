import CuttingPlanes.Trace.Writer

/-!
# Derivations

A derivation records steps through a writer and remembers their constraints, so
that it can record sums of them. It knows only the steps recorded since it was
started. Every sum names its two summands as hints.
-/

namespace CuttingPlanes

/-- Why a derivation did not record a step. -/
inductive DerivationError
  | write (e : WriteError)
  | unknownStep (id : StepId)
  | constraint (e : ConstraintError)
deriving DecidableEq, Repr

def DerivationError.message : DerivationError → String
  | .write e => e.message
  | .unknownStep id => s!"step {id.number} does not exist"
  | .constraint e => s!"failed to derive constraint: {e.message}"

/-- The writer, the number of the first step that is known, and the constraints
of the known steps in order. -/
structure Derivation where
  writer : Writer
  first : StepId
  known : Array Constraint
deriving DecidableEq

namespace Derivation

/-- Start behind the steps that the writer has recorded so far. -/
def start (w : Writer) : Derivation := ⟨w, w.next, #[]⟩

/-- The constraint of a known step. -/
def constraint? (d : Derivation) (id : StepId) : Option Constraint :=
  if d.first ≤ id then d.known[id.index - d.first.index]? else none

def onWriter {α : Type} (act : EStateM WriteError Writer α) : EStateM DerivationError Derivation α :=
  fun ⟨writer, first, known⟩ =>
    match act writer with
    | .ok a writer => .ok a ⟨writer, first, known⟩
    | .error e writer => .error (.write e) ⟨writer, first, known⟩

def constraint (id : StepId) : EStateM DerivationError Derivation Constraint := fun d =>
  match d.constraint? id with
  | some c => .ok c d
  | none => .error (.unknownStep id) d

def keep (c : Constraint) : EStateM DerivationError Derivation Unit := fun ⟨writer, first, known⟩ =>
  .ok () ⟨writer, first, known.push c⟩

def note (event : Event) : EStateM DerivationError Derivation Unit := fun ⟨writer, first, known⟩ =>
  .ok () ⟨writer.note event, first, known⟩

def input (c : Constraint) : EStateM DerivationError Derivation StepId := do
  let id ← onWriter (Writer.input c)
  keep c
  return id

def comment (text : String) : EStateM DerivationError Derivation Unit :=
  onWriter (Writer.comment text)

/-- Record the sum of two known steps. -/
def add (left right : StepId) : EStateM DerivationError Derivation StepId := do
  let c ← constraint left
  let d ← constraint right
  match c.add d with
  | .error e => throw (.constraint e)
  | .ok sum =>
    note (.adding left right sum)
    let id ← onWriter (Writer.derived sum [left, right])
    keep sum
    return id

/-- Record the sum of several known steps. The steps form a queue: two are taken
from its front and their sum goes to its end, until one step is left. Nothing is
recorded for one step, and no step comes out of none. -/
def sum : List StepId → EStateM DerivationError Derivation (Option StepId)
  | [] => return none
  | [step] => return some step
  | left :: right :: queue => do
    let step ← add left right
    sum (queue ++ [step])
termination_by queue => queue.length

def finish : EStateM DerivationError Derivation Unit := onWriter Writer.finish

end Derivation

end CuttingPlanes
