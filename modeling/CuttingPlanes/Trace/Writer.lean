import CuttingPlanes.Event
import CuttingPlanes.Stream.Outlet
import CuttingPlanes.Trace.Binary.Printer
import CuttingPlanes.Trace.Text.Printer

/-!
# Writing a trace

A writer numbers the steps that it records and keeps their counts. Every record
has reached the sink when the call returns, so an interrupted run leaves the
beginning of a trace. A record is refused when the trace is sealed or when a hint
does not come before the step; a refused record changes nothing.
-/

namespace CuttingPlanes

/-- Why a record was not written. -/
inductive WriteError
  | fault (fault : Fault)
  | danglingHint (step hint : StepId)
  | sealedTrace
deriving DecidableEq, Repr

def WriteError.message : WriteError → String
  | .fault f => s!"failed to write to sink: {f.message}"
  | .danglingHint step hint =>
    s!"step {step.number} refers to step {hint.number}, which has not been recorded before it"
  | .sealedTrace => "the trace is finished and cannot be extended"

structure Writer where
  outlet : Outlet
  format : Format
  next : StepId
  counts : Counts
  isSealed : Bool
  journal : Array Event
deriving DecidableEq

namespace Writer

def new (format : Format) (sink : Sink) : Writer :=
  ⟨.ofSink sink, format, .first, .none, false, #[]⟩

/-- A writer whose output nobody sees. -/
def null : Writer := new .text .discard

def stepPieces (format : Format) (kind : StepKind) (c : Constraint) (hints : List StepId) :
    List (List UInt8) :=
  match format with
  | .text => (Trace.Text.stepPieces kind c hints).map Text.encode
  | .binary => Trace.Binary.stepPieces kind c hints

def commentPieces (format : Format) (text : String) : List (List UInt8) :=
  match format with
  | .text => (Trace.Text.commentPieces text.toList).map Text.encode
  | .binary => Trace.Binary.commentPieces (Text.encode text.toList)

def onOutlet (act : EStateM Fault Outlet Unit) : EStateM WriteError Writer Unit :=
  fun ⟨outlet, format, next, counts, isSealed, journal⟩ =>
    match act outlet with
    | .ok () outlet => .ok () ⟨outlet, format, next, counts, isSealed, journal⟩
    | .error fault outlet => .error (.fault fault) ⟨outlet, format, next, counts, isSealed, journal⟩

/-- Go on only if the trace can be extended. -/
def ensureOpen : EStateM WriteError Writer Unit := fun w =>
  if w.isSealed then .error .sealedTrace w else .ok () w

/-- Go on only if all hints come before the next step. -/
def ensureRecorded (hints : List StepId) : EStateM WriteError Writer Unit := fun w =>
  match hints.find? (w.next ≤ ·) with
  | some hint => .error (.danglingHint w.next hint) w
  | none => .ok () w

/-- Record a step and give its number. -/
def record (kind : StepKind) (c : Constraint) (hints : List StepId) :
    EStateM WriteError Writer StepId := do
  ensureOpen
  ensureRecorded hints
  let format := (← get).format
  onOutlet (Outlet.write (stepPieces format kind c hints))
  modifyGet fun w => (w.next, { w with next := w.next.next, counts := w.counts.addStep kind })

def input (c : Constraint) : EStateM WriteError Writer StepId := record .input c []

def derived (c : Constraint) (hints : List StepId) : EStateM WriteError Writer StepId :=
  record .derived c hints

def comment (text : String) : EStateM WriteError Writer Unit := do
  ensureOpen
  let format := (← get).format
  onOutlet (Outlet.write (commentPieces format text))
  modify fun w => { w with counts := w.counts.addComment }

def note (event : Event) (w : Writer) : Writer := { w with journal := w.journal.push event }

def finish : EStateM WriteError Writer Unit := do
  ensureOpen
  onOutlet Outlet.drain
  modify fun w => { w with isSealed := true }.note (.sealedTrace w.counts)

def close : EStateM WriteError Writer Unit := onOutlet Outlet.drain

end Writer

end CuttingPlanes
