import CuttingPlanes.Trace.Reader
import CuttingPlanes.Trace.Writer

/-!
# Recording a trace again in another format

Every record that a reader delivers is recorded by a writer, until the trace
ends or one of the two reports an error.
-/

namespace CuttingPlanes

inductive TranscodingError
  | read (e : ReadError)
  | write (e : WriteError)
deriving DecidableEq, Repr

def TranscodingError.message : TranscodingError → String
  | .read e => e.message
  | .write e => e.message

namespace Writer

/-- Record a step that already exists; the hints of an input are left out. -/
def recordStep (s : Step) : EStateM WriteError Writer StepId :=
  match s.kind with
  | .input => input s.constraint
  | .derived => derived s.constraint s.hints

def recordAgain : Record → EStateM WriteError Writer Unit
  | .comment text => comment text
  | .step s => discard (recordStep s)

end Writer

/-- Record the rest of a trace. The result is the error that ended it, if any,
and the writer. -/
def transcode (r : Reader) (w : Writer) : Option TranscodingError × Writer :=
  match _h : r.nextRecord with
  | .error e _ => (some (.read e), w)
  | .ok none _ => (none, w)
  | .ok (some record) r =>
    match Writer.recordAgain record w with
    | .ok () w => transcode r w
    | .error e w => (some (.write e), w)
termination_by r.source.rest.length
decreasing_by exact Reader.length_rest_of_nextRecord _h

end CuttingPlanes
