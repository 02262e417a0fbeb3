import CuttingPlanes.Trace.Checker
import CuttingPlanes.Trace.Reader

/-!
# Verifying a trace

The steps of a trace go through a checker in order. `verify` stops at the first
step that is not accepted; `audit` goes on and tells what became of every step.
-/

namespace CuttingPlanes

inductive VerificationError
  | read (e : ReadError)
  | step (e : StepError)
deriving DecidableEq

def VerificationError.message : VerificationError → String
  | .read e => e.message
  | .step e => e.message

/-- Why a step was not accepted, if it was not, and the checker behind it. -/
structure Verdict where
  refusal : Option StepError
  checker : Checker
deriving DecidableEq

namespace Checker

def judge (c : Checker) (s : Step) : Verdict :=
  match c.check s with
  | .ok c => ⟨none, c⟩
  | .error e => ⟨some e, c⟩

/-- Check the rest of a trace up to the first step that is not accepted. -/
def verify (c : Checker) (r : Reader) : EStateM.Result VerificationError Checker Unit :=
  match _h : r.nextStep with
  | .error e _ => .error (.read e) c
  | .ok none _ => .ok () c
  | .ok (some s) r =>
    match c.check s with
    | .ok c => verify c r
    | .error e => .error (.step e) c
termination_by r.source.rest.length
decreasing_by exact Reader.length_rest_of_nextStep _h

/-- The verdicts on the rest of a trace, and the error that ended it, if any. -/
def audit (c : Checker) (r : Reader) : List Verdict × Option ReadError :=
  match _h : r.nextStep with
  | .error e _ => ([], some e)
  | .ok none _ => ([], none)
  | .ok (some s) r =>
    let verdict := c.judge s
    let (verdicts, e) := audit verdict.checker r
    (verdict :: verdicts, e)
termination_by r.source.rest.length
decreasing_by exact Reader.length_rest_of_nextStep _h

end Checker

end CuttingPlanes
