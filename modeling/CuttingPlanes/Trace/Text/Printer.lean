import CuttingPlanes.Constraint.Opb
import CuttingPlanes.Text.Lines
import CuttingPlanes.Text.Utf8
import CuttingPlanes.Trace.Step

/-!
# Records as lines of text

A step is one line: its kind, its constraint, a semicolon and its hints. A
comment becomes one line for each of its own lines, each behind a star and a
space, so no comment can be taken for a step. An empty comment is a lone star.

The pieces of a record are what is handed to an outlet at once.
-/

namespace CuttingPlanes.Trace.Text

open CuttingPlanes.Text

def stepPieces (kind : StepKind) (c : Constraint) (hints : List StepId) : List (List Char) :=
  [[kind.char], [' '], c.opb, [' ', ';']] ++ hints.flatMap (fun h => [[' '], digits h.number]) ++
    [['\n']]

def commentPieces (text : List Char) : List (List Char) :=
  if text.isEmpty then [['*', '\n']]
  else (lines text).flatMap fun line => [['*', ' '], line, ['\n']]

/-- The line of a step, with its line feed. -/
def stepLine (kind : StepKind) (c : Constraint) (hints : List StepId) : List Char :=
  (stepPieces kind c hints).flatten

end CuttingPlanes.Trace.Text
