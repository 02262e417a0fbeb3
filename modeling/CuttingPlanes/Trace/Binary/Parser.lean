import CuttingPlanes.Text.Utf8
import CuttingPlanes.Trace.Binary.Printer
import CuttingPlanes.Trace.Entry
import CuttingPlanes.Varint.Stream

/-!
# Bytes as records

The parts of a record are read from a source one after the other. What is
refused has been taken from the source all the same, and nothing behind it.
However large the counts in a record are, reading stops with the bytes.
-/

namespace CuttingPlanes.Trace.Binary

open Varint

/-- Why no record could be read. -/
inductive Failure
  | fault (fault : Fault)
  | varint (e : Varint.Error)
  | malformed (reason : Malformation)
deriving DecidableEq, Repr

abbrev Parser := EStateM Failure Source

def refuse {α : Type} (reason : Malformation) : Parser α := throw (.malformed reason)

/-- The value, or a refusal if there is none. -/
def require {α : Type} (reason : Malformation) : Option α → Parser α
  | some a => pure a
  | none => refuse reason

def ofExcept {α : Type} : Except Malformation α → Parser α
  | .ok a => pure a
  | .error reason => refuse reason

def onSource {α : Type} (act : EStateM Fault Source α) : Parser α :=
  EStateM.adaptExcept .fault act

def Failure.ofStreamError : StreamError → Failure
  | .source f => .fault f
  | .malformed e => .varint e

def int : Parser Int64 := do
  require .endOfTrace (← EStateM.adaptExcept Failure.ofStreamError read?)

/-- A count of bytes, terms or hints. -/
def length : Parser Nat := do
  let v ← int
  if v.toInt < 0 then refuse .negativeLength else return v.toInt.toNat

def term : Parser Term := do
  let coeff ← int
  let number ← int
  let var ← require .variableOutOfRange (Variable.ofNat? number.toInt.toNat)
  return ⟨coeff, var⟩

def hint : Parser StepId := do
  let number ← int
  require .hintOutOfRange (StepId.ofNumber? number.toInt.toNat)

/-- The results of reading `count` times. -/
def repeated {α : Type} (item : Parser α) : Nat → Parser (List α)
  | 0 => pure []
  | count + 1 => do
    let a ← item
    let as ← repeated item count
    return a :: as

def step (kind : StepKind) : Parser Entry := do
  let code ← onSource Source.byte
  let relation ← require (.unknownRelationCode code) (Relation.ofCode? code)
  let terms ← repeated term (← length)
  let bound ← int
  let hints ← repeated hint (← length)
  ofExcept (Entry.ofParts kind terms relation bound hints)

def comment : Parser Entry := do
  let count ← length
  let body ← onSource (Source.upTo count)
  if body.length < count then refuse .endOfTrace
  else
    let text ← require .commentNotText (Text.decode? body)
    return .comment (String.ofList text)

def entry (code : UInt8) : Parser Entry :=
  if code = commentCode then comment
  else
    match StepKind.ofCode? code with
    | some kind => step kind
    | none => refuse (.unknownRecordCode code)

/-! ## Progress -/

open Source

theorem advancing_require {α : Type} (reason : Malformation) (a : Option α) :
    Advancing (require reason a) := by
  cases a
  · exact .throw _
  · exact .pure _

theorem advancing_ofExcept {α : Type} (x : Except Malformation α) : Advancing (ofExcept x) := by
  cases x
  · exact .throw _
  · exact .pure _

theorem advancing_int : Advancing int :=
  .bind (.adaptExcept _ advancing_read?) fun _ => advancing_require _ _

theorem advancing_length : Advancing length := by
  refine .bind advancing_int fun v => ?_
  split
  · exact .throw _
  · exact .pure _

theorem advancing_term : Advancing term :=
  .bind advancing_int fun _ => .bind advancing_int fun _ =>
    .bind (advancing_require _ _) fun _ => .pure _

theorem advancing_hint : Advancing hint := .bind advancing_int fun _ => advancing_require _ _

theorem advancing_repeated {α : Type} {item : Parser α} (h : Advancing item) (count : Nat) :
    Advancing (repeated item count) := by
  induction count with
  | zero => exact .pure _
  | succ count ih => exact .bind h fun _ => .bind ih fun _ => .pure _

theorem advancing_step (kind : StepKind) : Advancing (step kind) :=
  .bind (.adaptExcept _ advancing_byte) fun _ => .bind (advancing_require _ _) fun _ =>
    .bind advancing_length fun _ => .bind (advancing_repeated advancing_term _) fun _ =>
    .bind advancing_int fun _ => .bind advancing_length fun _ =>
    .bind (advancing_repeated advancing_hint _) fun _ => advancing_ofExcept _

theorem advancing_comment : Advancing comment := by
  refine .bind advancing_length fun count => .bind (.adaptExcept _ (advancing_upTo _)) fun body => ?_
  split
  · exact .throw _
  · exact .bind (advancing_require _ _) fun _ => .pure _

theorem advancing_entry (code : UInt8) : Advancing (entry code) := by
  unfold entry
  split
  · exact advancing_comment
  · split
    · exact advancing_step _
    · exact .throw _

end CuttingPlanes.Trace.Binary
