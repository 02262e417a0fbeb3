import CuttingPlanes.CommandLine.Command
import CuttingPlanes.CommandLine.Failure
import CuttingPlanes.Dimacs.File
import CuttingPlanes.Gzip.RoundTrip
import CuttingPlanes.Text.Blank
import CuttingPlanes.Varint.Decoder
import CuttingPlanes.Varint.Encoding

/-!
# Executing a command

A command is given what it needs, a source to read from or an empty one, or the
fault of not getting hold of it. It prints, tells events, and may leave bytes for
the file that it created. A command that fails keeps what it printed before.
-/

namespace CuttingPlanes

/-- What a command printed, told, and put into the file that it created. -/
structure Report where
  output : List UInt8
  events : List Event
  created : List UInt8
deriving DecidableEq

namespace Report

def nothing : Report := ⟨[], [], []⟩

def print (bytes : List UInt8) : EStateM Failure Report Unit := fun ⟨output, events, created⟩ =>
  .ok () ⟨output ++ bytes, events, created⟩

def printLine (text : String) : EStateM Failure Report Unit :=
  print (Text.encode (text.toList ++ ['\n']))

def tell (told : List Event) : EStateM Failure Report Unit := fun ⟨output, events, created⟩ =>
  .ok () ⟨output, events ++ told, created⟩

def create (bytes : List UInt8) : EStateM Failure Report Unit := fun ⟨output, events, _⟩ =>
  .ok () ⟨output, events, bytes⟩

end Report

open Report

def orFail {ε α : Type} (cause : ε → Failure) : Except ε α → EStateM Failure Report α
  | .ok a => return a
  | .error e => throw (cause e)

def allBytes (given : Except Fault Source) : EStateM Failure Report (List UInt8) := do
  let source ← orFail .fault given
  match source.failure with
  | none => return source.rest
  | some fault => throw (.fault fault)

namespace Command

/-! ## Formulas -/

def executeCheckFormula (mode : Dimacs.Mode) (given : Except Fault Source) :
    EStateM Failure Report Unit := do
  let reading := Dimacs.read mode (← orFail .fault given)
  tell reading.events
  let formula ← orFail .formula reading.result
  printLine s!"s VALID {formula.varCount} {formula.declared}"

/-! ## Traces -/

/-- The bytes of a file in which a trace is kept. -/
def fileOfTrace (path : Path) (trace : List UInt8) : List UInt8 :=
  if path.isGzip then Gzip.pack trace else trace

/-- The trace that is kept in a file. -/
def traceOfFile (path : Path) (file : Source) : Source :=
  if path.isGzip then Gzip.unpack file else file

/-- A trace that was put into a file is in the file. -/
theorem traceOfFile_fileOfTrace (path : Path) (trace : List UInt8) :
    traceOfFile path (.ofBytes (fileOfTrace path trace)) = .ofBytes trace := by
  unfold traceOfFile fileOfTrace
  split
  · exact Gzip.unpack_pack trace
  · rfl

/-- Keep what a writer wrote and tell what it noted. -/
def keepTrace (proof : Option Path) (w : Writer) : EStateM Failure Report Unit := do
  tell w.journal.toList
  match proof with
  | some path => create (fileOfTrace path w.outlet.sink.held.toList)
  | none => return

def executePigeonhole (holes pigeons : Nat) (proof : Option Path) (format : Format)
    (given : Except Fault Source) : EStateM Failure Report Unit := do
  let _ ← orFail .fault given
  let writer := if proof.isSome then Writer.new format .unlimited else Writer.null
  match Pigeonhole.refute holes pigeons writer with
  | .error e w =>
    keepTrace proof w
    throw (.pigeonhole e)
  | .ok refutation w =>
    keepTrace proof w
    tell [.written refutation.counts]
    printLine s!"c step {refutation.last.number} derives {refutation.constraint.text}"
    if refutation.constraint.isContradiction then printLine "s UNSATISFIABLE"
    else throw .noContradiction

def executeVerify (proof : Path) (format : Format) (given : Except Fault Source) :
    EStateM Failure Report Unit := do
  let file ← orFail .fault given
  match Checker.new.verify (Reader.new format (traceOfFile proof file)) with
  | .error e checker =>
    tell checker.journal.toList
    throw (.verification e)
  | .ok () checker =>
    tell (checker.journal.toList ++ [.checked checker.inputs checker.derived])
    if checker.concludesContradiction then printLine "s VERIFIED" else throw .noContradiction

/-! ## Integers -/

def readInteger (word : List Char) : Except Failure Int64 :=
  match Text.integer? word >>= fit? with
  | some v => .ok v
  | none => .error (.notAnInteger (String.ofList word))

def executeEncode (given : Except Fault Source) : EStateM Failure Report Unit := do
  match Text.decode? (← allBytes given) with
  | none => throw (.fault .notText)
  | some text =>
    let vs ← orFail id ((Text.words text).mapM readInteger)
    print (Varint.encodeAll vs)

/-- The line that lists integers. -/
def integerLine (vs : List Int64) : String :=
  String.intercalate " " (vs.map fun v => String.ofList (Text.plain v.toInt))

def executeDecode (given : Except Fault Source) : EStateM Failure Report Unit := do
  let vs ← orFail .varint (Varint.decode (← allBytes given))
  printLine (integerLine vs)

/-! ## All commands -/

def execute (c : Command) (given : Except Fault Source) : EStateM Failure Report Unit :=
  match c with
  | .checkFormula mode _ => executeCheckFormula mode given
  | .pigeonhole holes pigeons proof format => executePigeonhole holes pigeons proof format given
  | .verify proof format => executeVerify proof format given
  | .encode => executeEncode given
  | .decode => executeDecode given

end Command

/-- What a run of the program leaves: its exit status, what it wrote to its two
outputs, and the bytes of the file that it created. -/
structure Outcome where
  status : UInt32
  output : List UInt8
  errors : String
  created : List UInt8
deriving DecidableEq

namespace Outcome

/-- The forms of an invocation, each of which takes the verbose flag as well. -/
def usage : List String := [
  "usage: check-cnf [--lenient] FILE",
  "       pigeonhole --holes N --pigeons N [--proof-path FILE] [--format text|binary]",
  "       verify [--format text|binary] FILE",
  "       encode",
  "       decode",
  "options: -v, --verbose"]

/-- The outcome of words that are no invocation. -/
def misused : Outcome where
  status := 2
  output := []
  errors := String.join (usage.map (· ++ "\n"))
  created := []

/-- The lines that show events; errors are always shown. -/
def shown (verbose : Bool) (events : List Event) : String :=
  String.join ((events.filter fun e => e.level.isShown verbose).map fun e => s!"c {e.message}\n")

end Outcome

def Invocation.run (i : Invocation) (given : Except Fault Source) : Outcome :=
  match i.command.execute given .nothing with
  | .ok () r => ⟨0, r.output, Outcome.shown i.verbose (.started :: r.events), r.created⟩
  | .error e r =>
    ⟨1, r.output, Outcome.shown i.verbose (.started :: r.events ++ [.failed e.message]), r.created⟩

/-- The outcome when nothing can be put into the created file. -/
def Invocation.runUnwritable (i : Invocation) (fault : Fault) : Outcome :=
  let e := Failure.pigeonhole (.derivation (.write (.fault fault)))
  ⟨1, [], Outcome.shown i.verbose [.started, .failed e.message], []⟩

end CuttingPlanes
