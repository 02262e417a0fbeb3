import CuttingPlanes.CommandLine.Arguments
import CuttingPlanes.CommandLine.Path
import CuttingPlanes.Dimacs.Basic
import CuttingPlanes.Text.Decimal
import CuttingPlanes.Trace.Step

/-!
# Commands

A command line names one command. The verbose flag may stand before the command,
among its arguments, or at both places.
-/

namespace CuttingPlanes

inductive Command
  /-- Check that a file is a formula. -/
  | checkFormula (mode : Dimacs.Mode) (file : Path)
  /-- Refute a pigeonhole instance, and write the trace to a file if one is named. -/
  | pigeonhole (holes pigeons : Nat) (proof : Option Path) (format : Format)
  /-- Check that a trace is valid and ends in a contradiction. -/
  | verify (proof : Path) (format : Format)
  /-- Write the integers of a text as bytes. -/
  | encode
  /-- Write the integers that bytes hold as text. -/
  | decode
deriving DecidableEq

/-- What a command has to get hold of before it starts. -/
inductive Need
  | nothing
  | standardInput
  | file (path : Path)
  | newFile (path : Path)
deriving DecidableEq

namespace Command

def need : Command → Need
  | .checkFormula _ file => .file file
  | .pigeonhole _ _ (some proof) _ => .newFile proof
  | .pigeonhole _ _ none _ => .nothing
  | .verify proof _ => .file proof
  | .encode | .decode => .standardInput

/-- A number of holes or pigeons, which has at most 32 bits. -/
def number? (word : String) : Option Nat := do
  let z ← Text.integer? word.toList
  if 0 ≤ z ∧ z < 0x100000000 then some z.toNat else none

def format? : String → Option Format
  | "text" => some .text
  | "binary" => some .binary
  | _ => none

def formatOf? (a : Arguments) : Option Format := format? ((a.value? .format).getD "text")

def pathOf? : Option String → Option (Option Path)
  | none => some none
  | some word => (Path.ofText? word).map some

def grammar? : String → Option Grammar
  | "check-cnf" => some ⟨[.verbose, .lenient], [], 1⟩
  | "pigeonhole" => some ⟨[.verbose], [.holes, .pigeons, .proofPath, .format], 0⟩
  | "verify" => some ⟨[.verbose], [.format], 1⟩
  | "encode" => some ⟨[.verbose], [], 0⟩
  | "decode" => some ⟨[.verbose], [], 0⟩
  | _ => none

def ofArguments? (name : String) (a : Arguments) : Option Command :=
  match name with
  | "check-cnf" => do
    let file ← Path.ofText? (← a.operands.head?)
    return .checkFormula (if .lenient ∈ a.flags then .lenient else .careful) file
  | "pigeonhole" => do
    let holes ← number? (← a.value? .holes)
    let pigeons ← number? (← a.value? .pigeons)
    return .pigeonhole holes pigeons (← pathOf? (a.value? .proofPath)) (← formatOf? a)
  | "verify" => do
    return .verify (← Path.ofText? (← a.operands.head?)) (← formatOf? a)
  | "encode" => some .encode
  | "decode" => some .decode
  | _ => none

end Command

/-- A command, and whether it tells more than its result. -/
structure Invocation where
  verbose : Bool
  command : Command
deriving DecidableEq

namespace Invocation

/-- The invocation that starts with the name of a command, if the verbose flag
before it was given or not. -/
def ofWords? (verbose : Bool) : List String → Option Invocation
  | [] => none
  | name :: rest => do
    let a ← Arguments.read? (← Command.grammar? name) rest
    return ⟨verbose || .verbose ∈ a.flags, ← Command.ofArguments? name a⟩

/-- The invocation that the words of a command line spell, if they spell one. -/
def read? : List String → Option Invocation
  | [] => none
  | word :: rest =>
    if Flag.ofWord? word = some .verbose then ofWords? true rest else ofWords? false (word :: rest)

end Invocation

end CuttingPlanes
