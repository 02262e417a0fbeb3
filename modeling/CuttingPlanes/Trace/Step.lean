import CuttingPlanes.Constraint.Basic

/-!
# The records of a trace

A trace is a sequence of records. A record is a comment or a step, and a step
gives a constraint either as an input or as something derived from earlier
steps, which it names as hints. Steps are numbered from one.
-/

namespace CuttingPlanes

/-- The place of a step among the steps of its trace, counted from zero. -/
structure StepId where
  index : Nat
deriving DecidableEq, Repr

namespace StepId

def first : StepId := ⟨0⟩

/-- The number by which a trace refers to the step. -/
def number (id : StepId) : Nat := id.index + 1

def next (id : StepId) : StepId := ⟨id.index + 1⟩

/-- The step with a given number, if the number is at least one and below 2 ^ 64. -/
def ofNumber? (n : Nat) : Option StepId :=
  if 0 < n ∧ n < 0x10000000000000000 then some ⟨n - 1⟩ else none

instance : LE StepId := ⟨fun a b => a.index ≤ b.index⟩

instance (a b : StepId) : Decidable (a ≤ b) := Nat.decLe a.index b.index

theorem le_def {a b : StepId} : a ≤ b ↔ a.index ≤ b.index := Iff.rfl

theorem ofNumber?_eq_some_iff {n : Nat} {id : StepId} :
    ofNumber? n = some id ↔ id.number = n ∧ n < 0x10000000000000000 := by
  cases id
  simp only [ofNumber?, number]
  split
  · simp only [Option.some.injEq, mk.injEq]
    omega
  · simp only [reduceCtorEq, false_iff]
    omega

end StepId

/-- How a step gives its constraint. -/
inductive StepKind
  | input
  | derived
deriving DecidableEq, Repr

namespace StepKind

/-- The character that starts a step of this kind. -/
def char : StepKind → Char
  | .input => 'i'
  | .derived => 'a'

/-- The byte that starts a step of this kind. -/
def code (k : StepKind) : UInt8 := k.char.toUInt8

def ofCode? (b : UInt8) : Option StepKind := [input, derived].find? (·.code == b)

theorem ofCode?_code (k : StepKind) : ofCode? k.code = some k := by
  cases k <;> decide

end StepKind

structure Step where
  id : StepId
  kind : StepKind
  constraint : Constraint
  hints : List StepId
deriving DecidableEq

inductive Record
  | comment (text : String)
  | step (step : Step)
deriving DecidableEq

/-- How a trace spells its records: as lines of text, or as bytes. -/
inductive Format
  | text
  | binary
deriving DecidableEq, Repr

/-- How many records of each sort a trace has. -/
structure Counts where
  inputs : Nat
  derived : Nat
  comments : Nat
deriving DecidableEq, Repr

namespace Counts

def none : Counts := ⟨0, 0, 0⟩

def steps (c : Counts) : Nat := c.inputs + c.derived

/-- The counts after one more step. -/
def addStep (c : Counts) : StepKind → Counts
  | .input => { c with inputs := c.inputs + 1 }
  | .derived => { c with derived := c.derived + 1 }

def addComment (c : Counts) : Counts := { c with comments := c.comments + 1 }

end Counts

end CuttingPlanes
