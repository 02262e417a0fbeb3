import CuttingPlanes.Derivation

/-!
# Refuting the pigeonhole principle

An instance asks for a hole for each of its pigeons such that no two share one.
Variable `(j - 1) * holes + i` means that pigeon `j` sits in hole `i`. Every pigeon
needs a hole and every hole takes at most one pigeon; the sum of all constraints
has no terms left and the bound `pigeons - holes`.
-/

namespace CuttingPlanes

/-- The numbers of an instance whose variables all exist. -/
structure Pigeonhole where
  holes : Nat
  pigeons : Nat
  holes_pos : 0 < holes
  pigeons_pos : 0 < pigeons
  lt : holes * pigeons < 0x100000000

inductive PigeonholeError
  | unsupported (holes pigeons : Nat)
  | derivation (e : DerivationError)
deriving DecidableEq, Repr

def PigeonholeError.message : PigeonholeError → String
  | .unsupported holes pigeons =>
    s!"The instance with {holes} holes and {pigeons} pigeons is not supported."
  | .derivation e => s!"Failed to write the proof, more details: {e.message}"

namespace Pigeonhole

def ofNumbers? (holes pigeons : Nat) : Option Pigeonhole :=
  if h : 0 < holes ∧ 0 < pigeons ∧ holes * pigeons < 0x100000000 then
    some ⟨holes, pigeons, h.1, h.2.1, h.2.2⟩
  else none

theorem number_le {holes pigeons i j : Nat} (hi : i < holes) (hj : j < pigeons) :
    j * holes + i + 1 ≤ holes * pigeons :=
  calc j * holes + i + 1 ≤ j * holes + holes := by omega
    _ = (j + 1) * holes := (Nat.succ_mul j holes).symm
    _ ≤ pigeons * holes := Nat.mul_le_mul_right holes hj
    _ = holes * pigeons := Nat.mul_comm pigeons holes

/-- Pigeon `j` sits in hole `i`, both counted from zero. -/
def var (p : Pigeonhole) (i : Fin p.holes) (j : Fin p.pigeons) : Variable where
  number := j * p.holes + i + 1
  pos := Nat.succ_pos _
  lt := Nat.lt_of_le_of_lt (number_le i.isLt j.isLt) p.lt

/-- A pigeon sits in some hole. -/
def pigeonConstraint (p : Pigeonhole) (j : Fin p.pigeons) : Except ConstraintError Constraint :=
  Constraint.atLeastOne ((List.finRange p.holes).map fun i => p.var i j)

/-- A hole has at most one pigeon. -/
def holeConstraint (p : Pigeonhole) (i : Fin p.holes) : Except ConstraintError Constraint :=
  Constraint.atMostOne ((List.finRange p.pigeons).map fun j => p.var i j)

/-- Record a constraint of the instance. -/
def input (c : Except ConstraintError Constraint) : EStateM DerivationError Derivation StepId :=
  match c with
  | .ok c => Derivation.input c
  | .error e => throw (.constraint e)

/-- The sum of some steps, of which there is at least one. -/
def sumSome (steps : List StepId) : EStateM DerivationError Derivation StepId := do
  match ← Derivation.sum steps with
  | some step => return step
  | none => throw (.unknownStep .first)

/-- The last step, its constraint and the counts of the trace. -/
structure Refutation where
  last : StepId
  constraint : Constraint
  counts : Counts
deriving DecidableEq

/-- Record the instance and the sum of all its constraints, and seal the trace. -/
def derive (p : Pigeonhole) : EStateM DerivationError Derivation Refutation := do
  Derivation.comment s!"pigeonhole {p.holes} holes {p.pigeons} pigeons"
  Derivation.comment "pigeon j in hole i is variable (j - 1) * holes + i"
  let pigeonSteps ← (List.finRange p.pigeons).mapM fun j => input (p.pigeonConstraint j)
  let holeSteps ← (List.finRange p.holes).mapM fun i => input (p.holeConstraint i)
  let allPigeons ← sumSome pigeonSteps
  Derivation.note (.summedPigeons allPigeons)
  let allHoles ← sumSome holeSteps
  Derivation.note (.summedHoles allHoles)
  let last ← Derivation.add allPigeons allHoles
  let constraint ← Derivation.constraint last
  Derivation.finish
  Derivation.onWriter Writer.close
  return ⟨last, constraint, (← get).writer.counts⟩

/-- Write the refutation of the instance with the given numbers. Nothing is
written for an instance that is not supported. -/
def refute (holes pigeons : Nat) (w : Writer) : EStateM.Result PigeonholeError Writer Refutation :=
  match ofNumbers? holes pigeons with
  | none => .error (.unsupported holes pigeons) w
  | some p =>
    match p.derive (.start w) with
    | .ok refutation d => .ok refutation d.writer
    | .error e d => .error (.derivation e) d.writer

end Pigeonhole

end CuttingPlanes
