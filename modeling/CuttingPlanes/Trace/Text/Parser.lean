import CuttingPlanes.Text.Blank
import CuttingPlanes.Text.Decimal
import CuttingPlanes.Text.Lines
import CuttingPlanes.Trace.Entry

/-!
# Lines of text as records

A line whose first character after blanks is a star is a comment. Any other line
is read through its words: the kind, pairs of a coefficient and a variable, the
relation, the bound, a semicolon and the hints. A line without words is no
record. The first word out of place is reported.
-/

namespace CuttingPlanes.Trace.Text

open CuttingPlanes.Text

/-- A word of a line. -/
abbrev Word := List Char

def relation? (w : Word) : Option Relation :=
  [Relation.atLeast, .equal].find? (·.symbol.toList == w)

def number? (w : Word) : Option Int64 := (integer? w).bind fit?

def var? : Word → Option Variable
  | 'x' :: digits => (natural? digits).bind Variable.ofNat?
  | _ => none

def stepId? (w : Word) : Option StepId := (natural? w).bind StepId.ofNumber?

def kind? (w : Word) : Option StepKind := [StepKind.input, .derived].find? ([·.char] == w)

/-- The terms up to the relation, the relation, and the words behind it. -/
def readTerms : List Word → Except Malformation (List Term × Relation × List Word)
  | [] => .error (.missing .termOrRelation)
  | w :: rest =>
    match relation? w with
    | some relation => .ok ([], relation, rest)
    | none =>
      match number? w with
      | none => .error (.notCoefficient (String.ofList w))
      | some coeff =>
        match rest with
        | [] => .error (.missing .var)
        | v :: rest =>
          match var? v with
          | none => .error (.notVariable (String.ofList v))
          | some var =>
            match readTerms rest with
            | .error e => .error e
            | .ok (terms, relation, rest) => .ok (⟨coeff, var⟩ :: terms, relation, rest)

def readBound : List Word → Except Malformation (Int64 × List Word)
  | [] => .error (.missing .bound)
  | w :: rest =>
    match number? w with
    | some bound => .ok (bound, rest)
    | none => .error (.notBound (String.ofList w))

def readSemicolon : List Word → Except Malformation (List Word)
  | [] => .error (.missing .semicolon)
  | w :: rest => if w = [';'] then .ok rest else .error (.notSemicolon (String.ofList w))

def readHints : List Word → Except Malformation (List StepId)
  | [] => .ok []
  | w :: rest =>
    match stepId? w with
    | none => .error (.notStepNumber (String.ofList w))
    | some hint => (hint :: ·) <$> readHints rest

/-- The step that words spell. -/
def readStep (kind : Word) (rest : List Word) : Except Malformation Entry := do
  match kind? kind with
  | none => .error (.unknownKind (String.ofList kind))
  | some kind =>
    let (terms, relation, rest) ← readTerms rest
    let (bound, rest) ← readBound rest
    let rest ← readSemicolon rest
    let hints ← readHints rest
    Entry.ofParts kind terms relation bound hints

/-- The text of a comment behind its star. -/
def commentText : List Char → String
  | ' ' :: text => String.ofList text
  | text => String.ofList text

/-- The record on a line, if there is one. -/
def readLine (line : List Char) : Except Malformation (Option Entry) :=
  match trimStart (dropReturns line) with
  | '*' :: text => .ok (some (.comment (commentText text)))
  | body =>
    match words body with
    | [] => .ok none
    | kind :: rest => some <$> readStep kind rest

end CuttingPlanes.Trace.Text
