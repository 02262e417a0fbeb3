import CuttingPlanes.Dimacs.Line
import CuttingPlanes.Event
import CuttingPlanes.Stream.Source
import CuttingPlanes.Text.Utf8

/-!
# DIMACS files

A file is read line by line and reading stops at the first line that is refused.
The lines accepted before it are kept, since their comments have been reported.
-/

namespace CuttingPlanes.Dimacs

/-- What the lines accepted so far contribute, and the header among them. -/
structure Progress where
  items : Array Item
  header : Option Header
deriving DecidableEq, Repr

namespace Progress

def nothing : Progress := ⟨#[], none⟩

def push (p : Progress) (item : Item) : Progress :=
  match item with
  | .header h => ⟨p.items.push item, some h⟩
  | _ => ⟨p.items.push item, p.header⟩

def clauses (p : Progress) : List (List Int) :=
  p.items.toList.filterMap fun item =>
    match item with
    | .clause literals => some literals
    | _ => none

def complete (p : Progress) : Except Error Formula :=
  match p.header with
  | none => .error (.missingHeader (p.items.size + 1))
  | some h =>
    if h.clauseCount = p.clauses.length then .ok ⟨h.varCount, h.clauseCount, p.clauses⟩
    else .error (.clauseCount h.clauseCount p.clauses.length)

end Progress

/-- The accepted lines of a file and what came of it. -/
structure Reading where
  items : List Item
  result : Except Error Formula

/-- Read the rest of a file. -/
def readFrom (mode : Mode) (p : Progress) (s : Source) : Reading :=
  match _h : s.line? with
  | .error fault _ => ⟨p.items.toList, .error (.fault fault)⟩
  | .ok none _ => ⟨p.items.toList, p.complete⟩
  | .ok (some bytes) s =>
    match Text.decode? bytes with
    | none => ⟨p.items.toList, .error (.fault .notText)⟩
    | some line =>
      match readLine mode p.header (p.items.size + 1) line with
      | .error e => ⟨p.items.toList, .error e⟩
      | .ok item => readFrom mode (p.push item) s
termination_by s.rest.length
decreasing_by exact Source.length_rest_of_line?_some _h

def read (mode : Mode) (s : Source) : Reading := readFrom mode .nothing s

namespace Reading

def comments (r : Reading) : List String :=
  r.items.filterMap fun item =>
    match item with
    | .comment text => some text
    | _ => none

/-- What there is to tell about accepted lines, given the number of lines and of
clauses before them. -/
def eventsFrom (lines clauses : Nat) : List Item → List Event
  | [] => []
  | .blank :: items => eventsFrom (lines + 1) clauses items
  | .comment text :: items => .comment text :: eventsFrom (lines + 1) clauses items
  | .header h :: items => .header h.varCount h.clauseCount :: eventsFrom (lines + 1) clauses items
  | .clause literals :: items =>
    .clause (clauses + 1) (lines + 1) literals :: eventsFrom (lines + 1) (clauses + 1) items

def events (r : Reading) : List Event := eventsFrom 0 0 r.items

end Reading

end CuttingPlanes.Dimacs
