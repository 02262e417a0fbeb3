/-!
# Paths

A path is a text that is not empty. Slashes part it into segments, and the last
segment that names something decides by its ending how the file is encoded.
-/

namespace CuttingPlanes

structure Path where
  text : String
  ne_empty : text ≠ ""
deriving DecidableEq

namespace Path

def ofText? (text : String) : Option Path := if h : text = "" then none else some ⟨text, h⟩

/-- The parts of a text between its slashes. -/
def split : List Char → List (List Char)
  | [] => [[]]
  | '/' :: cs => [] :: split cs
  | c :: cs =>
    match split cs with
    | [] => [[c]]
    | s :: segments => (c :: s) :: segments

def segments (p : Path) : List (List Char) := split p.text.toList

/-- Whether a segment stays in the folder in which it stands. -/
def stays (segment : List Char) : Bool := segment = [] || segment = ['.']

/-- Whether a segment leads to the folder above. -/
def leaves (segment : List Char) : Bool := segment = ['.', '.']

/-- The part of a name behind its last dot, if something is before the dot. -/
def ending? (name : List Char) : Option (List Char) :=
  let ending := (name.reverse.takeWhile (· != '.')).reverse
  if ending.length + 1 < name.length then some ending else none

/-- Whether the path names a gzip file. -/
def isGzip (p : Path) : Bool :=
  match (p.segments.filter (!stays ·)).getLast? with
  | some name => !leaves name && ending? name = some ['g', 'z']
  | none => false

end Path

end CuttingPlanes
