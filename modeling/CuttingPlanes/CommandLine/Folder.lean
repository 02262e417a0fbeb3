import CuttingPlanes.CommandLine.Program

/-!
# Folders

A folder of files held in memory, in which the program can be run. The folder has
no folders inside, and of what lies above it nothing is known.
-/

namespace CuttingPlanes

/-- The files by name. -/
structure Folder where
  files : List (String × List UInt8)
deriving DecidableEq, Repr

namespace Folder

def empty : Folder := ⟨[]⟩

def get? (f : Folder) (name : String) : Option (List UInt8) := f.files.lookup name

/-- The folder with a file that holds the given bytes and nothing else. -/
def put (f : Folder) (name : String) (bytes : List UInt8) : Folder :=
  ⟨(name, bytes) :: f.files.filter fun file => file.1 != name⟩

theorem lookup_filter_ne {name other : String} (h : other ≠ name)
    (files : List (String × List UInt8)) :
    (files.filter fun file => file.1 != name).lookup other = files.lookup other := by
  induction files with
  | nil => rfl
  | cons file files ih =>
    obtain ⟨key, held⟩ := file
    by_cases hk : key = name
    · subst hk
      simp [List.lookup_cons, beq_eq_false_iff_ne.mpr h, ih]
    · by_cases ho : other = key <;> simp [hk, List.lookup_cons, ih, ho]

theorem get?_put (f : Folder) (name : String) (bytes : List UInt8) (other : String) :
    (f.put name bytes).get? other = if other = name then some bytes else f.get? other := by
  unfold get? put
  by_cases h : other = name
  · simp [h]
  · simp [List.lookup_cons, beq_eq_false_iff_ne.mpr h, lookup_filter_ne h, h]

@[simp] theorem put_put (f : Folder) (name : String) (bytes bytes' : List UInt8) :
    (f.put name bytes).put name bytes' = f.put name bytes' := by
  simp [put, List.filter_filter]

/-! ## Places -/

/-- Nothing is there. -/
def absent : Fault := .medium "No such file or directory (os error 2)"

/-- A file is where a folder should be. -/
def notFolder : Fault := .medium "Not a directory (os error 20)"

/-- A folder is where a file should be. -/
def notFile : Fault := .medium "Is a directory (os error 21)"

/-- A name or a path has more bytes than it can have. -/
def tooLong : Fault := .medium "File name too long (os error 36)"

def nameLimit : Nat := 255

def pathLimit : Nat := 4095

/-- What a path leads to. -/
inductive Place
  /-- The folder itself, or one above it. -/
  | folder
  /-- The place of a file, whether the file exists or not. -/
  | file (name : String)
  /-- A place behind the name of a file, as if that were a folder. The place may be
  the named folder itself. -/
  | behind (name : String) (itself : Bool)
  /-- A place of a name in a folder above, or behind it. -/
  | outside (name : String)
deriving DecidableEq, Repr

/-- Where segments lead from a folder above. -/
def placeAbove (segments : List (List Char)) : Place :=
  match segments.find? fun s => !Path.stays s && !Path.leaves s with
  | some s => .outside (String.ofList s)
  | none => .folder

/-- Where segments lead from the folder. -/
def placeOf : List (List Char) → Place
  | [] => .folder
  | s :: segments =>
    if Path.stays s then placeOf segments
    else if Path.leaves s then placeAbove segments
    else if segments.isEmpty then .file (String.ofList s)
    else .behind (String.ofList s) (segments.all (·.isEmpty))

/-- What a path leads to, unless it is too long. -/
def place (p : Path) : Except Fault Place :=
  if pathLimit < p.text.utf8ByteSize then .error tooLong
  else match p.segments with
    | [] :: segments => .ok (placeAbove segments)
    | segments => .ok (placeOf segments)

/-- The fault of looking for a name that is not there. -/
def missing (name : String) : Fault := if nameLimit < name.utf8ByteSize then tooLong else absent

/-- The fault of looking behind the name of a file. -/
def faultBehind (f : Folder) (name : String) : Fault :=
  if (f.get? name).isSome then notFolder else missing name

/-- Open a file to read it. A folder can be opened, but not read. -/
def openFile (f : Folder) (p : Path) : Except Fault Source := do
  match ← place p with
  | .folder => return .failingAfter 0 notFile []
  | .outside name => throw (missing name)
  | .behind name _ => throw (f.faultBehind name)
  | .file name =>
    match f.get? name with
    | some bytes => return .ofBytes bytes
    | none => throw (missing name)

def nameFor (f : Folder) (p : Path) : Except Fault String := do
  match ← place p with
  | .folder => throw notFile
  | .outside name => throw (missing name)
  | .behind _ true => throw notFile
  | .behind name false => throw (f.faultBehind name)
  | .file name => if nameLimit < name.utf8ByteSize then throw tooLong else return name

/-! ## Running the program -/

/-- What the program finds around it in a folder, where nothing is in the way of putting bytes
into a file. -/
def around (input : Source) : Surroundings (StateM Folder) where
  input := return input
  openFile path := return (← get).openFile path
  createFile path := do
    match (← get).nameFor path with
    | .error fault => return .error fault
    | .ok name =>
      modify (·.put name [])
      return .ok fun bytes => do
        modify (·.put name bytes)
        return none

def run (f : Folder) (words : List String) (input : Source) : Outcome × Folder :=
  (program (around input) words).run f

end Folder

end CuttingPlanes
