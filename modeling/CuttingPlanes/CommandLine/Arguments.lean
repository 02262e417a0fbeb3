/-!
# Arguments of a command

The words behind the name of a command are flags, settings with a value, and
operands, in any order. A command accepts some flags and settings, each at most
once, and a fixed number of operands. The value of a setting is the next word, or
it is joined to the name by an equals sign; a word that starts with a minus sign
is a value only when it is joined, or when it is the minus sign alone. Behind two
minus signs all words are operands.
-/

namespace CuttingPlanes

inductive Flag
  | verbose
  | lenient
deriving DecidableEq, Repr

def Flag.ofWord? : String → Option Flag
  | "-v" => some .verbose
  | "--verbose" => some .verbose
  | "--lenient" => some .lenient
  | _ => none

inductive Setting
  | holes
  | pigeons
  | proofPath
  | format
deriving DecidableEq, Repr

def Setting.ofName? : String → Option Setting
  | "--holes" => some .holes
  | "--pigeons" => some .pigeons
  | "--proof-path" => some .proofPath
  | "--format" => some .format
  | _ => none

/-- What a command accepts. -/
structure Grammar where
  flags : List Flag
  settings : List Setting
  operands : Nat
deriving DecidableEq, Repr

structure Arguments where
  flags : List Flag
  settings : List (Setting × String)
  operands : List String
deriving DecidableEq, Repr

namespace Arguments

def nothing : Arguments := ⟨[], [], []⟩

/-- Whether a word is a flag or a setting rather than an operand or a value. -/
def isMarked (word : String) : Bool :=
  match word.toList with
  | '-' :: _ :: _ => true
  | _ => false

/-- The name of a setting and the value that is joined to it, if there is one. -/
def splitJoined (word : String) : String × Option String :=
  let name := word.toList.takeWhile (· != '=')
  match word.toList.dropWhile (· != '=') with
  | _ :: value => (String.ofList name, some (String.ofList value))
  | [] => (String.ofList name, none)

def addFlag? (g : Grammar) (a : Arguments) (flag : Flag) : Option Arguments :=
  if flag ∈ g.flags ∧ flag ∉ a.flags then some { a with flags := a.flags ++ [flag] } else none

def addSetting? (g : Grammar) (a : Arguments) (setting : Setting) (value : String) :
    Option Arguments :=
  if setting ∈ g.settings ∧ setting ∉ a.settings.map (·.1) then
    some { a with settings := a.settings ++ [(setting, value)] }
  else none

def addOperand (a : Arguments) (word : String) : Arguments :=
  { a with operands := a.operands ++ [word] }

/-- The arguments, if there are as many operands as the command wants. -/
def complete? (g : Grammar) (a : Arguments) : Option Arguments :=
  if a.operands.length = g.operands then some a else none

def readFrom? (g : Grammar) (a : Arguments) : List String → Option Arguments
  | [] => a.complete? g
  | word :: rest =>
    if word = "--" then { a with operands := a.operands ++ rest }.complete? g
    else if !isMarked word then readFrom? g (a.addOperand word) rest
    else
      match Flag.ofWord? word with
      | some flag => do readFrom? g (← a.addFlag? g flag) rest
      | none =>
        match splitJoined word, rest with
        | (name, some value), rest => do
          readFrom? g (← a.addSetting? g (← Setting.ofName? name) value) rest
        | (_, none), [] => none
        | (name, none), value :: rest =>
          if isMarked value then none
          else do readFrom? g (← a.addSetting? g (← Setting.ofName? name) value) rest

def read? (g : Grammar) (words : List String) : Option Arguments := readFrom? g .nothing words

def value? (a : Arguments) (setting : Setting) : Option String := a.settings.lookup setting

end Arguments

end CuttingPlanes
