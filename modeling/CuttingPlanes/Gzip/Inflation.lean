/-!
# Inflating compressed bytes

Compressed data are a sequence of bits, the least significant bit of a byte
first. They come in blocks. A block holds its bytes as they are, or it holds
items in a code whose words have different lengths: an item is a byte or repeats
bytes that came before.

The words of a code are ordered by length and then by value, and words of the
same length are consecutive numbers, so the lengths alone determine a code.

This is a part of the program's own codec for gzip files (`Gzip.pack`, `Gzip.unpack`).
-/

namespace CuttingPlanes.Gzip

/-- Why a file cannot be unpacked. It is `truncated` if it ends in the header or in
the trailer, and `incomplete` if it ends among the compressed bytes. -/
inductive Defect
  | header
  | longField
  | truncated
  | incomplete
  | corrupt
  | checksum
deriving DecidableEq, Repr

def Defect.message : Defect → String
  | .header => "invalid gzip header"
  | .longField => "gzip header field too long"
  | .truncated => "unexpected end of file"
  | .incomplete => "incomplete deflate stream"
  | .corrupt => "corrupt deflate stream"
  | .checksum => "corrupt gzip stream does not have a matching checksum"

/-- The bits left of a byte that has been begun, as a number and their count, the
bytes behind it, and what has been inflated so far. -/
structure Inflation where
  part : Nat
  count : Nat
  rest : List UInt8
  out : Array UInt8
deriving DecidableEq, Repr

namespace Inflation

def start (bytes : List UInt8) : Inflation := ⟨0, 0, bytes, #[]⟩

def size (s : Inflation) : Nat := s.count + 8 * s.rest.length

/-! ## Bits -/

def bit : EStateM Defect Inflation Nat := fun ⟨part, count, rest, out⟩ =>
  match count, rest with
  | n + 1, rest => .ok (part % 2) ⟨part / 2, n, rest, out⟩
  | 0, b :: rest => .ok (b.toNat % 2) ⟨b.toNat / 2, 7, rest, out⟩
  | 0, [] => .error .incomplete ⟨part, 0, [], out⟩

/-- A number of some bits, the least significant one first. -/
def number : Nat → EStateM Defect Inflation Nat
  | 0 => return 0
  | n + 1 => do
    let b ← bit
    return b + 2 * (← number n)

/-- Skip the bits that are left of a byte. -/
def align : EStateM Defect Inflation Unit := fun ⟨_, _, rest, out⟩ => .ok () ⟨0, 0, rest, out⟩

/-! ## Output -/

def push (b : UInt8) : EStateM Defect Inflation Unit := fun ⟨part, count, rest, out⟩ =>
  .ok () ⟨part, count, rest, out.push b⟩

/-- Take the next `n` bytes as they are. -/
def copyIn (n : Nat) : EStateM Defect Inflation Unit := fun ⟨part, count, rest, out⟩ =>
  if n ≤ rest.length then .ok () ⟨part, count, rest.drop n, out ++ rest.take n⟩
  else .error .incomplete ⟨part, count, [], out ++ rest⟩

/-- Repeat the byte that came `distance` bytes before the end, again and again.
What came before the first byte counts as zeros. -/
def copyBack (distance : Nat) : Nat → EStateM Defect Inflation Unit
  | 0 => return
  | n + 1 => do
    let out := (← get).out
    push (if distance ≤ out.size then out.getD (out.size - distance) 0 else 0)
    copyBack distance n

end Inflation

open Inflation

/-! ## Codes -/

/-- For each length from one up to that of the longest word the number of words
of that length, and the symbols in the order of their words. -/
structure Code where
  counts : List Nat
  symbols : Array Nat
deriving DecidableEq, Repr

namespace Code

/-- The code in which symbol `k` has a word of the `k`-th length; a symbol of
length zero has no word. There is a count for length one even if it has no word. -/
def ofLengths (lengths : List Nat) : Code :=
  let upTo := List.range (lengths.foldl Nat.max 1)
  { counts := upTo.map fun k => lengths.count (k + 1)
    symbols := (upTo.flatMap fun k =>
      lengths.zipIdx.filterMap fun (l, symbol) => if l = k + 1 then some symbol else none).toArray }

/-- How many of the bit strings that are as long as the longest word start with a
word. -/
def coverage (c : Code) : Nat :=
  c.counts.foldl (fun covered n => 2 * covered + n) 0

/-- Every bit string that is long enough starts with exactly one word. -/
def IsComplete (c : Code) : Prop := c.coverage = Nat.pow 2 c.counts.length

instance (c : Code) : Decidable c.IsComplete := inferInstanceAs (Decidable (_ = _))

/-- There is no word, or a single one of one bit. -/
def IsMeagre (c : Code) : Prop := c.counts = [0] ∨ c.counts = [1]

instance (c : Code) : Decidable c.IsMeagre := inferInstanceAs (Decidable (_ ∨ _))

/-- The code with the given lengths, if it can be used for items. -/
def ofLengths? (lengths : List Nat) : EStateM Defect Inflation Code :=
  let c := ofLengths lengths
  if c.IsComplete ∨ c.IsMeagre then return c else throw .corrupt

/-- Look for a word. The bits so far are twice `code`, short of the next one; the
first word of the next length is `first`, and `index` words are shorter. -/
def symbolFrom (symbols : Array Nat) : List Nat → Nat → Nat → Nat → EStateM Defect Inflation Nat
  | [], _, _, _ => throw .corrupt
  | n :: counts, code, first, index => do
    let code := code + (← bit)
    if code < first + n then
      match symbols[index + (code - first)]? with
      | some symbol => return symbol
      | none => throw .corrupt
    else symbolFrom symbols counts (2 * code) (2 * (first + n)) (index + n)

def symbol (c : Code) : EStateM Defect Inflation Nat := symbolFrom c.symbols c.counts 0 0 0

end Code

/-! ## Items -/

/-- A number that grows with a symbol: each symbol stands for a range, and bits
that follow it choose from the range. There are `2 ^ width` ranges of each size,
and `least` is the first number of all. -/
def ranged (width least symbol : Nat) : EStateM Defect Inflation Nat :=
  let ranges := Nat.pow 2 width
  if symbol < 2 * ranges then return least + symbol
  else do
    let extra := symbol / ranges - 1
    return least + (ranges + symbol % ranges) * Nat.pow 2 extra + (← number extra)

def repeated (symbol : Nat) : EStateM Defect Inflation Nat :=
  if symbol < 285 then ranged 2 3 (symbol - 257)
  else if symbol = 285 then return 258
  else throw .corrupt

def distance (symbol : Nat) : EStateM Defect Inflation Nat :=
  if symbol < 30 then ranged 1 1 symbol else throw .corrupt

/-- The items of a block up to its end. Each takes at least one bit, so as many
rounds as there are bits are enough. -/
def items (literals distances : Code) : Nat → EStateM Defect Inflation Unit
  | 0 => throw .incomplete
  | rounds + 1 => do
    let symbol ← literals.symbol
    if symbol < 256 then
      push (UInt8.ofNat symbol)
      items literals distances rounds
    else if symbol = 256 then return
    else
      let n ← repeated symbol
      let back ← distance (← distances.symbol)
      copyBack back n
      items literals distances rounds

/-! ## Blocks -/

/-- A block of bytes as they are. Their number is followed by its complement. -/
def stored : EStateM Defect Inflation Unit := do
  align
  let n ← number 16
  if n + (← number 16) = 65535 then copyIn n else throw .corrupt

def coded (literals distances : List Nat) : EStateM Defect Inflation Unit := do
  let literals ← Code.ofLengths? literals
  let distances ← Code.ofLengths? distances
  items literals distances (← get).size

/-- A block in the code that needs no description. -/
def standard : EStateM Defect Inflation Unit :=
  coded (List.replicate 144 8 ++ List.replicate 112 9 ++ List.replicate 24 7 ++ List.replicate 8 8)
    (List.replicate 32 5)

/-- The symbols whose word lengths come first, in the order in which they come. -/
def lengthOrder : List Nat :=
  [16, 17, 18, 0, 8, 7, 9, 6, 10, 5, 11, 4, 12, 3, 13, 2, 14, 1, 15]

/-- Word lengths up to a total number, which runs of equal lengths may exceed. -/
def lengthsUpTo (code : Code) (total : Nat) :
    Nat → Array Nat → EStateM Defect Inflation (Array Nat)
  | 0, lengths => return lengths
  | rounds + 1, lengths =>
    if total ≤ lengths.size then return lengths
    else do
      let symbol ← code.symbol
      let run ← match symbol with
        | 16 =>
          match lengths.back? with
          | some l => pure (Array.replicate (3 + (← number 2)) l)
          | none => throw .corrupt
        | 17 => pure (Array.replicate (3 + (← number 3)) 0)
        | 18 => pure (Array.replicate (11 + (← number 7)) 0)
        | l => pure #[l]
      lengthsUpTo code total rounds (lengths ++ run)

/-- A block that starts with the description of its code. -/
def described : EStateM Defect Inflation Unit := do
  let literals := 257 + (← number 5)
  let distances := 1 + (← number 5)
  let described := 4 + (← number 4)
  if 286 < literals ∨ 30 < distances then throw .corrupt
  let given ← (lengthOrder.take described).mapM fun symbol => do return (symbol, ← number 3)
  let code := Code.ofLengths ((List.range 19).map fun symbol => (given.lookup symbol).getD 0)
  if ¬ code.IsComplete then throw .corrupt
  let total := literals + distances
  let lengths := (← lengthsUpTo code total total #[]).toList
  if lengths.length = total then coded (lengths.take literals) (lengths.drop literals)
  else throw .corrupt

/-- Blocks up to the last one. Each takes at least one bit. -/
def blocks : Nat → EStateM Defect Inflation Unit
  | 0 => throw .incomplete
  | rounds + 1 => do
    let last ← bit
    match ← number 2 with
    | 0 => stored
    | 1 => standard
    | 2 => described
    | _ => throw .corrupt
    if last = 1 then return else blocks rounds

/-- Inflate the bytes up to the end of the last block. -/
def inflate (bytes : List UInt8) : EStateM.Result Defect Inflation Unit :=
  let s := start bytes
  blocks s.size s

end CuttingPlanes.Gzip
