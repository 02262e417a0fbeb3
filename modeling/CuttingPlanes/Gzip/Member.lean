import CuttingPlanes.Gzip.Checksum
import CuttingPlanes.Gzip.Inflation
import CuttingPlanes.Stream.Source

/-!
# Gzip files

A file holds a header, compressed bytes, and the checksum and the length of what
they inflate to. Files are written with their bytes as they are, in blocks as
large as possible; compressed files of any kind are read. Whatever follows the
length is ignored.

The codec is the program's own: another one may pack the same bytes into a different
file. Commands use it for the files that their paths name as gzip files, and nothing
that is said of them depends on more than that `unpack` undoes `pack`.
-/

namespace CuttingPlanes.Gzip

/-- The bytes of a number, the least significant one first. -/
def littleEndian : Nat → Nat → List UInt8
  | 0, _ => []
  | width + 1, n => UInt8.ofNat n :: littleEndian width (n / 256)

/-- The number that bytes spell, the least significant one first. -/
def ofLittleEndian (bytes : List UInt8) : Nat := bytes.foldr (fun b n => b.toNat + 256 * n) 0

@[simp] theorem length_littleEndian (width n : Nat) : (littleEndian width n).length = width := by
  induction width generalizing n with
  | zero => rfl
  | succ width ih => simp [littleEndian, ih]

/-! ## Writing -/

def blockLimit : Nat := 65535

def storedBlock (last : Bool) (bytes : List UInt8) : List UInt8 :=
  (if last then 1 else 0) :: littleEndian 2 bytes.length ++
    littleEndian 2 (blockLimit - bytes.length) ++ bytes

def storedBlocks (bytes : List UInt8) : List UInt8 :=
  if bytes.length ≤ blockLimit then storedBlock true bytes
  else storedBlock false (bytes.take blockLimit) ++ storedBlocks (bytes.drop blockLimit)
termination_by bytes.length
decreasing_by simp [blockLimit] at *; omega

/-- Magic number and method, without flags, time and name. -/
def plainHeader : List UInt8 := [0x1f, 0x8b, 8, 0, 0, 0, 0, 0, 0, 255]

/-- Checksum and length of the bytes. -/
def trailer (bytes : List UInt8) : List UInt8 :=
  littleEndian 4 (checksum bytes).toNat ++ littleEndian 4 (bytes.length % 0x100000000)

def pack (bytes : List UInt8) : List UInt8 := plainHeader ++ storedBlocks bytes ++ trailer bytes

/-! ## Reading -/

/-- The bytes behind the first `n`. -/
def skip (n : Nat) (bytes : List UInt8) : Except Defect (List UInt8) :=
  if n ≤ bytes.length then .ok (bytes.drop n) else .error .truncated

/-- The most bytes that a field can have before the zero that ends it. -/
def fieldLimit : Nat := 65535

/-- The bytes behind a field that ends with a zero. -/
def skipText (bytes : List UInt8) : Except Defect (List UInt8) :=
  if fieldLimit < (bytes.takeWhile (· != 0)).length then .error .longField
  else match bytes.dropWhile (· != 0) with
    | _ :: rest => .ok rest
    | [] => .error .truncated

/-- The bytes behind a field that starts with its length. -/
def skipSized (bytes : List UInt8) : Except Defect (List UInt8) := do
  skip (ofLittleEndian (bytes.take 2)) (← skip 2 bytes)

/-- The bytes behind the checksum of the header, of which half is kept. -/
def skipChecksum (file bytes : List UInt8) : Except Defect (List UInt8) := do
  let rest ← skip 2 bytes
  let sum := checksum (file.take (file.length - bytes.length))
  if ofLittleEndian (bytes.take 2) = sum.toNat % 0x10000 then .ok rest else .error .checksum

/-- Whether the flag that stands for a power of two is set. -/
def isSet (flags : UInt8) (power : Nat) : Bool := flags.toNat / power % 2 = 1

/-- The bytes behind the header. Its flags tell which optional fields it has. -/
def skipHeader (file : List UInt8) : Except Defect (List UInt8) := do
  let bytes ← skip 10 file
  match file with
  | 0x1f :: 0x8b :: 8 :: flags :: _ =>
    if 32 ≤ flags then throw .header
    let bytes ← if isSet flags 4 then skipSized bytes else pure bytes
    let bytes ← if isSet flags 8 then skipText bytes else pure bytes
    let bytes ← if isSet flags 16 then skipText bytes else pure bytes
    if isSet flags 2 then skipChecksum file bytes else pure bytes
  | _ => throw .header

/-- Whether bytes start with the trailer of what was inflated. -/
def checkTrailer (rest out : List UInt8) : Except Defect Unit := do
  let _ ← skip 8 rest
  if rest.take 8 = trailer out then .ok () else .error .checksum

/-- Inflated bytes are handed on in windows of this size. -/
def window : Nat := 32768

/-- The bytes that are handed on if what follows them is corrupt. A full window is
handed on once a byte behind it has been inflated, and the last window is lost. -/
def handedOn (out : Array UInt8) : List UInt8 := out.toList.take ((out.size - 1) / window * window)

/-- What a file inflates to, and the defect that is met behind it, if any. -/
def unpackBytes (file : List UInt8) : List UInt8 × Option Defect :=
  match skipHeader file with
  | .error d => ([], some d)
  | .ok bytes =>
    match inflate bytes with
    | .ok _ s =>
      match checkTrailer s.rest s.out.toList with
      | .ok _ => (s.out.toList, none)
      | .error d => (s.out.toList, some d)
    | .error .incomplete s => (s.out.toList, some .incomplete)
    | .error d s => (handedOn s.out, some d)

/-- The source of what a file inflates to. If the file cannot be read to the end,
that is the fault met behind the last inflated byte. -/
def unpack (s : Source) : Source :=
  match unpackBytes s.rest with
  | (bytes, none) => .ofBytes bytes
  | (bytes, some d) =>
    let fault := match d, s.failure with
      | .truncated, some fault | .incomplete, some fault => fault
      | d, _ => .medium d.message
    ⟨bytes, 0, some fault⟩

end CuttingPlanes.Gzip
