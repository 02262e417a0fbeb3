/-!
# Checksums

The checksum of a byte string is the remainder of dividing it, as a polynomial
over two elements, by a fixed polynomial of degree 32. Bits are taken in the
order in which they are sent, so the polynomials are written in reverse.

This is a part of the program's own codec for gzip files (`Gzip.pack`, `Gzip.unpack`).
-/

namespace CuttingPlanes.Gzip

/-- The divisor without its leading term. -/
def divisor : UInt32 := 0xEDB88320

def remainderBit (c : UInt32) : UInt32 :=
  if c % 2 = 1 then c / 2 ^^^ divisor else c / 2

def remainderByte (c : UInt32) (b : UInt8) : UInt32 :=
  Nat.repeat remainderBit 8 (c ^^^ b.toUInt32)

def checksum (bytes : List UInt8) : UInt32 :=
  bytes.foldl remainderByte 0xFFFFFFFF ^^^ 0xFFFFFFFF

end CuttingPlanes.Gzip
