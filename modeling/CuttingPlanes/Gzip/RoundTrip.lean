import CuttingPlanes.Gzip.Member

/-!
# Unpacking what was packed

Blocks that hold their bytes as they are inflate to those bytes, however many
blocks there are. The main statement is `unpack_pack`, the one fact about the
program's own codec that statements about commands rest on.
-/

namespace CuttingPlanes.Gzip

open Inflation

/-! ## Numbers -/

/-- The bits of a number may be taken in two parts. -/
theorem number_add (m n : Nat) :
    number (m + n) = do
      let a ← number m
      let b ← number n
      return a + Nat.pow 2 m * b := by
  induction m with
  | zero => simp only [number, Nat.zero_add, Nat.pow, Nat.one_mul, pure_bind, bind_pure]
  | succ m ih =>
    rw [Nat.succ_add, number, number, ih]
    simp only [bind_assoc, pure_bind]
    congr; funext a; congr; funext b; congr; funext c
    rw [show Nat.pow 2 (m + 1) = Nat.pow 2 m * 2 from rfl, Nat.mul_add, Nat.add_assoc,
      Nat.mul_comm (Nat.pow 2 m) 2, Nat.mul_assoc]

theorem number_eight (part : Nat) (b : UInt8) (rest : List UInt8) (out : Array UInt8) :
    number 8 ⟨part, 0, b :: rest, out⟩ = .ok b.toNat ⟨0, 0, rest, out⟩ := by
  have := b.toNat_lt
  simp [number, bit, bind, EStateM.bind, pure, EStateM.pure]
  omega

theorem number_sixteen {n : Nat} (h : n < 0x10000) (part : Nat) (rest : List UInt8)
    (out : Array UInt8) :
    number 16 ⟨part, 0, littleEndian 2 n ++ rest, out⟩ = .ok n ⟨0, 0, rest, out⟩ := by
  rw [show (16 : Nat) = 8 + 8 from rfl, number_add]
  simp only [bind, EStateM.bind, littleEndian, List.cons_append, List.nil_append, number_eight,
    pure, EStateM.pure]
  simp
  omega

/-! ## Blocks -/

theorem copyIn_append (part count : Nat) (bytes rest : List UInt8) (out : Array UInt8) :
    copyIn bytes.length ⟨part, count, bytes ++ rest, out⟩ =
      .ok () ⟨part, count, rest, out ++ bytes⟩ := by
  simp [copyIn]

theorem stored_append {bytes : List UInt8} (h : bytes.length ≤ blockLimit) (part count : Nat)
    (rest : List UInt8) (out : Array UInt8) :
    stored ⟨part, count, littleEndian 2 bytes.length ++
      (littleEndian 2 (blockLimit - bytes.length) ++ (bytes ++ rest)), out⟩ =
        .ok () ⟨0, 0, rest, out ++ bytes⟩ := by
  unfold blockLimit at *
  simp only [stored, bind, EStateM.bind, align]
  rw [number_sixteen (by omega)]
  simp only
  rw [number_sixteen (by omega)]
  simp only
  rw [if_pos (by omega), copyIn_append]

theorem blocks_storedBlock {bytes : List UInt8} (h : bytes.length ≤ blockLimit) (last : Bool)
    (rounds part : Nat) (rest : List UInt8) (out : Array UInt8) :
    blocks (rounds + 1) ⟨part, 0, storedBlock last bytes ++ rest, out⟩ =
      if last then .ok () ⟨0, 0, rest, out ++ bytes⟩
      else blocks rounds ⟨0, 0, rest, out ++ bytes⟩ := by
  have := stored_append h
  cases last <;>
    simp [blocks, storedBlock, bit, number, bind, EStateM.bind, pure, EStateM.pure, this]

theorem length_storedBlock_pos (last : Bool) (bytes : List UInt8) :
    0 < (storedBlock last bytes).length := by
  simp [storedBlock]

/-- With a round for each byte there are enough rounds for all blocks. -/
theorem blocks_storedBlocks {bytes : List UInt8} {rounds : Nat}
    (h : (storedBlocks bytes).length ≤ rounds) (part : Nat) (rest : List UInt8)
    (out : Array UInt8) :
    blocks rounds ⟨part, 0, storedBlocks bytes ++ rest, out⟩ =
      .ok () ⟨0, 0, rest, out ++ bytes⟩ := by
  fun_induction storedBlocks bytes generalizing rounds part out with
  | case1 bytes hle =>
    have hpos := length_storedBlock_pos true bytes
    obtain ⟨rounds, rfl⟩ : ∃ n, rounds = n + 1 := ⟨rounds - 1, by omega⟩
    rw [blocks_storedBlock hle, if_pos rfl]
  | case2 bytes hgt ih =>
    have hpos := length_storedBlock_pos false (bytes.take blockLimit)
    rw [List.length_append] at h
    obtain ⟨rounds, rfl⟩ : ∃ n, rounds = n + 1 := ⟨rounds - 1, by omega⟩
    rw [List.append_assoc, blocks_storedBlock (List.length_take_le _ _), if_neg (by simp),
      ih (by omega)]
    have happ : out ++ bytes.take blockLimit ++ bytes.drop blockLimit = out ++ bytes :=
      Array.toList_inj.mp (by simp [List.append_assoc])
    rw [happ]

/-! ## Files -/

theorem skipHeader_plainHeader (bytes : List UInt8) :
    skipHeader (plainHeader ++ bytes) = .ok bytes := by
  simp [skipHeader, plainHeader, skip, isSet]

theorem checkTrailer_trailer (bytes : List UInt8) :
    checkTrailer (trailer bytes) bytes = .ok () := by
  simp [checkTrailer, skip, trailer, bind, Except.bind, List.take_of_length_le]

theorem unpackBytes_pack (bytes : List UInt8) : unpackBytes (pack bytes) = (bytes, none) := by
  unfold unpackBytes pack
  rw [List.append_assoc, skipHeader_plainHeader]
  simp only [inflate, start]
  rw [blocks_storedBlocks (by simp [size]; omega)]
  simp [checkTrailer_trailer]

/-- A file unpacks to the bytes that were packed. -/
theorem unpack_pack (bytes : List UInt8) : unpack (.ofBytes (pack bytes)) = .ofBytes bytes := by
  simp [unpack, Source.ofBytes, unpackBytes_pack]

end CuttingPlanes.Gzip
