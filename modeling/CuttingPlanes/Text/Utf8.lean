/-!
# UTF-8

Characters are written as their UTF-8 bytes, and bytes are read only when they
are well-formed as a whole. `decode?_encode` and `eq_encode_of_decode?` say that
the two are inverse.
-/

namespace CuttingPlanes.Text

def encode (cs : List Char) : List UInt8 := cs.flatMap String.utf8EncodeChar

/-- The text that bytes spell, if they are well-formed UTF-8. -/
def decode? (bytes : List UInt8) : Option (List Char) :=
  (String.fromUTF8? bytes.toByteArray).map String.toList

@[simp] theorem encode_nil : encode [] = [] := rfl

@[simp] theorem encode_append (cs ds : List Char) : encode (cs ++ ds) = encode cs ++ encode ds := by
  simp [encode]

@[simp] theorem decode?_encode (cs : List Char) : decode? (encode cs) = some cs := by
  have h : (encode cs).toByteArray.IsValidUTF8 := .intro cs rfl
  have hs : String.fromUTF8 (encode cs).toByteArray h = String.ofList cs := rfl
  simp [decode?, String.fromUTF8?, h, hs]

theorem eq_encode_of_decode? {bytes : List UInt8} {cs : List Char} (h : decode? bytes = some cs) :
    bytes = encode cs := by
  have hv : bytes.toByteArray.IsValidUTF8 := by
    unfold decode? String.fromUTF8? at h
    split at h
    · assumption
    · simp at h
  obtain ⟨ds, hds⟩ := hv
  have hb : bytes = encode ds := by
    simpa [List.utf8Encode, encode] using congrArg (·.data.toList) hds
  rw [hb, decode?_encode, Option.some.injEq] at h
  rw [hb, h]

end CuttingPlanes.Text
