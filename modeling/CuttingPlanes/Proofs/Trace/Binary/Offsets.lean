import CuttingPlanes.Proofs.Trace.Binary.Script
import CuttingPlanes.Proofs.Varint.Streaming

/-!
# Offsets in binary traces

A reader of a binary trace stands behind the bytes that it has taken, however its calls have
ended. The offset in an error is the place of the defective integer in the whole trace, so a
decoder that starts there finds the same defect and stops where the reader stands
(`offset_law`).
-/

namespace CuttingPlanes

open Source Actions Varint

theorem Source.Advances.drop_position {bytes : List UInt8} {s : Source}
    (h : (ofBytes bytes).Advances s) : bytes.drop s.position = s.rest := by
  obtain ⟨taken, hrest, hposition, -⟩ := h
  have hbytes : bytes = taken ++ s.rest := hrest
  rw [hposition, hbytes]
  exact List.drop_left' (Nat.zero_add _).symm

namespace Reader

variable {r r' : Reader} {e : Varint.Error}

theorem binaryError_eq_varint {number : Nat} {failure : Trace.Binary.Failure}
    (h : binaryError number failure = .varint e) : failure = .varint e := by
  cases failure <;> cases h
  rfl

/-- A call that ends with a defect has taken a code, and reads the defective integer behind
it. -/
theorem exists_of_nextBinary_varint (h : nextBinary r = .error (.varint e) r') :
    ∃ code source, r.source.byte? = .ok (some code) source ∧
      Trace.Binary.Script.Blames e source r'.source := by
  unfold nextBinary at h
  split at h
  · cases h
  · cases h
  · rename_i code source hbyte
    refine ⟨code, source, hbyte, ?_⟩
    split at h
    · rename_i failure source' hentry
      obtain ⟨hfailure, rfl⟩ := EStateM.Result.error.inj h
      rw [binaryError_eq_varint hfailure, ← (Trace.Binary.Scripted.entry code).run_eq] at hentry
      exact Trace.Binary.Script.blames_of_varint _ hentry
    · rename_i entry _ _
      cases entry <;> cases h

theorem position_of_byte?_some {s t : Source} {b : UInt8} (h : s.byte? = .ok (some b) t) :
    t.position = s.position + 1 := by
  unfold byte? atEnd at h
  split at h
  · split at h <;> cases h
  · cases h
    rfl

/-- Calls for the records of a binary trace, going on behind errors. Behind each call the
position is the number of bytes that are gone. When a call ends with a defect of an integer,
the integer starts at the offset, behind the first byte that the call has taken: decoding the
trace from there on fails for the first integer, with the same defect, and takes all the bytes
up to the new position and no others. -/
theorem offset_law (bytes : List UInt8) (i : Nat) :
    let r := new .binary (.ofBytes bytes)
    let before := (behind nextRecord r i).source
    let after := (behind nextRecord r (i + 1)).source
    (∃ gone, bytes = gone ++ after.rest ∧ after.position = gone.length) ∧
    ∀ e, answer nextRecord r i = .error (.varint e) → before.position < e.offset ∧
      ∃ d, Decoder.next (.ofBytes (bytes.drop e.offset)) = .error ⟨e.defect, 0⟩ d ∧
        e.offset + d.position = after.position := by
  intro r before after
  have hafter : (ofBytes bytes).Advances after := advances_behind r (i + 1)
  refine ⟨?_, fun e hanswer => ?_⟩
  · obtain ⟨gone, hrest, hposition, -⟩ := hafter
    exact ⟨gone, hrest, hposition.trans (Nat.zero_add _)⟩
  · have hbefore : (ofBytes bytes).Advances before := advances_behind r i
    have hcall : nextBinary (behind nextRecord r i) =
        .error (.varint e) (behind nextRecord r (i + 1)) := by
      have hformat : (behind nextRecord r i).format = .binary := format_behind r i
      have hnext := answer_eq_error_iff.mp hanswer
      rwa [nextRecord, hformat] at hnext
    obtain ⟨code, source, hbyte, u, hu, hread⟩ := exists_of_nextBinary_varint hcall
    have hadvances := (hbefore.trans (advancing_byte?.ok hbyte)).trans hu
    obtain ⟨hoffset, d, hnext, hposition⟩ :=
      exists_next_of_read?_error hadvances.failure_eq hread
    refine ⟨?_, d, ?_, hposition⟩
    · have hcode : source.position = before.position + 1 := position_of_byte?_some hbyte
      obtain ⟨taken, -, hbehind, -⟩ := hu
      omega
    · rw [hoffset, hadvances.drop_position]
      exact hnext

end Reader

end CuttingPlanes
