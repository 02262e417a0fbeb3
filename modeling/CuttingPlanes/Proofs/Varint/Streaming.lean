import CuttingPlanes.Proofs.Trace.Answers
import CuttingPlanes.Proofs.Trace.Binary.Relaying
import CuttingPlanes.Proofs.Varint.Bijection

/-!
# A buffer and a source of the same bytes

A decoder looks at the bytes of its buffer, and `read?` asks a source for one byte after the
other. Both take the same bytes for an integer, also for a defective one, so a source that
has the bytes before it which a decoder has not taken still has them behind a call of both
(`Follows`). All calls are answered alike, with offsets and positions further on by the
number of bytes in front of the source (`source_follows_buffer`).
-/

namespace CuttingPlanes.Varint

open Source Actions

/-- The source delivers the bytes that the decoder has not taken, and counts them from further
on. -/
structure Follows (ahead : Nat) (d : Decoder) (s : Source) : Prop where
  rest_eq : s.rest = d.rest
  position_eq : s.position = d.position + ahead
  failure_eq : s.failure = none

/-- The error of the same integer further on. -/
def Error.shift (e : Error) (ahead : Nat) : Error := ⟨e.defect, e.offset + ahead⟩

/-- How an action on a buffer and one on a source end: with the same value or the same error,
and the source still follows the decoder. -/
inductive EndsAlike {α : Type} (ahead : Nat) :
    EStateM.Result Error Decoder α → EStateM.Result StreamError Source α → Prop
  | ok (a : α) {d : Decoder} {s : Source} (h : Follows ahead d s) :
    EndsAlike ahead (.ok a d) (.ok a s)
  | error (e : Error) {d : Decoder} {s : Source} (h : Follows ahead d s) :
    EndsAlike ahead (.error e d) (.error (.malformed (e.shift ahead)) s)

variable {ahead : Nat} {d : Decoder} {s : Source}

theorem follows_ofBytes (bytes : List UInt8) (ahead : Nat) :
    Follows ahead (.ofBytes bytes) ⟨bytes, ahead, none⟩ :=
  ⟨(Decoder.rest_ofBytes bytes).symm, (Nat.zero_add ahead).symm, rfl⟩

theorem EndsAlike.follows {α : Type} {x : EStateM.Result Error Decoder α}
    {y : EStateM.Result StreamError Source α} (h : EndsAlike ahead x y) :
    Follows ahead (stateAfter x) (stateAfter y) := by
  cases h with
  | ok a h => exact h
  | error e h => exact h

theorem EndsAlike.answerOf_eq {α : Type} {x : EStateM.Result Error Decoder α}
    {y : EStateM.Result StreamError Source α} (h : EndsAlike ahead x y) :
    answerOf y = (answerOf x).mapError fun e => .malformed (e.shift ahead) := by
  cases h with
  | ok a h => rfl
  | error e h => rfl

/-! ## One byte -/

theorem Follows.byte?_of_none (h : Follows ahead d s) (hb : d.data[d.position]? = none) :
    s.byte? = .ok none s := by
  have hnil : s.rest = [] := h.rest_eq.trans (Decoder.rest_of_getElem?_none hb)
  obtain ⟨bytes, position, failure⟩ := s
  obtain rfl : bytes = [] := hnil
  obtain rfl : failure = none := h.failure_eq
  rfl

theorem Follows.byte?_of_some {b : UInt8} (h : Follows ahead d s)
    (hb : d.data[d.position]? = some b) :
    ∃ t, s.byte? = .ok (some b) t ∧ Follows ahead { d with position := d.position + 1 } t := by
  have hcons : s.rest = b :: Decoder.rest { d with position := d.position + 1 } :=
    h.rest_eq.trans (Decoder.rest_of_getElem?_some hb)
  have hbyte : s.byte? = .ok (some b)
      ⟨Decoder.rest { d with position := d.position + 1 }, s.position + 1, s.failure⟩ := by
    simp only [byte?, hcons]
  refine ⟨_, hbyte, rfl, ?_, h.failure_eq⟩
  simp only [h.position_eq, Nat.add_right_comm]

theorem readFrom_of_byte? {start : Nat} {taken : Taken} {b? : Option UInt8} {t : Source}
    (h : s.byte? = .ok b? t) : readFrom start taken s = readBehind start taken b? t := by
  have hbyte : EStateM.adaptExcept StreamError.source byte? s = .ok b? t := by
    simp only [EStateM.adaptExcept, h]
  rw [readFrom_eq_bind, bind_of_ok hbyte]

/-! ## One integer -/

/-- Both take bytes until the integer is complete or found defective. -/
theorem endsAlike_takeFrom (start : Nat) (taken : Taken) (h : Follows ahead d s) :
    EndsAlike ahead (Decoder.takeFrom start taken d) (readFrom (start + ahead) taken s) := by
  fun_induction Decoder.takeFrom start taken d generalizing s with
  | case1 taken d hb =>
    rw [readFrom_of_byte? (h.byte?_of_none hb)]
    exact .error ⟨.truncated, start⟩ h
  | case2 taken d b hb taken' hpush ih =>
    obtain ⟨t, hbyte, ht⟩ := h.byte?_of_some hb
    rw [readFrom_of_byte? hbyte]
    simp only [readBehind, hpush]
    exact ih ht
  | case3 taken d b hb v hpush =>
    obtain ⟨t, hbyte, ht⟩ := h.byte?_of_some hb
    rw [readFrom_of_byte? hbyte]
    simp only [readBehind, hpush]
    exact .ok v ht
  | case4 taken d b hb defect hpush =>
    obtain ⟨t, hbyte, ht⟩ := h.byte?_of_some hb
    rw [readFrom_of_byte? hbyte]
    simp only [readBehind, hpush]
    exact .error ⟨defect, start⟩ ht

theorem endsAlike_next (h : Follows ahead d s) : EndsAlike ahead (Decoder.next d) (read? s) := by
  have hend : d.data.size ≤ d.position ↔ s.rest.isEmpty ∧ s.failure.isNone := by
    rw [h.rest_eq, h.failure_eq, List.isEmpty_iff, Decoder.rest_eq_nil_iff]
    exact (and_iff_left rfl).symm
  unfold Decoder.next read?
  rw [h.position_eq]
  by_cases hsize : d.data.size ≤ d.position
  · rw [if_pos hsize, if_pos (hend.mp hsize)]
    exact .ok none h
  · rw [if_neg hsize, if_neg (mt hend.mpr hsize)]
    have htake := endsAlike_takeFrom d.position .nothing h
    generalize Decoder.takeFrom d.position .nothing d = x at htake
    generalize readFrom (d.position + ahead) .nothing s = y at htake
    cases htake with
    | ok v ht => exact .ok (some v) ht
    | error e ht => exact .error e ht

theorem offset_of_next_error {d' : Decoder} {e : Error} (h : Decoder.next d = .error e d') :
    e.offset = d.position := by
  have hne : d.rest ≠ [] := by
    intro hnil
    rw [Decoder.next_eq_none hnil] at h
    cases h
  obtain ⟨d'', -, hnext⟩ := Decoder.exists_next_eq_scan hne
  rw [h] at hnext
  split at hnext <;> cases hnext
  rfl

/-- A defect that is found in a source is found at the beginning of a buffer that holds what
was left in the source, and there too it is found with the last byte that was taken. -/
theorem exists_next_of_read?_error {e : Error} {t : Source} (hfailure : s.failure = none)
    (h : read? s = .error (.malformed e) t) :
    e.offset = s.position ∧ ∃ d, Decoder.next (.ofBytes s.rest) = .error ⟨e.defect, 0⟩ d ∧
      e.offset + d.position = t.position := by
  have hfollows : Follows s.position (.ofBytes s.rest) s :=
    ⟨(Decoder.rest_ofBytes s.rest).symm, (Nat.zero_add _).symm, hfailure⟩
  have hends := endsAlike_next hfollows
  rw [h] at hends
  generalize hnext : Decoder.next (.ofBytes s.rest) = x at hends
  cases hends with
  | @error e' d _ hbehind =>
    have hzero : e'.offset = 0 := offset_of_next_error hnext
    have hoffset : (e'.shift s.position).offset = s.position := by
      rw [Error.shift, hzero, Nat.zero_add]
    refine ⟨hoffset, d, ?_, ?_⟩
    · rw [Error.shift, ← hzero]
    · rw [hoffset, hbehind.position_eq, Nat.add_comm]

/-! ## All calls -/

theorem Follows.behind (h : Follows ahead d s) (i : Nat) :
    Follows ahead (behind Decoder.next d i) (Actions.behind read? s i) := by
  induction i generalizing d s with
  | zero => exact h
  | succ i ih => exact ih (endsAlike_next h).follows

/-- A buffer is decoded, and the same bytes are read from a source of which some bytes are
already gone. Call by call both answer with the same value, the end, or the same defect,
whatever the calls before have answered. The offset of a defect and the position behind a
call are further on in the source by the number of bytes that are gone. -/
theorem source_follows_buffer (bytes : List UInt8) (ahead i : Nat) :
    let d := Decoder.ofBytes bytes
    let s : Source := ⟨bytes, ahead, none⟩
    answer read? s i =
      (answer Decoder.next d i).mapError (fun e => .malformed ⟨e.defect, e.offset + ahead⟩) ∧
    (behind read? s (i + 1)).position = (behind Decoder.next d (i + 1)).position + ahead := by
  have hstart := follows_ofBytes bytes ahead
  exact ⟨(endsAlike_next (hstart.behind i)).answerOf_eq, (hstart.behind (i + 1)).position_eq⟩

/-- Behind an integer that is not in its shortest form, both go on with the byte behind it. -/
example :
    let s : Source := ⟨[0x82, 0x00, 0x04, 0x80], 7, none⟩
    (answer read? s 0, answer read? s 1, answer read? s 2, answer read? s 3) =
      (.error (.malformed ⟨.nonCanonical, 7⟩), .ok (some 2), .error (.malformed ⟨.truncated, 10⟩),
        .ok none) := by
  decide +kernel

end CuttingPlanes.Varint
