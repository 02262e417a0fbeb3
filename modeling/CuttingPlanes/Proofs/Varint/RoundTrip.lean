import CuttingPlanes.Proofs.Stream.Taking
import CuttingPlanes.Proofs.Varint.Scanning
import CuttingPlanes.Varint.Stream

/-!
# Integers that are written and read

What is written for an integer is taken from a source as that integer, and no byte
behind it is touched. If the source ends before the last byte of it, the integer is
truncated.
-/

namespace CuttingPlanes.Varint

open Source

theorem readFrom_of_scan (start : Nat) {taken : Taken} {bytes rest : List UInt8} {v : Int64}
    (h : scan taken bytes = (.ok v, rest)) (position : Nat) (failure : Option Fault) :
    ∃ count, bytes.length = count + rest.length ∧
      readFrom start taken ⟨bytes, position, failure⟩ =
        .ok v ⟨rest, position + count, failure⟩ := by
  induction bytes generalizing taken position with
  | nil => cases h
  | cons b bytes ih =>
    rw [scan] at h
    split at h
    · rename_i taken' hpush
      obtain ⟨count, hlength, hread⟩ := ih h (position + 1)
      refine ⟨count + 1, by rw [List.length_cons, hlength]; omega, ?_⟩
      rw [readFrom]
      simp only [byte?, hpush, hread, Nat.add_assoc, Nat.add_comm 1]
    · rename_i hpush
      cases h
      refine ⟨1, by rw [List.length_cons, Nat.add_comm], ?_⟩
      rw [readFrom]
      simp only [byte?, hpush]
    · cases h

/-- What is written for an integer is read as that integer. -/
theorem takes_read? (v : Int64) : Takes read? (encode v) (some v) := by
  intro rest position failure
  have hne : (encode v ++ rest).isEmpty = false := by
    simp [encode, groups_ne_nil]
  obtain ⟨count, hlength, hread⟩ :=
    readFrom_of_scan position (scan_eq_ok_iff.mpr (Eq.refl (encode v ++ rest))) position failure
  rw [List.length_append, Nat.add_right_cancel_iff] at hlength
  simp only [read?, hne, Bool.false_eq_true, false_and, if_false, hread, hlength]

/-- The groups of an integer without the last ones are no integer. -/
theorem readFrom_of_cut (start : Nat) {taken : Taken} {u : Nat} {v : Int64}
    (h : Completes taken u v) {cut missing : List UInt8} (hcut : cut ++ missing = groups u)
    (hne : missing ≠ []) (position : Nat) :
    readFrom start taken ⟨cut, position, none⟩ =
      .error (.malformed ⟨.truncated, start⟩) ⟨[], position + cut.length, none⟩ := by
  induction cut generalizing taken u position with
  | nil =>
    rw [readFrom]
    rfl
  | cons b cut ih =>
    by_cases hu : u < 128
    · rw [groups_of_lt hu] at hcut
      obtain ⟨-, hnil⟩ := List.cons.inj hcut
      exact absurd (List.append_eq_nil_iff.mp hnil).2 hne
    · obtain ⟨taken', hpush, h'⟩ := h.push_marked (Nat.le_of_not_lt hu)
      rw [groups_of_le (Nat.le_of_not_lt hu)] at hcut
      obtain ⟨rfl, hrest⟩ := List.cons.inj hcut
      rw [readFrom]
      simp only [byte?, hpush, ih h' hrest, List.length_cons, Nat.add_assoc, Nat.add_comm 1]

end CuttingPlanes.Varint
