import CuttingPlanes.Proofs.Trace.Recording

/-!
# Where a trace is cut off

Of a trace only the first bytes may be there. `CutAt` parts its records into those that are
complete and the rest, of which the first may be torn. There is exactly one way to do so
(`CutAt.exists_cutAt`, `CutAt.unique`), in either format.
-/

namespace CuttingPlanes

/-- The first records are those whose bytes lie completely within the first `n` bytes. -/
structure CutAt (n : Nat) (format : Format) (records whole rest : List Record) : Prop where
  append_eq : whole ++ rest = records
  le : (Writer.bytesOfAll format whole).length ≤ n
  lt : ∀ record ∈ rest.head?, n < (Writer.bytesOfAll format (whole ++ [record])).length

namespace CutAt

open Writer

variable {n : Nat} {format : Format} {records whole rest : List Record} {record : Record}

theorem cons (h : CutAt n format records whole rest) (record : Record) :
    CutAt ((bytesOf format record).length + n) format (record :: records) (record :: whole) rest where
  append_eq := congrArg (record :: ·) h.append_eq
  le := by
    have hle := h.le
    rw [bytesOfAll_cons, List.length_append]
    omega
  lt := by
    intro later hlater
    have hlt := h.lt later hlater
    rw [List.cons_append, bytesOfAll_cons, List.length_append]
    omega

theorem exists_cutAt (n : Nat) (format : Format) (records : List Record) :
    ∃ whole rest, CutAt n format records whole rest := by
  induction records generalizing n with
  | nil => exact ⟨[], [], rfl, Nat.zero_le n, by simp⟩
  | cons record records ih =>
    by_cases hle : (bytesOf format record).length ≤ n
    · obtain ⟨whole, rest, h⟩ := ih (n - (bytesOf format record).length)
      have hcons := h.cons record
      rw [Nat.add_sub_cancel' hle] at hcons
      exact ⟨record :: whole, rest, hcons⟩
    · refine ⟨[], record :: records, rfl, Nat.zero_le n, ?_⟩
      intro first hfirst
      obtain rfl : record = first := Option.some.inj hfirst
      simpa [bytesOfAll] using hle

/-- A record that follows the whole ones extends beyond the cut. -/
theorem eq_nil_of_append {more : List Record} (h : CutAt n format records whole (more ++ rest))
    (hle : (bytesOfAll format (whole ++ more)).length ≤ n) : more = [] := by
  cases more with
  | nil => rfl
  | cons record more =>
    have hlt := h.lt record rfl
    rw [bytesOfAll_append, bytesOfAll_singleton, List.length_append] at hlt
    rw [bytesOfAll_append, bytesOfAll_cons, List.length_append, List.length_append] at hle
    omega

/-- There is only one way to cut. -/
theorem unique {whole' rest' : List Record} (h : CutAt n format records whole rest)
    (h' : CutAt n format records whole' rest') : whole = whole' ∧ rest = rest' := by
  obtain ⟨more, rfl, rfl⟩ | ⟨more, rfl, rfl⟩ :=
    List.append_eq_append_iff.mp (h.append_eq.trans h'.append_eq.symm)
  · obtain rfl := h.eq_nil_of_append h'.le
    exact ⟨(List.append_nil whole).symm, rfl⟩
  · obtain rfl := h'.eq_nil_of_append h.le
    exact ⟨List.append_nil whole', rfl⟩

/-- The cut bytes are those of the whole records, and behind them some of the rest. -/
theorem take_eq (h : CutAt n format records whole rest) :
    (bytesOfAll format records).take n =
      bytesOfAll format whole ++
        (bytesOfAll format rest).take (n - (bytesOfAll format whole).length) := by
  rw [← h.append_eq, bytesOfAll_append, List.take_append, List.take_of_length_le h.le]

theorem take_eq_of_boundary (h : CutAt n format records whole rest)
    (hboundary : rest = [] ∨ n = (bytesOfAll format whole).length) :
    (bytesOfAll format records).take n = bytesOfAll format whole := by
  have hnone : (bytesOfAll format rest).take (n - (bytesOfAll format whole).length) = [] := by
    obtain rfl | rfl := hboundary
    · exact List.take_nil
    · rw [Nat.sub_self, List.take_zero]
  rw [h.take_eq, hnone, List.append_nil]

/-- Fewer bytes are left than the record behind the whole ones has. -/
theorem lt_length_bytesOf (h : CutAt n format records whole (record :: rest)) :
    n - (bytesOfAll format whole).length < (bytesOf format record).length := by
  have hle := h.le
  have hlt := h.lt record rfl
  rw [bytesOfAll_append, bytesOfAll_singleton, List.length_append] at hlt
  omega

/-- All that is left of the rest is left of its first record. -/
theorem take_rest_eq (h : CutAt n format records whole (record :: rest)) :
    (bytesOfAll format (record :: rest)).take (n - (bytesOfAll format whole).length) =
      (bytesOf format record).take (n - (bytesOfAll format whole).length) := by
  rw [bytesOfAll_cons, List.take_append_of_le_length (Nat.le_of_lt h.lt_length_bytesOf)]

/-- Behind the whole records stand some bytes of the next one, but not all. -/
theorem exists_take_eq (h : CutAt n format records whole (record :: rest))
    (hne : n ≠ (bytesOfAll format whole).length) :
    ∃ cut missing, (bytesOfAll format records).take n = bytesOfAll format whole ++ cut ∧
      cut ++ missing = bytesOf format record ∧ cut ≠ [] ∧ missing ≠ [] := by
  have hle := h.le
  have hlt := h.lt_length_bytesOf
  refine ⟨_, _, by rw [h.take_eq, h.take_rest_eq], List.take_append_drop _ _, ?_, ?_⟩
  · intro hnil
    have hlength := congrArg List.length hnil
    rw [List.length_take, List.length_nil] at hlength
    omega
  · intro hnil
    have hlength := congrArg List.length hnil
    rw [List.length_drop, List.length_nil] at hlength
    omega

end CutAt

end CuttingPlanes
