import CuttingPlanes.Proofs.Trace.Binary.RoundTrip
import CuttingPlanes.Proofs.Trace.Text.RoundTrip

/-!
# Deductions that are written, read and checked

In either format the steps of a trace are read as they were recorded. So the trace of a
deduction is verified, and what the checker knows in the end is that deduction
(`exists_verify_bytesOfAll`).
-/

namespace CuttingPlanes

theorem Reader.exists_records_of_fits (format : Format) {records : List Record}
    (h : Consecutive 0 records) (hfits : ∀ record ∈ records, record.FitsBinary) :
    ∃ read, (new format (.ofBytes (Writer.bytesOfAll format records))).records = (read, none) ∧
      stepsOf read = stepsOf records := by
  cases format with
  | text =>
    have hhints : ∀ s ∈ stepsOf records, ∀ hint ∈ s.hints, hint.number < 0x10000000000000000 := by
      intro s hs hint hhint
      have hstep : Record.FitsBinary (.step s) := hfits _ (mem_stepsOf.mp hs)
      exact Nat.lt_trans (hstep.number_lt hint hhint) (by decide)
    exact ⟨_, records_text h hhints, stepsOf_inText records⟩
  | binary => exact ⟨records, records_binary h hfits, rfl⟩

/-- The trace of a deduction is read to its end, and all its steps are accepted. -/
theorem Checker.exists_verify_bytesOfAll (format : Format) {records : List Record}
    (h : Consecutive 0 records) (hfits : ∀ record ∈ records, record.FitsBinary)
    (hd : Deduction (stepsOf records)) :
    ∃ c, new.verify (.new format (.ofBytes (Writer.bytesOfAll format records))) = .ok () c ∧
      c.HasAccepted (stepsOf records) := by
  obtain ⟨read, hread, hsteps⟩ := Reader.exists_records_of_fits format h hfits
  have hdeduction : Deduction ([] ++ stepsOf records) := hd
  obtain ⟨c, hc⟩ := exists_checkAll hasAccepted_new hdeduction
  have haccepted := hasAccepted_of_checkAll hasAccepted_new hc
  exact ⟨c, verify_eq_ok_iff.mpr ⟨by rw [hread], by rw [hread, hsteps, hc]⟩, haccepted⟩

/-- The hints of a deduction fit into a binary trace if its steps are not too many. -/
theorem Deduction.hintsFit {records : List Record} (h : Consecutive 0 records)
    (hd : Deduction (stepsOf records)) (hlength : (stepsOf records).length < 0x8000000000000000)
    {s : Step} (hs : .step s ∈ records) : Trace.Binary.HintsFit s.hints where
  length_lt := by
    cases hkind : s.kind with
    | input => simp [h.hints_eq_nil hs hkind]
    | derived => simp [hd.length_hints s (mem_stepsOf.mpr hs) hkind]
  number_lt := by
    intro hint hhint
    have hlt := h.hint_lt hs hhint
    rw [StepId.number]
    omega

end CuttingPlanes
