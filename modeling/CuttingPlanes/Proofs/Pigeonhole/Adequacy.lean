import CuttingPlanes.Proofs.CommandLine.Execution
import CuttingPlanes.Proofs.Pigeonhole.Placement
import CuttingPlanes.Proofs.Pigeonhole.Refutation
import CuttingPlanes.Proofs.Trace.Replaying

/-!
# Adequacy of pigeonhole traces

The trace of a refutation says what it should: its inputs are satisfied by the
placements of the pigeons, all its steps are accepted when it is read and checked, and
it is verified exactly when there are more pigeons than holes. Both commands agree on
that.
-/

namespace CuttingPlanes

open Actions

namespace Pigeonhole

/-! ## Reading the trace -/

/-- The characters of a text take at most four bytes each. -/
theorem length_encode_le (cs : List Char) : (Text.encode cs).length ≤ 4 * cs.length := by
  induction cs with
  | nil => simp
  | cons c cs ih =>
    have hc := Char.utf8Size_le_four c
    have hsplit : Text.encode (c :: cs) = String.utf8EncodeChar c ++ Text.encode cs := rfl
    rw [hsplit, List.length_append, String.length_utf8EncodeChar, List.length_cons]
    omega

theorem length_toString_le {n : Nat} (h : n < 0x100000000) : (toString n).toList.length ≤ 10 := by
  have hdigits : (toString n).toList = Nat.toDigits 10 n := by simp [Nat.repr]
  rw [hdigits, Nat.length_toDigits_le_iff (by decide) (by decide)]
  omega

theorem length_heading (p : Pigeonhole) {text : String} (h : text ∈ p.heading) :
    text.toList.length < 100 := by
  have hholes := length_toString_le p.holes_lt
  have hpigeons := length_toString_le p.pigeons_lt
  rcases List.mem_pair.mp h with rfl | rfl
  · have h1 : (toString "pigeonhole ").toList.length = 11 := rfl
    have h2 : (toString " holes ").toList.length = 7 := rfl
    have h3 : (toString " pigeons").toList.length = 8 := rfl
    simp only [String.toList_append, List.length_append, h1, h2, h3]
    omega
  · decide

variable {p : Pigeonhole} {sink : Sink} {format : Format} {records : List Record}
  {r : Refutation} {w : Writer}

theorem HasRefuted.fitsBinary (h : p.HasRefuted sink format records r w) :
    ∀ record ∈ records, record.FitsBinary := by
  intro record hrecord
  cases record with
  | comment text =>
    have hbytes := length_encode_le text.toList
    obtain ⟨last, htotal, -⟩ := h.total
    have hshort := p.length_heading (htotal.comments hrecord)
    show _ < _
    omega
  | step s =>
    have hlength := h.length_steps
    have hpigeons := p.pigeons_lt
    have hholes := p.holes_lt
    exact h.deduction.hintsFit h.recorded.consecutive (by omega) hrecord

/-- Reading and checking accepts every step, and finds a contradiction at the end if
one was derived. -/
theorem HasRefuted.verify (h : p.HasRefuted sink format records r w) :
    ∃ c, Checker.new.verify (.new format (.ofBytes (Writer.bytesOfAll format records))) = .ok () c ∧
      c.inputs = r.counts.inputs ∧ c.derived = r.counts.derived ∧
      c.concludesContradiction = r.constraint.isContradiction := by
  obtain ⟨c, hc, hacc⟩ :=
    Checker.exists_verify_bytesOfAll format h.recorded.consecutive h.fitsBinary h.deduction
  obtain ⟨last, htotal, -, hconstraint⟩ := h.total
  have hcounts : r.counts = countsOf records := h.counts_eq.trans h.recorded.counts_eq
  refine ⟨c, hc, ?_, ?_, ?_⟩
  · rw [hacc.inputs, hcounts]
    rfl
  · rw [hacc.derived, hcounts]
    rfl
  · rw [Bool.eq_iff_iff, hacc.concludesContradiction_iff, htotal.getLast, hconstraint]
    simp

end Pigeonhole

/-! ## The commands -/

namespace Command

open Report

variable {holes pigeons : Nat} {format : Format} {r : Pigeonhole.Refutation} {w : Writer}

theorem keepTrace_succeeds (path : Path) (w : Writer) (report : Report) :
    Succeeds (keepTrace (some path) w) report fun _ t =>
      t.created = fileOfTrace path w.outlet.sink.held.toList ∧ t.output = report.output :=
  ⟨(), _, rfl, rfl, rfl⟩

/-- The file gets the trace, whether the refutation ends in a contradiction or not. -/
theorem executePigeonhole_of_ok (path : Path) (source : Source)
    (h : Pigeonhole.refute holes pigeons (.new format .unlimited) = .ok r w) :
    ∃ report : Report, report.created = fileOfTrace path w.outlet.sink.held.toList ∧
      executePigeonhole holes pigeons (some path) format (.ok source) .nothing =
        if r.constraint.isContradiction then .ok () report else .error .noContradiction report := by
  obtain ⟨_, t₁, h₁, hcreated₁, -⟩ := keepTrace_succeeds path w .nothing
  obtain ⟨_, t₂, h₂, hcreated₂, -⟩ := tell_succeeds [.written r.counts] t₁
  obtain ⟨_, t₃, h₃, hcreated₃, -⟩ := printLine_succeeds
    s!"c step {r.last.number} derives {r.constraint.text}" t₂
  have hcreated : t₃.created = fileOfTrace path w.outlet.sink.held.toList := by
    rw [hcreated₃, hcreated₂, hcreated₁]
  unfold executePigeonhole
  rw [bind_of_ok (orFail_of_ok rfl _ _)]
  simp only [Option.isSome_some, if_true, h]
  rw [bind_of_ok h₁, bind_of_ok h₂, bind_of_ok h₃]
  cases hcontra : r.constraint.isContradiction with
  | true =>
    obtain ⟨_, t₄, h₄, hcreated₄, -⟩ := printLine_succeeds "s UNSATISFIABLE" t₃
    exact ⟨t₄, hcreated₄.trans hcreated, h₄⟩
  | false => exact ⟨t₃, hcreated, rfl⟩

end Command

/-! ## The whole pipeline -/

/-- What a trace of an instance should be, in itself and for the two commands. -/
structure Pigeonhole.IsAdequate (p : Pigeonhole) (format : Format) (trace : List UInt8) :
    Prop where
  satisfied_iff : ∀ a, IsBinary a →
    ((∀ c ∈ inputsOf (Reader.new format (.ofBytes trace)).records.1, c.Satisfied a) ↔
      p.IsPlacement a)
  satisfiable_iff :
    (∃ a, IsBinary a ∧
      ∀ c ∈ inputsOf (Reader.new format (.ofBytes trace)).records.1, c.Satisfied a) ↔
      p.pigeons ≤ p.holes
  verified : ∃ c, Checker.new.verify (Reader.new format (.ofBytes trace)) = .ok () c ∧
    c.inputs = p.pigeons + p.holes ∧ c.derived = p.pigeons + p.holes - 1 ∧
    (c.concludesContradiction = true ↔ p.holes < p.pigeons)
  commands : ∀ (path : Path) (source : Source), ∃ written verified : Report,
    written.created = Command.fileOfTrace path trace ∧
    (p.holes < p.pigeons →
      (Command.pigeonhole p.holes p.pigeons (some path) format).execute (.ok source) .nothing =
        .ok () written ∧
      (Command.verify path format).execute (.ok (.ofBytes written.created)) .nothing =
        .ok () verified ∧
      verified.output = Text.encode "s VERIFIED\n".toList) ∧
    (p.pigeons ≤ p.holes →
      (Command.pigeonhole p.holes p.pigeons (some path) format).execute (.ok source) .nothing =
        .error .noContradiction written ∧
      (Command.verify path format).execute (.ok (.ofBytes written.created)) .nothing =
        .error .noContradiction verified ∧
      verified.output = [])

namespace Pigeonhole

variable {p : Pigeonhole} {format : Format} {records : List Record} {r : Refutation} {w : Writer}

theorem HasRefuted.satisfied_iff {sink : Sink} (h : p.HasRefuted sink format records r w)
    {a : Variable → Int} (ha : IsBinary a) :
    (∀ c ∈ inputsOf records, c.Satisfied a) ↔ p.IsPlacement a := by
  obtain ⟨last, htotal, -⟩ := h.total
  obtain ⟨rows, columns, hrows, hcolumns, hinputs⟩ := htotal.inputs
  rw [hinputs]
  exact satisfied_iff_isPlacement ha hrows hcolumns

theorem HasRefuted.trace_eq (h : p.HasRefuted .unlimited format records r w) :
    w.outlet.sink.held.toList = Writer.bytesOfAll format records := by
  rw [h.recorded.outlet_eq, Sink.held_append_unlimited]

theorem HasRefuted.commands (h : p.HasRefuted .unlimited format records r w)
    (hrun : refute p.holes p.pigeons (.new format .unlimited) = .ok r w) (path : Path)
    (source : Source) :
    ∃ written verified : Report,
      written.created = Command.fileOfTrace path w.outlet.sink.held.toList ∧
      (Command.pigeonhole p.holes p.pigeons (some path) format).execute (.ok source) .nothing =
        (if r.constraint.isContradiction then .ok () written
        else .error .noContradiction written) ∧
      (Command.verify path format).execute (.ok (.ofBytes written.created)) .nothing =
        (if r.constraint.isContradiction then .ok () verified
        else .error .noContradiction verified) ∧
      verified.output =
        if r.constraint.isContradiction then Text.encode "s VERIFIED\n".toList else [] := by
  obtain ⟨c, hc, -, -, hcontra⟩ := h.verify
  obtain ⟨written, hcreated, hwritten⟩ := Command.executePigeonhole_of_ok path source hrun
  have hfile : Checker.new.verify
      (.new format (Command.traceOfFile path (.ofBytes written.created))) = .ok () c := by
    rw [hcreated, Command.traceOfFile_fileOfTrace, h.trace_eq]
    exact hc
  obtain ⟨verified, houtput, hverified⟩ := Command.executeVerify_of_ok hfile
  rw [hcontra] at houtput hverified
  exact ⟨written, verified, hcreated, hwritten, hverified, houtput⟩

theorem HasRefuted.inputsOf_read (h : p.HasRefuted .unlimited format records r w) :
    inputsOf (Reader.new format (.ofBytes w.outlet.sink.held.toList)).records.1 =
      inputsOf records := by
  obtain ⟨read, hread, hsteps⟩ :=
    Reader.exists_records_of_fits format h.recorded.consecutive h.fitsBinary
  rw [h.trace_eq, hread, inputsOf, inputsOf, hsteps]

theorem HasRefuted.isAdequate (h : p.HasRefuted .unlimited format records r w)
    (hrun : refute p.holes p.pigeons (.new format .unlimited) = .ok r w) :
    p.IsAdequate format w.outlet.sink.held.toList where
  satisfied_iff := by
    intro a ha
    rw [h.inputsOf_read]
    exact h.satisfied_iff ha
  satisfiable_iff := by
    rw [h.inputsOf_read, ← p.exists_isPlacement_iff]
    apply exists_congr
    intro a
    exact and_congr_right fun ha => h.satisfied_iff ha
  verified := by
    obtain ⟨c, hc, hinputs, hderived, hcontra⟩ := h.verify
    rw [h.counts_refutation] at hinputs hderived
    rw [← h.trace_eq] at hc
    refine ⟨c, hc, hinputs, hderived, ?_⟩
    rw [hcontra]
    exact h.isContradiction_iff
  commands := by
    intro path source
    obtain ⟨written, verified, hcreated, hwritten, hverified, houtput⟩ :=
      h.commands hrun path source
    refine ⟨written, verified, hcreated, ?_, ?_⟩
    · intro hlt
      have hyes := h.isContradiction_iff.mpr hlt
      simp only [hyes, if_true] at hwritten hverified houtput
      exact ⟨hwritten, hverified, houtput⟩
    · intro hle
      have hno : r.constraint.isContradiction = false := by
        rw [← Bool.not_eq_true, h.isContradiction_iff]
        omega
      simp only [hno, Bool.false_eq_true, if_false] at hwritten hverified houtput
      exact ⟨hwritten, hverified, houtput⟩

/-- Every supported instance is written as a trace that says what it should. -/
theorem exists_isAdequate (p : Pigeonhole) (format : Format) :
    ∃ r w, refute p.holes p.pigeons (.new format .unlimited) = .ok r w ∧
      p.IsAdequate format w.outlet.sink.held.toList := by
  obtain ⟨r, w, hrun, records, h⟩ := p.refute_succeeds format Sink.reliable_unlimited
  exact ⟨r, w, hrun, h.isAdequate hrun⟩

end Pigeonhole

end CuttingPlanes
