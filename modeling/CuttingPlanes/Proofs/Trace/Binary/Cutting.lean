import CuttingPlanes.Proofs.Stream.Starving
import CuttingPlanes.Proofs.Trace.Binary.RoundTrip
import CuttingPlanes.Proofs.Trace.Cuts

/-!
# Binary traces that are cut off

No record is read from the beginning of its bytes: wherever they are cut, within an
integer, between two parts or within the text of a comment, reading ends with the source
and is refused. So from a binary trace of which only the first bytes are there, a reader
delivers the records that are complete, and what is left of the next one is one error
(`cut_binary_trace`).
-/

namespace CuttingPlanes

open Source Varint

namespace Trace.Binary

/-- The source ended before the record did. -/
def Failure.IsTruncation : Failure → Prop
  | .fault f => f = .endedEarly
  | .varint e => e.defect = .truncated
  | .malformed reason => reason = .endOfTrace

/-! ## Parts -/

theorem starves_int (v : Int64) : Starves Failure.IsTruncation int (encode v) := by
  intro cut missing position heq hne
  cases cut with
  | nil => exact ⟨.malformed .endOfTrace, rfl, rfl⟩
  | cons b cut =>
    have hread := readFrom_of_cut position (completes_nothing_iff.mpr rfl) heq hne position
    have hint : EStateM.adaptExcept Failure.ofStreamError read? ⟨b :: cut, position, none⟩ =
        .error (.varint ⟨.truncated, position⟩) ⟨[], position + (b :: cut).length, none⟩ := by
      simp [EStateM.adaptExcept, read?, hread, Failure.ofStreamError]
    exact ⟨_, Actions.bind_of_error hint, rfl⟩

theorem starves_length (n : Nat) : Starves Failure.IsTruncation length (encodeNat n) :=
  (starves_int _).bind_nil

theorem starves_term (t : Term) :
    Starves Failure.IsTruncation term (encode t.coeff ++ encodeNat t.var.number) :=
  .bind (starves_int _) (takes_int _) (starves_int _).bind_nil

theorem starves_hint (h : StepId) : Starves Failure.IsTruncation hint (encodeNat h.number) :=
  (starves_int _).bind_nil

theorem starves_repeated {α : Type} {item : Parser α} {bytes : α → List UInt8} {as : List α}
    (htakes : ∀ a ∈ as, Takes item (bytes a) a)
    (h : ∀ a ∈ as, Starves Failure.IsTruncation item (bytes a)) :
    Starves Failure.IsTruncation (repeated item as.length) (as.flatMap bytes) := by
  induction as with
  | nil => exact .nil _ _
  | cons a as ih =>
    have hrest := ih (fun a ha => htakes a (List.mem_cons_of_mem _ ha))
      (fun a ha => h a (List.mem_cons_of_mem _ ha))
    exact .bind (h a List.mem_cons_self) (htakes a List.mem_cons_self) hrest.bind_nil

/-! ## Records -/

theorem starves_step (kind : StepKind) {hints : List StepId} (c : Constraint)
    (hfit : HintsFit hints) : Starves Failure.IsTruncation (step kind) (stepBody c hints) := by
  have hcode : Starves Failure.IsTruncation (onSource byte) [c.relation.code] :=
    (starves_byte _).adaptExcept fun _ h => h
  have hrelation {reason : Malformation} :
      Takes (require reason (Relation.ofCode? c.relation.code)) [] c.relation := by
    rw [Relation.ofCode?_code]
    exact takes_require reason c.relation
  have hcount : c.form.terms.length < 0x8000000000000000 :=
    Nat.lt_trans c.form.length_terms_lt (by decide)
  have hterms := starves_repeated (fun t (_ : t ∈ c.form.terms) => takes_term t)
    (fun t _ => starves_term t)
  have hterms' := takes_repeated fun t (_ : t ∈ c.form.terms) => takes_term t
  have hhints := starves_repeated (fun h hh => takes_hint (hfit.number_lt h hh))
    (fun h _ => starves_hint h)
  exact .bind hcode (.adaptExcept _ (takes_byte _)) (.nil_bind hrelation
    (.bind (starves_length _) (takes_length hcount) (.bind hterms hterms'
      (.bind (starves_int _) (takes_int _)
        (.bind (starves_length _) (takes_length hfit.length_lt) hhints.bind_nil)))))

theorem starves_comment {text : List Char}
    (h : (Text.encode text).length < 0x8000000000000000) :
    Starves Failure.IsTruncation comment (commentBody text) := by
  refine .bind (starves_length _) (takes_length h) ?_
  intro cut missing position heq hne
  have hlt : cut.length < (Text.encode text).length := by
    have hpos := List.length_pos_iff.mpr hne
    rw [← heq, List.length_append]
    omega
  have hbody : onSource (upTo (Text.encode text).length) ⟨cut, position, none⟩ =
      .ok cut ⟨[], position + cut.length, none⟩ := by
    simp only [onSource, EStateM.adaptExcept, upTo_of_lt hlt]
  refine ⟨.malformed .endOfTrace, ?_, rfl⟩
  rw [Actions.bind_of_ok hbody, if_pos hlt]
  rfl

end Trace.Binary

/-- The source ended before the record did. -/
def ReadError.IsTruncation : ReadError → Prop
  | .fault f => f = .endedEarly
  | .malformed _ reason => reason = .endOfTrace
  | .varint e => e.defect = .truncated

namespace Reader

open Trace.Binary

variable {r : Reader} {next : StepId}

theorem isTruncation_binaryError (taken : Nat) {e : Trace.Binary.Failure} (h : e.IsTruncation) :
    (binaryError taken e).IsTruncation := by
  cases e <;> exact h

theorem nextRecord_of_cut {code : UInt8} {body cut missing : List UInt8}
    (h : Starves Trace.Binary.Failure.IsTruncation (entry code) body) (hcut : cut ++ missing = body)
    (hne : missing ≠ []) (hr : r.StandsAt .binary (code :: cut) next) :
    ∃ e t, nextRecord r = .error e t ∧ e.IsTruncation ∧ t.AtEnd := by
  obtain ⟨format, ⟨bytes, position, failure⟩, taken, number⟩ := r
  obtain ⟨rfl, rfl, rfl, rfl⟩ := hr
  obtain ⟨e, hentry, he⟩ := h cut missing (position + 1) hcut hne
  have hend : StandsAt ⟨.binary, ⟨[], position + 1 + cut.length, none⟩, taken + 1, number⟩
      .binary [] number := ⟨rfl, rfl, rfl, rfl⟩
  refine ⟨binaryError (taken + 1) e, _, ?_, isTruncation_binaryError _ he, hend.atEnd⟩
  simp only [nextRecord, nextBinary, byte?, hentry, took]

/-- The bytes of a record from which some are missing, but not all, are refused. -/
theorem nextRecord_of_record_cut {record : Record} (hfits : record.FitsBinary)
    {cut missing : List UInt8} (hcut : cut ++ missing = Writer.bytesOf .binary record)
    (hne : missing ≠ []) (hsome : cut ≠ []) (hr : r.StandsAt .binary cut next) :
    ∃ e t, nextRecord r = .error e t ∧ e.IsTruncation ∧ t.AtEnd := by
  obtain ⟨code, cut, rfl⟩ := List.exists_cons_of_ne_nil hsome
  cases record with
  | comment text =>
    rw [bytesOf_comment_binary] at hcut
    obtain ⟨rfl, hbody⟩ := List.cons.inj hcut
    have hstarves : Starves Trace.Binary.Failure.IsTruncation (entry commentCode)
        (commentBody text.toList) := starves_comment hfits
    exact nextRecord_of_cut hstarves hbody hne hr
  | step s =>
    rw [bytesOf_step_binary] at hcut
    obtain ⟨rfl, hbody⟩ := List.cons.inj hcut
    have hstarves := starves_step s.kind s.constraint hfits
    rw [← entry_code] at hstarves
    exact nextRecord_of_cut hstarves hbody hne hr

end Reader

/-! ## Traces -/

/-- What a reader does with the first `n` bytes of the output of a binary writer. It delivers
the records that lie completely within them, as they were accepted. Then comes the end of the
trace if no record is cut, and one error and the end of the trace otherwise. -/
theorem cut_binary_trace (ops : List Operation) (hmemory : ∀ op ∈ ops, op.InMemory)
    (hsteps : (stepsOf (Writer.accepts .binary ops)).length < 0x8000000000000000) (n : Nat) :
    ∃ whole rest s, CutAt n .binary (Writer.accepts .binary ops) whole rest ∧
      (Reader.new .binary (.ofBytes ((Writer.output .binary ops).take n))).Delivers whole s ∧
      (rest = [] ∨ n = (Writer.bytesOfAll .binary whole).length → s.AtEnd) ∧
      (rest ≠ [] → n ≠ (Writer.bytesOfAll .binary whole).length →
        ∃ e t, Reader.nextRecord s = .error e t ∧ e.IsTruncation ∧ t.AtEnd) := by
  have hconsecutive := (Writer.hasRecorded_accepts .binary ops).consecutive
  have hfits := Writer.fitsBinary_of_mem_accepts hmemory hsteps
  obtain ⟨whole, rest, hcut⟩ := CutAt.exists_cutAt n .binary (Writer.accepts .binary ops)
  have hwhole : ∀ record ∈ whole, record.FitsBinary := fun record hrecord =>
    hfits record (by rw [← hcut.append_eq]; exact List.mem_append_left rest hrecord)
  rw [← hcut.append_eq, consecutive_append] at hconsecutive
  have hdelivers := Reader.delivers_standsAt hconsecutive.1 hwhole
  rw [Writer.output_eq]
  by_cases hboundary : rest = [] ∨ n = (Writer.bytesOfAll .binary whole).length
  · rw [hcut.take_eq_of_boundary hboundary]
    obtain ⟨s, hs, hstand⟩ := hdelivers []
    rw [List.append_nil] at hs
    refine ⟨whole, rest, s, hcut, hs, fun _ => hstand.atEnd, fun hne hlength => ?_⟩
    exact absurd hboundary (not_or.mpr ⟨hne, hlength⟩)
  · obtain ⟨hne, hlength⟩ := not_or.mp hboundary
    obtain ⟨record, rest, rfl⟩ := List.exists_cons_of_ne_nil hne
    obtain ⟨cut, missing, htake, hcut', hsome, hmissing⟩ := hcut.exists_take_eq hlength
    obtain ⟨s, hs, hstand⟩ := hdelivers cut
    rw [htake]
    refine ⟨whole, record :: rest, s, hcut, hs, fun h => absurd h hboundary, fun _ _ => ?_⟩
    have hrecord : record.FitsBinary := hfits record (by rw [← hcut.append_eq]; simp)
    exact Reader.nextRecord_of_record_cut hrecord hcut' hmissing hsome hstand

/-- A cut within the second record. -/
theorem cut_binary_trace_extremeOperations :
    (∀ op ∈ extremeOperations, op.InMemory) ∧
    (stepsOf (Writer.accepts .binary extremeOperations)).length < 0x8000000000000000 ∧
    ∃ s e t, (Reader.new .binary (.ofBytes ((Writer.output .binary extremeOperations).take 40))).Delivers
        ((Writer.accepts .binary extremeOperations).take 1) s ∧
      Reader.nextRecord s = .error e t ∧ e.IsTruncation ∧ t.AtEnd := by
  have hmemory : ∀ op ∈ extremeOperations, op.InMemory := by decide +kernel
  have hsteps : (stepsOf (Writer.accepts .binary extremeOperations)).length <
      0x8000000000000000 := by decide +kernel
  have hcut : CutAt 40 .binary (Writer.accepts .binary extremeOperations)
      ((Writer.accepts .binary extremeOperations).take 1)
      ((Writer.accepts .binary extremeOperations).drop 1) :=
    ⟨List.take_append_drop _ _, by decide +kernel, by decide +kernel⟩
  obtain ⟨whole, rest, s, hcut', hs, -, herror⟩ :=
    cut_binary_trace extremeOperations hmemory hsteps 40
  obtain ⟨rfl, rfl⟩ := hcut'.unique hcut
  obtain ⟨e, t, hnext, he, ht⟩ := herror (by decide +kernel) (by decide +kernel)
  exact ⟨hmemory, hsteps, s, e, t, hs, hnext, he, ht⟩

end CuttingPlanes
