import CuttingPlanes.Proofs.Trace.Binary.Parts
import CuttingPlanes.Proofs.Trace.Operation

/-!
# Binary traces that are written and read

A binary reader takes from its source exactly the bytes of one record after the other,
so it delivers what was recorded, provided that the lengths and the numbers in it fit
(`records_binary`). Lengths fit when what they count fits into memory, and the numbers
of hints fit when there are not too many steps (`binary_round_trip`).
-/

namespace CuttingPlanes

open Trace.Binary

/-- The lengths and the numbers of the record are less than 2 ^ 63. -/
def Record.FitsBinary : Record → Prop
  | .comment text => (Text.encode text.toList).length < 0x8000000000000000
  | .step s => HintsFit s.hints

namespace Reader

open Source

variable {r : Reader} {next : StepId} {rest : List UInt8}

theorem nextRecord_of_entry {code : UInt8} {body : List UInt8} {e : Trace.Entry}
    (h : Takes (entry code) body e) (hr : r.StandsAt .binary (code :: body ++ rest) next) :
    ∃ s : Reader, nextRecord r = s.deliver e ∧ s.StandsAt .binary rest next := by
  obtain ⟨format, ⟨bytes, position, failure⟩, taken, number⟩ := r
  obtain ⟨rfl, rfl, rfl, rfl⟩ := hr
  refine ⟨⟨.binary, ⟨rest, position + 1 + body.length, none⟩, taken + 1, number⟩, ?_,
    rfl, rfl, rfl, rfl⟩
  simp only [nextRecord, nextBinary, byte?, List.cons_append, h rest (position + 1) none, took]

theorem bytesOf_comment_binary (text : String) :
    Writer.bytesOf .binary (.comment text) = commentCode :: commentBody text.toList := by
  simp [Writer.bytesOf, Writer.commentPieces, commentPieces, commentBody]

theorem bytesOf_step_binary (s : Step) :
    Writer.bytesOf .binary (.step s) = s.kind.code :: stepBody s.constraint s.hints :=
  flatten_stepPieces s.kind s.constraint s.hints

theorem entry_code (kind : StepKind) : entry kind.code = step kind := by
  have hne : kind.code ≠ commentCode := by cases kind <;> decide
  rw [entry, if_neg hne, StepKind.ofCode?_code]

theorem deliveredAs_self {record : Record} (hfits : record.FitsBinary)
    (hinput : ∀ s, record = .step s → s.kind = .input → s.hints = []) :
    DeliveredAs .binary record [record] := by
  intro r rest next hid hr
  cases record with
  | comment text =>
    rw [bytesOf_comment_binary] at hr
    have htakes : Takes (entry commentCode) (commentBody text.toList) (.comment text) := by
      have := takes_comment hfits
      rwa [String.ofList_toList] at this
    obtain ⟨s, hnext, hs⟩ := nextRecord_of_entry htakes hr
    exact ⟨s, .singleton hnext, hs⟩
  | step s =>
    rw [bytesOf_step_binary] at hr
    have htakes := takes_step s.constraint (hinput s rfl) hfits
    rw [← entry_code] at htakes
    obtain ⟨t, hnext, ht⟩ := nextRecord_of_entry htakes hr
    exact ht.delivers_step (hid s rfl) hnext

theorem deliveredAs_self_of_mem {records : List Record} (h : Consecutive 0 records)
    (hfits : ∀ record ∈ records, record.FitsBinary) :
    ∀ record ∈ records, DeliveredAs .binary record [record] := by
  intro record hrecord
  refine deliveredAs_self (hfits record hrecord) ?_
  rintro s rfl
  exact h.hints_eq_nil hrecord

theorem records_binary {records : List Record} (h : Consecutive 0 records)
    (hfits : ∀ record ∈ records, record.FitsBinary) :
    (new .binary (.ofBytes (Writer.bytesOfAll .binary records))).records = (records, none) := by
  have hrecords := records_of_bytesOfAll h (deliveredAs_self_of_mem h hfits)
  rwa [List.flatMap_singleton'] at hrecords

/-- Whatever follows the records, they are delivered, and the reader stands behind them. -/
theorem delivers_standsAt {records : List Record} (h : Consecutive 0 records)
    (hfits : ∀ record ∈ records, record.FitsBinary) (rest : List UInt8) :
    ∃ s, (new .binary (.ofBytes (Writer.bytesOfAll .binary records ++ rest))).Delivers records s ∧
      s.StandsAt .binary rest ⟨StepId.first.index + (stepsOf records).length⟩ := by
  have hr := standsAt_new .binary (Writer.bytesOfAll .binary records ++ rest)
  have hdelivers := delivers_bytesOfAll h (deliveredAs_self_of_mem h hfits) hr
  rwa [List.flatMap_singleton'] at hdelivers

theorem delivers_binary {records : List Record} (h : Consecutive 0 records)
    (hfits : ∀ record ∈ records, record.FitsBinary) (rest : List UInt8) :
    ∃ s, (new .binary (.ofBytes (Writer.bytesOfAll .binary records ++ rest))).Delivers records s ∧
      s.source = ⟨rest, (Writer.bytesOfAll .binary records).length, none⟩ := by
  obtain ⟨s, hs, hstand⟩ := delivers_standsAt h hfits rest
  exact ⟨s, hs, hs.source_eq hstand⟩

end Reader

/-- The lengths of what is asked for are less than 2 ^ 63, as those of all that is held in
memory. -/
def Operation.InMemory : Operation → Prop
  | .derived _ hints => hints.length < 0x8000000000000000
  | .comment text => (Text.encode text.toList).length < 0x8000000000000000
  | .input _ => True
  | .finish => True

instance (op : Operation) : Decidable op.InMemory :=
  match op with
  | .derived _ hints => inferInstanceAs (Decidable (hints.length < 0x8000000000000000))
  | .comment text =>
    inferInstanceAs (Decidable ((Text.encode text.toList).length < 0x8000000000000000))
  | .input _ => .isTrue trivial
  | .finish => .isTrue trivial

theorem Operation.fitsBinary_of_record? {op : Operation} {next : StepId} {record : Record}
    (h : op.record? next = some record) (hop : op.InMemory)
    (hnumber : ∀ s, record = .step s → ∀ hint ∈ s.hints, hint.number < 0x8000000000000000) :
    record.FitsBinary := by
  cases op with
  | input c =>
    cases h
    exact ⟨by simp, hnumber _ rfl⟩
  | derived c hints =>
    obtain ⟨-, hrecord⟩ := Option.ite_none_right_eq_some.mp h
    cases hrecord
    exact ⟨hop, hnumber _ rfl⟩
  | comment text =>
    cases h
    exact hop
  | finish => cases h

theorem Writer.fitsBinary_of_mem_accepts {ops : List Operation}
    (hmemory : ∀ op ∈ ops, op.InMemory)
    (hsteps : (stepsOf (accepts .binary ops)).length < 0x8000000000000000) :
    ∀ record ∈ accepts .binary ops, record.FitsBinary := by
  intro record hrecord
  have hconsecutive := (hasRecorded_accepts .binary ops).consecutive
  have hmem := hrecord
  rw [accepts_eq] at hmem
  obtain ⟨op, hop, n, hop'⟩ := Operation.exists_of_mem_accepted hmem
  refine Operation.fitsBinary_of_record? hop' (hmemory op hop) ?_
  rintro s rfl hint hhint
  have hlt := hconsecutive.hint_lt hrecord hhint
  rw [StepId.number]
  omega

/-- What a writer is asked for is read from its binary output exactly as it was accepted,
up to the end of the trace. The output ends itself: when more bytes follow it, a reader
delivers the same records and then stands at the first of these bytes. -/
theorem binary_round_trip (ops : List Operation) (hmemory : ∀ op ∈ ops, op.InMemory)
    (hsteps : (stepsOf (Writer.accepts .binary ops)).length < 0x8000000000000000) :
    (Reader.new .binary (.ofBytes (Writer.output .binary ops))).records =
      (Writer.accepts .binary ops, none) ∧
    ∀ more : List UInt8, ∃ s : Reader,
      (Reader.new .binary (.ofBytes (Writer.output .binary ops ++ more))).Delivers
        (Writer.accepts .binary ops) s ∧
      s.source = ⟨more, (Writer.output .binary ops).length, none⟩ := by
  have hconsecutive := (Writer.hasRecorded_accepts .binary ops).consecutive
  have hfits := Writer.fitsBinary_of_mem_accepts hmemory hsteps
  rw [Writer.output_eq]
  exact ⟨Reader.records_binary hconsecutive hfits,
    fun more => Reader.delivers_binary hconsecutive hfits more⟩

/-- A zero and the least coefficient, a step that is refused, a sum of many hints, a comment
of two lines and a step behind the end. -/
def extremeOperations : List Operation :=
  let c : Constraint :=
    ⟨⟨[⟨0, ⟨2, by decide, by decide⟩⟩, ⟨Int64.minValue, ⟨0xFFFFFFFF, by decide, by decide⟩⟩],
      by decide⟩, .atLeast, Int64.maxValue⟩
  [.input c, .derived c [⟨0⟩, ⟨1⟩], .derived c [⟨0⟩, ⟨0⟩, ⟨0⟩], .comment "* a\n\r", .finish, .input c]

theorem binary_round_trip_extremeOperations :
    (Writer.accepts .binary extremeOperations).length = 3 ∧
    (Reader.new .binary (.ofBytes (Writer.output .binary extremeOperations))).records =
      (Writer.accepts .binary extremeOperations, none) ∧
    ∃ s : Reader,
      (Reader.new .binary (.ofBytes (Writer.output .binary extremeOperations ++ [0x69]))).Delivers
        (Writer.accepts .binary extremeOperations) s ∧
      s.source = ⟨[0x69], (Writer.output .binary extremeOperations).length, none⟩ := by
  have hmemory : ∀ op ∈ extremeOperations, op.InMemory := by decide +kernel
  have hsteps : (stepsOf (Writer.accepts .binary extremeOperations)).length <
      0x8000000000000000 := by decide +kernel
  obtain ⟨hrecords, hmore⟩ := binary_round_trip extremeOperations hmemory hsteps
  exact ⟨by decide +kernel, hrecords, hmore [0x69]⟩

end CuttingPlanes
