import CuttingPlanes.Proofs.Trace.Auditing
import CuttingPlanes.Proofs.Trace.Readable
import CuttingPlanes.Trace.Transcoding

/-!
# Traces that are recorded again

Recording a trace again succeeds exactly when the trace is read to its end and every hint
comes before its step, and then the output is what a writer makes of the delivered records
(`transcodes_iff`). So a checker comes to the same verdicts on both, and every way from text
to text leads to the same bytes, over a binary trace too.
-/

namespace CuttingPlanes

open Actions

/-- Recording the bytes again in another format succeeds, with the given output. -/
def Transcodes (source target : Format) (bytes out : List UInt8) : Prop :=
  ∃ w, transcode (.new source (.ofBytes bytes)) (.new target .unlimited) = (none, w) ∧
    w.outlet.sink.held.toList = out

/-! ## One record -/

namespace Writer

variable {sink : Sink} {format : Format} {records : List Record} {w : Writer} {record : Record}

/-- A record is recorded again if its hints come before it, and refused otherwise. -/
theorem recordAgain_cases (h : w.Ready) (hid : ∀ s, record = .step s → s.id = w.next)
    (hinput : ∀ s, record = .step s → s.kind = .input → s.hints = []) :
    (Consecutive w.next.index [record] ∧ recordAgain record w = .ok () (w.extend record)) ∨
    (¬Consecutive w.next.index [record] ∧ ∃ e, recordAgain record w = .error e w) := by
  cases record with
  | comment text => exact Or.inl ⟨trivial, comment_of_ready h text⟩
  | step s =>
    obtain ⟨id, kind, c, hints⟩ := s
    obtain rfl : id = w.next := hid _ rfl
    have hnil : kind = .input → hints = [] := hinput _ rfl
    by_cases hhints : ∀ hint ∈ hints, hint.index < w.next.index
    · refine Or.inl ⟨⟨rfl, hnil, hhints, trivial⟩, ?_⟩
      have hrecord := record_of_ready h kind c hhints
      cases kind with
      | input =>
        obtain rfl : hints = [] := hnil rfl
        exact bind_of_ok hrecord
      | derived => exact bind_of_ok hrecord
    · refine Or.inr ⟨fun hc => hhints hc.2.2.1, ?_⟩
      obtain ⟨e, he⟩ := record_of_dangling h.isOpen kind c hhints
      cases kind with
      | input =>
        obtain rfl : hints = [] := hnil rfl
        exact absurd nofun hhints
      | derived => exact ⟨e, bind_of_error he⟩

theorem HasRecorded.again (h : HasRecorded sink format records w)
    (hc : Consecutive w.next.index [record]) :
    HasRecorded sink format (records ++ [record]) (w.extend record) := by
  cases record with
  | comment text => exact h.comment text
  | step s =>
    obtain ⟨id, kind, c, hints⟩ := s
    obtain ⟨hid, hinput, hhints, -⟩ := hc
    obtain rfl : id = w.next := congrArg StepId.mk hid
    exact h.step hinput hhints

end Writer

theorem consecutive_cons {n : Nat} {record : Record} {records : List Record} :
    Consecutive n (record :: records) ↔
      Consecutive n [record] ∧ Consecutive (record.nextBehind ⟨n⟩).index records := by
  cases record with
  | comment text => exact ⟨fun h => ⟨trivial, h⟩, fun h => h.2⟩
  | step s =>
    constructor
    · rintro ⟨hid, hinput, hhints, hrest⟩
      exact ⟨⟨hid, hinput, hhints, trivial⟩, hrest⟩
    · rintro ⟨⟨hid, hinput, hhints, -⟩, hrest⟩
      exact ⟨hid, hinput, hhints, hrest⟩

/-! ## All records -/

section Transcode

variable {format : Format} {front : List Record} {r : Reader} {w w' : Writer}

theorem transcode_of_error {e : ReadError} {r' : Reader} (h : r.nextRecord = .error e r') :
    transcode r w = (some (.read e), w) := by
  rw [transcode]
  split <;> rename_i heq <;> rw [h] at heq <;> cases heq
  rfl

theorem transcode_of_end {r' : Reader} (h : r.nextRecord = .ok none r') :
    transcode r w = (none, w) := by
  rw [transcode]
  split <;> rename_i heq <;> rw [h] at heq <;> cases heq

theorem transcode_of_record {record : Record} {r' : Reader}
    (h : r.nextRecord = .ok (some record) r') :
    transcode r w = match Writer.recordAgain record w with
      | .ok () w => transcode r' w
      | .error e w => (some (.write e), w) := by
  rw [transcode]
  split <;> rename_i heq <;> rw [h] at heq <;> cases heq
  cases Writer.recordAgain record w <;> rfl

/-- The rest of a trace is recorded again if it is read to its end and all hints come before
their steps; otherwise recording ends with an error. -/
theorem transcode_cases (hready : w.Ready)
    (hrecorded : Writer.HasRecorded .unlimited format front w) (hnext : r.next = w.next) :
    ((r.records.2 = none ∧ Consecutive w.next.index r.records.1) ∧
      ∃ w', transcode r w = (none, w') ∧
        Writer.HasRecorded .unlimited format (front ++ r.records.1) w') ∨
    (¬(r.records.2 = none ∧ Consecutive w.next.index r.records.1) ∧
      ∃ e w', transcode r w = (some e, w')) := by
  fun_induction Reader.records r generalizing w front with
  | case1 r e r' h =>
    exact Or.inr ⟨fun hend => Option.some_ne_none e hend.1, _, w, transcode_of_error h⟩
  | case2 r r' h =>
    refine Or.inl ⟨⟨rfl, trivial⟩, w, transcode_of_end h, ?_⟩
    rwa [List.append_nil]
  | case3 r record r' h ih =>
    obtain ⟨hid, hnext'⟩ := Reader.next_of_record h
    have hinput : ∀ s, record = .step s → s.kind = .input → s.hints = [] := by
      rintro s rfl
      exact Reader.hints_eq_nil_of_nextRecord h
    have htranscode := transcode_of_record (w := w) h
    rw [hnext] at hid hnext'
    obtain ⟨hc, hagain⟩ | ⟨hc, e, hagain⟩ := Writer.recordAgain_cases hready hid hinput
    · have hrest : Consecutive w.next.index (record :: r'.records.1) ↔
          Consecutive (w.extend record).next.index r'.records.1 := by
        rw [consecutive_cons, and_iff_right hc, Writer.next_extend]
      have hcases := ih (hready.extend record) (hrecorded.again hc)
        (hnext'.trans (Writer.next_extend w record).symm)
      rw [hagain] at htranscode
      rw [← hrest, List.append_assoc] at hcases
      rw [htranscode]
      exact hcases
    · rw [hagain] at htranscode
      exact Or.inr ⟨fun hall => hc (consecutive_cons.mp hall.2).1, _, w, htranscode⟩

end Transcode

section Transcodes

variable {source target : Format} {bytes out : List UInt8}

theorem Transcodes.out_eq {out' : List UInt8} (h : Transcodes source target bytes out)
    (h' : Transcodes source target bytes out') : out = out' := by
  obtain ⟨w, hw, rfl⟩ := h
  obtain ⟨w', hw', rfl⟩ := h'
  rw [hw] at hw'
  cases hw'
  rfl

/-- Recording again succeeds exactly when a trace is read to its end and the hints of all
steps come before them, and the output is then that of a writer of the delivered records. -/
theorem transcodes_iff :
    Transcodes source target bytes out ↔
      ∃ records, (Reader.new source (.ofBytes bytes)).records = (records, none) ∧
        Consecutive 0 records ∧ out = Writer.bytesOfAll target records := by
  have hcases := transcode_cases (r := .new source (.ofBytes bytes))
    (Writer.ready_new target Sink.reliable_unlimited) (Writer.hasRecorded_new target .unlimited)
    rfl
  rw [List.nil_append] at hcases
  constructor
  · rintro ⟨w, hw, rfl⟩
    obtain ⟨⟨hend, hc⟩, w', hw', hrecorded⟩ | ⟨-, e, w', hw'⟩ := hcases
    · rw [hw] at hw'
      cases hw'
      refine ⟨_, Prod.ext rfl hend, hc, ?_⟩
      rw [hrecorded.outlet_eq, Sink.held_append_unlimited]
    · rw [hw] at hw'
      cases hw'
  · rintro ⟨records, hrecords, hc, rfl⟩
    rw [hrecords] at hcases
    obtain ⟨-, w, hw, hrecorded⟩ | ⟨hnot, -⟩ := hcases
    · exact ⟨w, hw, by rw [hrecorded.outlet_eq, Sink.held_append_unlimited]⟩
    · exact absurd ⟨rfl, hc⟩ hnot

/-- Whether a trace is verified depends on its steps and on the error of its reader only. -/
theorem Checker.verify_eq_of_records {r q : Reader} (hsteps : stepsOf r.records.1 = stepsOf q.records.1)
    (hend : r.records.2 = q.records.2) (c : Checker) : c.verify r = c.verify q := by
  rw [verify_eq_checkAll, verify_eq_checkAll, hsteps, hend]

theorem Checker.audit_eq_of_records {r q : Reader} (hsteps : stepsOf r.records.1 = stepsOf q.records.1)
    (hend : r.records.2 = q.records.2) (c : Checker) : c.audit r = c.audit q := by
  rw [audit_eq, audit_eq, hsteps, hend]

theorem fitsBinary_of_delivered {records : List Record} (hbytes : bytes.length < 0x8000000000000000)
    (hrecords : (Reader.new source (.ofBytes bytes)).records = (records, none))
    (hc : Consecutive 0 records) : ∀ record ∈ records, record.FitsBinary := by
  have hfits := Reader.fitsBinary_of_records (r := .new source (.ofBytes bytes)) hbytes
  rw [hrecords] at hfits
  exact hfits hc

/-- A trace that is recorded again has the same steps and is read to its end. -/
theorem Transcodes.exists_records (h : Transcodes source target bytes out)
    (hbytes : bytes.length < 0x8000000000000000) :
    ∃ records read, (Reader.new source (.ofBytes bytes)).records = (records, none) ∧
      (Reader.new target (.ofBytes out)).records = (read, none) ∧
      stepsOf read = stepsOf records := by
  obtain ⟨records, hrecords, hc, rfl⟩ := transcodes_iff.mp h
  obtain ⟨read, hread, hsteps⟩ := Reader.exists_records_of_fits target hc
    (fitsBinary_of_delivered hbytes hrecords hc)
  exact ⟨records, read, hrecords, hread, hsteps⟩

end Transcodes

/-- A checker finds the same in a trace and in what it is recorded as in another format, at
every step and in the end. From text, the way over a binary trace leads to the same text as
the direct one, which is recorded as itself. The bytes are held in memory, so there are less
than 2 ^ 63 of them. -/
theorem transcoding_law (bytes : List UInt8) (hbytes : bytes.length < 0x8000000000000000) :
    (∀ (source target : Format) (out : List UInt8), Transcodes source target bytes out →
      Checker.new.audit (.new target (.ofBytes out)) =
        Checker.new.audit (.new source (.ofBytes bytes)) ∧
      Checker.new.verify (.new target (.ofBytes out)) =
        Checker.new.verify (.new source (.ofBytes bytes))) ∧
    ∀ (target : Format) (out : List UInt8), Transcodes .text target bytes out →
      ∃ asText asBinary, Transcodes .text .text bytes asText ∧
        Transcodes .text .binary bytes asBinary ∧ Transcodes .binary .text asBinary asText ∧
        Transcodes .text .text asText asText := by
  constructor
  · intro source target out h
    obtain ⟨records, read, hrecords, hread, hsteps⟩ := h.exists_records hbytes
    have hsame : stepsOf (Reader.new target (.ofBytes out)).records.1 =
        stepsOf (Reader.new source (.ofBytes bytes)).records.1 := by rw [hrecords, hread, hsteps]
    have hend : (Reader.new target (.ofBytes out)).records.2 =
        (Reader.new source (.ofBytes bytes)).records.2 := by rw [hrecords, hread]
    exact ⟨Checker.audit_eq_of_records hsame hend _, Checker.verify_eq_of_records hsame hend _⟩
  · intro target out h
    obtain ⟨records, hrecords, hc, -⟩ := transcodes_iff.mp h
    have hfits := fitsBinary_of_delivered hbytes hrecords hc
    have hsame := Reader.inText_of_records (r := .new .text (.ofBytes bytes)) rfl
    rw [hrecords] at hsame
    have hhints : ∀ s ∈ stepsOf records, ∀ hint ∈ s.hints, hint.number < 0x10000000000000000 := by
      intro s hs hint hhint
      have hstep : Record.FitsBinary (.step s) := hfits _ (mem_stepsOf.mp hs)
      exact Nat.lt_trans (hstep.number_lt hint hhint) (by decide)
    have hread := Reader.records_text hc hhints
    rw [hsame] at hread
    exact ⟨Writer.bytesOfAll .text records, Writer.bytesOfAll .binary records,
      transcodes_iff.mpr ⟨records, hrecords, hc, rfl⟩,
      transcodes_iff.mpr ⟨records, hrecords, hc, rfl⟩,
      transcodes_iff.mpr ⟨records, Reader.records_binary hc hfits, hc, rfl⟩,
      transcodes_iff.mpr ⟨records, hread, hc, rfl⟩⟩

/-- Tabs, signs, leading zeros, an empty line and an empty comment, carriage returns, and no line
feed at the end. -/
def sloppyTrace : List UInt8 :=
  Text.encode "\ti  +02 x2 >= -03 ;\r\n\n *\r\n*  two\r\r\n a 4 x02 >= -6 ; 01 +1".toList

def tidiedTrace : List UInt8 :=
  Text.encode "i +2 x2 >= -3 ;\n*\n*  two\na +4 x2 >= -6 ; 1 1\n".toList

theorem transcoding_law_sloppyTrace :
    sloppyTrace.length < 0x8000000000000000 ∧ Transcodes .text .text sloppyTrace tidiedTrace ∧
    Checker.new.verify (.new .text (.ofBytes tidiedTrace)) =
      Checker.new.verify (.new .text (.ofBytes sloppyTrace)) ∧
    ∃ asBinary, Transcodes .text .binary sloppyTrace asBinary ∧
      Transcodes .binary .text asBinary tidiedTrace ∧
      Transcodes .text .text tidiedTrace tidiedTrace := by
  have hlength : sloppyTrace.length < 0x8000000000000000 := by decide +kernel
  have htidied : Transcodes .text .text sloppyTrace tidiedTrace := by
    refine ⟨(transcode (.new .text (.ofBytes sloppyTrace)) (.new .text .unlimited)).2,
      Prod.ext ?_ rfl, ?_⟩
    · decide +kernel
    · decide +kernel
  obtain ⟨hsame, hways⟩ := transcoding_law sloppyTrace hlength
  obtain ⟨asText, asBinary, htext, hbinary, hback, hagain⟩ := hways .text tidiedTrace htidied
  obtain rfl := htext.out_eq htidied
  exact ⟨hlength, htidied, (hsame .text .text tidiedTrace htidied).2, asBinary, hbinary, hback,
    hagain⟩

end CuttingPlanes
