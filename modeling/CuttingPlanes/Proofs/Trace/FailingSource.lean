import CuttingPlanes.Proofs.CommandLine.Execution
import CuttingPlanes.Proofs.Stream.Lines
import CuttingPlanes.Proofs.Trace.Answers
import CuttingPlanes.Proofs.Trace.Binary.Relaying

/-!
# Traces from a source that fails early

A reader whose source fails answers as it would on the complete trace, as long as no byte
behind the failure is needed. From then on each of its calls is answered with the fault
(`FailsFrom`). So nothing that is cut off by the failure is taken for complete, and neither
a trace nor a formula from such a source is ever accepted (`failing_source_law`).
-/

namespace CuttingPlanes

open Source Actions

namespace Reader

variable {missing : List UInt8} {fault : Fault} {r q r' : Reader}

/-- The second reader is the first one, but its source fails early. -/
structure CutShort (missing : List UInt8) (fault : Fault) (r q : Reader) : Prop where
  format_eq : q.format = r.format
  taken_eq : q.taken = r.taken
  next_eq : q.next = r.next
  source : r.source.CutShort missing fault q.source

theorem cutShort_new (format : Format) (bytes : List UInt8) (n : Nat) (fault : Fault) :
    (new format (.ofBytes bytes)).CutShort (bytes.drop n) fault
      (new format (.failingAfter n fault bytes)) :=
  ⟨rfl, rfl, rfl, (List.take_append_drop n bytes).symm, rfl, rfl, rfl⟩

theorem CutShort.stopped {s t : Source} (h : r.CutShort missing fault q)
    (hsource : s.CutShort missing fault t) :
    (r.stopped s).CutShort missing fault (q.stopped t) :=
  ⟨h.format_eq, h.taken_eq, h.next_eq, hsource⟩

theorem CutShort.took {s t : Source} (h : r.CutShort missing fault q)
    (hsource : s.CutShort missing fault t) : (r.took s).CutShort missing fault (q.took t) :=
  ⟨h.format_eq, congrArg (· + 1) h.taken_eq, h.next_eq, hsource⟩

/-- How a call of a reader is answered on both sources. -/
abbrev RelayedCall (missing : List UInt8) (fault : Fault)
    (result result' : EStateM.Result ReadError Reader (Option Record)) : Prop :=
  Relayed source (CutShort missing fault) missing fault (.fault fault) result result'

theorem relayedCall_deliver (entry : Trace.Entry) (h : r.CutShort missing fault q) :
    RelayedCall missing fault (r.deliver entry) (q.deliver entry) := by
  cases entry with
  | comment text => exact .ok _ h
  | step kind c hints =>
    rw [deliver, deliver, h.next_eq]
    exact .ok _ ⟨h.format_eq, h.taken_eq, rfl, h.source⟩

/-! ## Lines -/

theorem nextText_of_fault {source : Source} (h : r.source.line? = .error fault source) :
    nextText r = .error (.fault fault) (r.stopped source) := by
  rw [nextText]
  split <;> simp_all

theorem advances_nextText_of_line (r : Reader) :
    (stateAfter r.source.line?).Advances (stateAfter (nextText r)).source := by
  cases h : r.source.line? with
  | error fault source =>
    rw [nextText_of_fault h]
    exact .refl source
  | ok bytes? source =>
    cases bytes? with
    | none =>
      rw [nextText]
      split <;> rename_i heq <;> rw [h] at heq <;> cases heq
      exact .refl source
    | some bytes =>
      rw [nextText_of_line h]
      split
      · exact .refl source
      · split
        · exact .refl source
        · exact advances_nextText (r.took source)
        · exact advances_deliver (r.took source) _

theorem relayedCall_nextText (h : r.CutShort missing fault q) :
    RelayedCall missing fault (nextText r) (nextText q) := by
  induction hlength : r.source.rest.length using Nat.strongRecOn generalizing r q with
  | _ length ih =>
    have hline := relays_line?.relayed h.source
    have hbehind := advances_nextText_of_line r
    generalize hr : r.source.line? = result at hline hbehind
    generalize hq : q.source.line? = result' at hline
    cases hline with
    | error => exact absurd h.source.failure_eq (failure_ne_none_of_line?_error hr)
    | fault hbeyond hfails =>
      rw [nextText_of_fault hq]
      exact .fault (hbeyond.of_advances hbehind) hfails
    | @ok line? s t hcut =>
      cases line? with
      | none =>
        have hnone := (rest_eq_nil_of_line?_none hq).2
        rw [h.source.fault_eq] at hnone
        cases hnone
      | some bytes =>
        rw [nextText_of_line hr, nextText_of_line hq, h.taken_eq]
        split
        · exact .error _ (h.stopped hcut)
        · split
          · exact .error _ (h.took hcut)
          · have hlt : s.rest.length < length := hlength ▸ length_rest_of_line?_some hr
            exact ih _ hlt (h.took hcut) rfl
          · exact relayedCall_deliver _ (h.took hcut)

/-! ## Binary records -/

theorem advances_nextBinary_of_byte (r : Reader) :
    (stateAfter r.source.byte?).Advances (stateAfter (nextBinary r)).source := by
  unfold nextBinary
  split <;> rename_i hbyte <;> rw [hbyte]
  · exact .refl _
  · exact .refl _
  · split
    · exact (Trace.Binary.advancing_entry _).error ‹_›
    · exact ((Trace.Binary.advancing_entry _).ok ‹_›).trans (advances_deliver (r.took _) _)

theorem relayedCall_nextBinary (h : r.CutShort missing fault q) :
    RelayedCall missing fault (nextBinary r) (nextBinary q) := by
  have hbyte := relays_byte?.relayed h.source
  have hbehind := advances_nextBinary_of_byte r
  generalize hr : r.source.byte? = result at hbyte hbehind
  generalize hq : q.source.byte? = result' at hbyte
  cases hbyte with
  | error => exact absurd h.source.failure_eq (failure_ne_none_of_byte?_error hr)
  | @fault _ t hbeyond hfails =>
    have hfault : nextBinary q = .error (.fault fault) (q.stopped t) := by
      rw [nextBinary, hq]
      rfl
    rw [hfault]
    exact .fault (hbeyond.of_advances hbehind) hfails
  | @ok code? s t hcut =>
    cases code? with
    | none =>
      have hnone := (rest_eq_nil_of_byte?_none hq).2
      rw [h.source.fault_eq] at hnone
      cases hnone
    | some code =>
      have hentry := (Trace.Binary.relays_entry code).relayed hcut
      rw [nextBinary_of_code hr, nextBinary_of_code hq, h.taken_eq]
      generalize Trace.Binary.entry code s = result at hentry
      generalize Trace.Binary.entry code t = result' at hentry
      cases hentry with
      | ok entry hcut => exact relayedCall_deliver entry (h.took hcut)
      | error e hcut => exact .error _ (h.took hcut)
      | fault hbeyond hfails =>
        refine .fault ?_ hfails
        cases result with
        | ok entry s' => exact hbeyond.of_advances (advances_deliver (r.took s') entry)
        | error e s' => exact hbeyond

/-! ## Calls -/

theorem relayedCall_nextRecord (h : r.CutShort missing fault q) :
    RelayedCall missing fault (nextRecord r) (nextRecord q) := by
  unfold nextRecord
  rw [h.format_eq]
  split
  · exact relayedCall_nextText h
  · exact relayedCall_nextBinary h

/-- Where its source fails, a reader stays. -/
theorem nextRecord_of_atFailure (h : q.source.AtFailure fault) :
    nextRecord q = .error (.fault fault) q := by
  obtain ⟨format, ⟨rest, position, failure⟩, taken, next⟩ := q
  obtain ⟨rfl, rfl⟩ := h
  cases format with
  | text => exact nextText_of_fault rfl
  | binary => rfl

/-- The first reader is called on a complete source, the second one on a source that fails
early. The first `k` calls are answered alike, and out of the bytes in front of the failure.
Every later one needs a byte behind it on the complete source, or is a call at its end, and
fails with the fault on the other one. -/
structure FailsFrom (missing : List UInt8) (fault : Fault) (r q : Reader) (k : Nat) : Prop where
  cutShort : ∀ i ≤ k, (behind nextRecord r i).CutShort missing fault (behind nextRecord q i)
  answer_eq : ∀ i < k, answer nextRecord q i = answer nextRecord r i
  fails : ∀ i ≥ k, answer nextRecord q i = .error (.fault fault)
  beyond : ∀ i > k, (behind nextRecord r i).source.Beyond missing

theorem fails_of_atFailure (h : q.source.AtFailure fault) (i : Nat) :
    answer nextRecord q i = .error (.fault fault) := by
  have hnext := nextRecord_of_atFailure h
  have hstays : stateAfter (nextRecord q) = q := by rw [hnext]; rfl
  rw [answer_of_stateAfter_eq hstays, hnext]
  rfl

theorem beyond_behind (h : r.source.Beyond missing) (i : Nat) :
    (behind nextRecord r i).source.Beyond missing :=
  behind_induction (P := fun r : Reader => r.source.Beyond missing) h
    (fun r hr => hr.of_advances (advances_nextRecord r)) i

/-- The first call already fails. -/
theorem failsFrom_zero (h : r.CutShort missing fault q)
    (hanswer : answerOf (nextRecord q) = .error (.fault fault))
    (hfails : (stateAfter (nextRecord q)).source.AtFailure fault)
    (hbeyond : (stateAfter (nextRecord r)).source.Beyond missing) :
    FailsFrom missing fault r q 0 where
  cutShort := by
    intro i hi
    rw [Nat.le_zero.mp hi]
    exact h
  answer_eq := by
    intro i hi
    exact absurd hi (Nat.not_lt_zero i)
  fails := by
    intro i _
    cases i with
    | zero => exact hanswer
    | succ i => exact fails_of_atFailure hfails i
  beyond := by
    intro i hi
    obtain ⟨i, rfl⟩ := Nat.exists_eq_succ_of_ne_zero (Nat.ne_of_gt hi)
    exact beyond_behind hbeyond i

/-- One more call is answered alike. -/
theorem FailsFrom.succ {k : Nat} (h : r.CutShort missing fault q)
    (hanswer : answerOf (nextRecord q) = answerOf (nextRecord r))
    (hbehind : FailsFrom missing fault (stateAfter (nextRecord r)) (stateAfter (nextRecord q)) k) :
    FailsFrom missing fault r q (k + 1) where
  cutShort := by
    intro i hi
    cases i with
    | zero => exact h
    | succ i => exact hbehind.cutShort i (Nat.le_of_succ_le_succ hi)
  answer_eq := by
    intro i hi
    cases i with
    | zero => exact hanswer
    | succ i => exact hbehind.answer_eq i (Nat.lt_of_succ_lt_succ hi)
  fails := by
    intro i hi
    cases i with
    | zero => exact absurd hi (Nat.not_succ_le_zero k)
    | succ i => exact hbehind.fails i (Nat.le_of_succ_le_succ hi)
  beyond := by
    intro i hi
    cases i with
    | zero => exact absurd hi (Nat.not_lt_zero _)
    | succ i => exact hbehind.beyond i (Nat.lt_of_succ_lt_succ hi)

theorem exists_failsFrom (h : r.CutShort missing fault q) :
    ∃ k, FailsFrom missing fault r q k := by
  induction hlength : q.source.rest.length using Nat.strongRecOn generalizing r q with
  | _ length ih =>
    have hprogress := rest_behind_nextRecord q
    by_cases hnil : q.source.rest = []
    · have hfails : q.source.AtFailure fault := ⟨hnil, h.source.fault_eq⟩
      have hnext := nextRecord_of_atFailure hfails
      have hbeyond : (stateAfter (nextRecord r)).source.Beyond missing := by
        have hrest := h.source.rest_eq
        rw [hnil, List.nil_append] at hrest
        rw [← hrest]
        exact rest_behind_nextRecord r
      refine ⟨0, failsFrom_zero h ?_ ?_ hbeyond⟩
      · rw [hnext]
        rfl
      · rw [hnext]
        exact hfails
    · have hpos : 0 < q.source.rest.length := List.length_pos_iff.mpr hnil
      have hlt : (stateAfter (nextRecord q)).source.rest.length < length := by
        obtain hlt | hnil' := hprogress
        · exact hlength ▸ hlt
        · rw [hnil', ← hlength]
          exact hpos
      have hcall := relayedCall_nextRecord h
      generalize hr : nextRecord r = result at hcall
      generalize hq : nextRecord q = result' at hcall hlt
      cases hcall with
      | ok a hcut =>
        obtain ⟨k, hk⟩ := ih _ hlt hcut rfl
        exact ⟨k + 1, .succ h (by rw [hr, hq]; rfl) (by rwa [hr, hq])⟩
      | error e hcut =>
        obtain ⟨k, hk⟩ := ih _ hlt hcut rfl
        exact ⟨k + 1, .succ h (by rw [hr, hq]; rfl) (by rwa [hr, hq])⟩
      | fault hbeyond hfails =>
        exact ⟨0, failsFrom_zero h (by rw [hq]; rfl) (by rwa [hq]) (by rwa [hr])⟩

theorem FailsFrom.answer_ne_end {k : Nat} (h : FailsFrom missing fault r q k) (i : Nat) :
    answer nextRecord q i ≠ .ok none := by
  intro hend
  obtain hlt | hle := Nat.lt_or_ge i k
  · have hfailure := (h.cutShort i (Nat.le_of_lt hlt)).source.fault_eq
    rw [(ended_of_nextRecord (answer_eq_ok_iff.mp hend)).2] at hfailure
    cases hfailure
  · rw [h.fails i hle] at hend
    cases hend

theorem FailsFrom.answer_of_record {k : Nat} (h : FailsFrom missing fault r q k) {i : Nat}
    {record : Record} (hrecord : answer nextRecord q i = .ok (some record)) :
    answer nextRecord r i = .ok (some record) := by
  obtain hlt | hle := Nat.lt_or_ge i k
  · rw [← h.answer_eq i hlt, hrecord]
  · rw [h.fails i hle] at hrecord
    cases hrecord

/-- A source that fails does not end, and so do the records from it. -/
theorem records_of_failure (h : r.source.failure ≠ none) : r.records.2 ≠ none := by
  fun_induction records r with
  | case1 r e r' hnext => exact Option.some_ne_none e
  | case2 r r' hnext => exact absurd (ended_of_nextRecord hnext).2 h
  | case3 r record r' hnext ih =>
    have hfailure := (advances_nextRecord r).failure_eq
    rw [hnext] at hfailure
    exact ih (hfailure ▸ h)

end Reader

theorem Checker.verify_of_failure (c : Checker) {r : Reader} (h : r.source.failure ≠ none) :
    ∃ e d, c.verify r = .error e d := by
  cases hverify : c.verify r with
  | error e d => exact ⟨e, d, rfl⟩
  | ok u d => exact absurd (verify_eq_ok_iff.mp hverify).1 (Reader.records_of_failure h)

/-- Nor does a formula end with the failure of its source. -/
theorem Dimacs.readFrom_of_failure (mode : Mode) (p : Progress) {s : Source}
    (h : s.failure ≠ none) : ∃ e, (readFrom mode p s).result = .error e := by
  fun_induction readFrom mode p s with
  | case1 => exact ⟨_, rfl⟩
  | case2 p s t hline => exact absurd (rest_eq_nil_of_line?_none hline).2 h
  | case3 => exact ⟨_, rfl⟩
  | case4 => exact ⟨_, rfl⟩
  | case5 p s bytes t hline line _ item _ ih =>
    have hfailure := (advancing_line?.ok hline).failure_eq
    exact ih (hfailure ▸ h)

/-- What becomes of a trace of which the source delivers the first `n` bytes and then fails
with every read. The reader answers as on the complete trace, out of these bytes, until a
call needs a byte behind them, and from then on with the fault. So the end of the trace is
never answered, and a record only where the complete trace has it. Neither is such a trace
ever verified, nor a formula from such a source read. -/
theorem failing_source_law (format : Format) (bytes : List UInt8) (n : Nat) (fault : Fault) :
    let source := Source.failingAfter n fault bytes
    let whole := Reader.new format (.ofBytes bytes)
    let cut := Reader.new format source
    (∃ k, Reader.FailsFrom (bytes.drop n) fault whole cut k) ∧
    (∀ i, answer Reader.nextRecord cut i ≠ .ok none) ∧
    (∀ i record, answer Reader.nextRecord cut i = .ok (some record) →
      answer Reader.nextRecord whole i = .ok (some record)) ∧
    (∀ c : Checker, ∃ e d, c.verify cut = .error e d) ∧
    (∀ (verbose : Bool) (path : Path) (file : Source), Command.traceOfFile path file = source →
      (Invocation.run ⟨verbose, .verify path format⟩ (.ok file)).status = 1 ∧
      (Invocation.run ⟨verbose, .verify path format⟩ (.ok file)).output = []) ∧
    ∀ mode, ∃ e, (Dimacs.read mode source).result = .error e := by
  intro source whole cut
  have hfailure : source.failure ≠ none := nofun
  obtain ⟨k, hk⟩ := Reader.exists_failsFrom (Reader.cutShort_new format bytes n fault)
  refine ⟨⟨k, hk⟩, hk.answer_ne_end, fun i record => hk.answer_of_record,
    fun c => c.verify_of_failure hfailure, ?_, fun mode => Dimacs.readFrom_of_failure mode _ hfailure⟩
  intro verbose path file hfile
  refine Invocation.run_verify_of_not verbose fun c hverify => ?_
  obtain ⟨e, d, herror⟩ := Checker.new.verify_of_failure (r := cut) hfailure
  rw [hfile, herror] at hverify
  cases hverify

end CuttingPlanes
