import CuttingPlanes.Proofs.Stream.Shortage
import CuttingPlanes.Proofs.Text.Lines
import CuttingPlanes.Proofs.Trace.RunLaw

/-!
# Runs that a sink interrupts

The same operations on a sink that does not fail and on one with a limit. Call by call
both runs are the same until the bytes of a record extend beyond the limit; that call
fails, and nothing is counted from then on (`Call.Interrupts`). The sink with the limit
ends with as many of the bytes as it can hold (`interrupted_run`).
-/

namespace CuttingPlanes

namespace Writer

/-- The writer with a limit on its sink. -/
def limited (limit : Nat) (fault : Fault) (w : Writer) : Writer :=
  w.withOutlet ⟨.store w.outlet.sink.held (some (limit, fault)), w.outlet.pending⟩

/-- How many bytes the sink holds. -/
def heldSize (w : Writer) : Nat := w.outlet.sink.held.size

end Writer

/-- How a call in a run with a limit is related to that call in the run without. If the
record ends at the limit or before, both are the same. The first record that extends
beyond the limit fails with the fault of the sink. From then on no record succeeds, and
neither the counts nor the number of the next step change. -/
structure Call.Interrupts (limit : Nat) (fault : Fault) (whole cut : Call) : Prop where
  op_eq : cut.op = whole.op
  same : whole.after.heldSize ≤ limit →
    cut.answer = whole.answer ∧ cut.after = whole.after.limited limit fault
  first : whole.before.heldSize ≤ limit → limit < whole.after.heldSize →
    cut.answer = .error (.fault fault)
  stopped : limit < whole.after.heldSize →
    (cut.op ≠ .finish → ∃ e, cut.answer = .error e) ∧
      cut.after.next = cut.before.next ∧ cut.after.counts = cut.before.counts

namespace Writer

open Actions

variable {limit : Nat} {fault : Fault} {format : Format} {records : List Record} {u w : Writer}
  {op : Operation}

/-! ## Records -/

/-- However long a record is, it starts with a small piece. -/
theorem startsSmall_piecesOf (format : Format) (record : Record) :
    Outlet.StartsSmall (piecesOf format record) := by
  cases format with
  | binary =>
    cases record with
    | comment text => exact ⟨_, _, rfl, by simp, by decide⟩
    | step s => exact ⟨_, _, rfl, by simp, by simp [Outlet.capacity]⟩
  | text =>
    cases record with
    | step s =>
      refine ⟨Text.encode [s.kind.char], _, rfl, ?_, ?_⟩ <;> cases s.kind <;> decide
    | comment text =>
      simp only [piecesOf, commentPieces, Trace.Text.commentPieces]
      split
      · exact ⟨_, _, rfl, by decide, by decide⟩
      · rename_i hne
        obtain ⟨line, rest, hlines⟩ :=
          List.exists_cons_of_ne_nil (Text.lines_ne_nil (mt List.isEmpty_iff.mpr hne))
        rw [hlines]
        exact ⟨Text.encode ['*', ' '], _, rfl, by decide, by decide⟩

theorem record?_isSome (hhints : ∀ hint ∈ op.hints, hint.index < w.next.index)
    (hop : op ≠ .finish) : ∃ record, op.record? w.next = some record := by
  cases hrecord : op.record? w.next with
  | some record => exact ⟨record, rfl⟩
  | none => exact absurd (Operation.eq_finish_of_record?_eq_none hhints hrecord) hop

theorem flatten_piecesFor (w : Writer) (op : Operation) :
    (w.piecesFor op).flatten = bytesOfAll w.format (op.record? w.next).toList := by
  cases hrecord : op.record? w.next with
  | some record => simp [piecesFor, hrecord, flatten_piecesOf, bytesOfAll]
  | none => simp [piecesFor, hrecord, bytesOfAll]

/-! ## Up to the limit -/

/-- All that was recorded has reached a sink with a limit. -/
structure Intact (limit : Nat) (fault : Fault) (format : Format) (records : List Record)
    (w : Writer) : Prop where
  recorded : HasRecorded (.failingAfter limit fault) format records w
  length_le : (bytesOfAll format records).length ≤ limit

theorem Intact.outlet_eq (h : Intact limit fault format records w) :
    w.outlet = ⟨Sink.offered limit fault (bytesOfAll format records), #[]⟩ := by
  rw [h.recorded.outlet_eq, Sink.failingAfter_eq,
    Sink.append_offered_of_le (by simpa using h.length_le), List.nil_append]

theorem Intact.carries (h : Intact limit fault format records w) :
    Outlet.Carries limit fault w.outlet (bytesOfAll format records) := by
  rw [h.outlet_eq]
  exact Outlet.carries_offered h.length_le

theorem Intact.heldSize_eq (h : Intact limit fault format records w) :
    w.heldSize = (bytesOfAll format records).length := by
  rw [heldSize, h.outlet_eq, ← Array.length_toList, Sink.held_offered,
    List.take_of_length_le h.length_le]

theorem Intact.bytes_piecesFor (h : Intact limit fault format records w) (op : Operation) :
    bytesOfAll format records ++ (w.piecesFor op).flatten =
      bytesOfAll format (records ++ (op.record? w.next).toList) := by
  rw [flatten_piecesFor, h.recorded.format_eq, bytesOfAll_append]

/-- What is refused, and what ends at the limit or before, is answered as on a sink that
does not fail. -/
theorem Intact.takesCall (h : Intact limit fault format records w) (op : Operation)
    (hle : (bytesOfAll format (records ++ (op.written? w.isSealed w.next).toList)).length ≤ limit) :
    w.TakesCall op where
  settled := by simp [h.outlet_eq, Outlet.settled]
  taken := by
    intro hanswer
    rw [Operation.written?_of_answer_eq_ok hanswer, ← h.bytes_piecesFor] at hle
    rw [h.carries.write_of_room hle]
    simp [h.outlet_eq, Outlet.settled, Sink.append_offered_of_le hle]

/-- A call that does not extend beyond the limit. -/
theorem Intact.answered (h : Intact limit fault format records w) (op : Operation)
    (hle : (bytesOfAll format (records ++ (op.written? w.isSealed w.next).toList)).length ≤ limit) :
    Intact limit fault format (records ++ (op.written? w.isSealed w.next).toList)
      (w.answered (op.answer w.isSealed w.next)) :=
  ⟨h.recorded.answered op, hle⟩

/-- A record that extends beyond the limit. -/
theorem Intact.call_of_shortage (h : Intact limit fault format records w) (op : Operation)
    (hlt : limit < (bytesOfAll format
      (records ++ (op.written? w.isSealed w.next).toList)).length) :
    ∃ record o, op.answer w.isSealed w.next = .ok (some record) ∧
      w.call op = ⟨op, w, .error (.fault fault), w.withOutlet o⟩ ∧
      o.sink = Sink.offered limit fault (bytesOfAll format (records ++ [record])) ∧
      (o.pending = #[] ↔ Outlet.Straddles limit w.heldSize (w.piecesFor op)) := by
  have hlength := h.length_le
  cases hanswer : op.answer w.isSealed w.next with
  | error e =>
    rw [Operation.written?_of_answer_eq_error hanswer, Option.toList_none, List.append_nil] at hlt
    omega
  | ok record? =>
    obtain ⟨hopen, hhints, hrecord⟩ := Operation.record?_of_answer_eq_ok hanswer
    rw [Operation.written?_of_answer_eq_ok hanswer] at hlt
    cases record? with
    | none =>
      rw [Option.toList_none, List.append_nil] at hlt
      omega
    | some record =>
      rw [hrecord, ← h.bytes_piecesFor] at hlt
      obtain ⟨o, hwrite, hsink, hpending⟩ := h.carries.write_of_shortage hlt
      refine ⟨record, o, rfl, call_of_error (perform_of_write_error hopen hhints hwrite), ?_, ?_⟩
      · rw [hsink, h.bytes_piecesFor, ← hrecord, Option.toList_some]
      · rw [hpending, h.heldSize_eq]

/-! ## Beyond the limit -/

/-- A full sink takes nothing of a record, and the end of the trace only if nothing is
pending. -/
theorem write_of_full (h : Outlet.Full limit fault w.outlet)
    (hhints : ∀ hint ∈ op.hints, hint.index < w.next.index) :
    (op = .finish ∧ w.outlet.pending = #[] ∧
      Outlet.write (w.piecesFor op) w.outlet = .ok () w.outlet) ∨
    ∃ o, Outlet.write (w.piecesFor op) w.outlet = .error fault o ∧
      o.sink = w.outlet.sink ∧ o.pending ≠ #[] := by
  by_cases hop : op = .finish
  · subst hop
    have hwrite : Outlet.write (w.piecesFor .finish) w.outlet = Outlet.drain w.outlet := rfl
    rw [hwrite]
    by_cases hpending : w.outlet.pending = #[]
    · exact Or.inl ⟨rfl, hpending, h.drain_of_pending_eq hpending⟩
    · exact Or.inr ⟨w.outlet, (Outlet.Stuck.mk h hpending).drain, rfl, hpending⟩
  · obtain ⟨record, hrecord⟩ := record?_isSome hhints hop
    have hpieces : w.piecesFor op = piecesOf w.format record := by simp only [piecesFor, hrecord]
    rw [hpieces]
    exact Or.inr (h.write (startsSmall_piecesOf w.format record))

/-- On a full sink nothing is counted, and only the end of the trace can succeed. -/
theorem call_of_full (h : Outlet.Full limit fault w.outlet) (op : Operation) :
    (op ≠ .finish → ∃ e, (w.call op).answer = .error e) ∧
      (w.call op).after.outlet.sink = w.outlet.sink ∧
      (w.call op).after.next = w.next ∧ (w.call op).after.counts = w.counts := by
  obtain ⟨-, hcall⟩ | ⟨-, hint, -, hcall⟩ | ⟨hopen, hhints, -⟩ := call_cases w op
  · rw [hcall]
    exact ⟨fun _ => ⟨_, rfl⟩, rfl, rfl, rfl⟩
  · rw [hcall]
    exact ⟨fun _ => ⟨_, rfl⟩, rfl, rfl, rfl⟩
  · obtain ⟨rfl, -, hwrite⟩ | ⟨o, hwrite, hsink, -⟩ := write_of_full h hhints
    · rw [call_of_ok (perform_of_write_ok hopen hhints hwrite)]
      exact ⟨fun hne => absurd rfl hne, rfl, rfl, rfl⟩
    · rw [call_of_error (perform_of_write_error hopen hhints hwrite)]
      exact ⟨fun _ => ⟨_, rfl⟩, hsink, rfl, rfl⟩

/-! ## Two runs -/

/-- A writer and one with a limit on its sink behind the same operations: either all has
reached both sinks, or the limit is exceeded and the second sink holds what it can. -/
def Follows (limit : Nat) (fault : Fault) (u w : Writer) : Prop :=
  (u.heldSize ≤ limit ∧ w = u.limited limit fault) ∨
    (limit < u.heldSize ∧ w.outlet.sink = Sink.offered limit fault u.outlet.sink.held.toList)

theorem follows_new (limit : Nat) (fault : Fault) (format : Format) :
    Follows limit fault (new format .unlimited) (new format (.failingAfter limit fault)) :=
  Or.inl ⟨Nat.zero_le limit, rfl⟩

theorem HasRecorded.limited (h : HasRecorded .unlimited format records u) (limit : Nat)
    (fault : Fault) :
    HasRecorded (.failingAfter limit fault) format records (u.limited limit fault) where
  outlet_eq := by
    simp only [Writer.limited, withOutlet, h.outlet_eq]
    rfl
  format_eq := h.format_eq
  next_eq := h.next_eq
  counts_eq := h.counts_eq
  consecutive := h.consecutive

theorem HasRecorded.held_eq (h : HasRecorded .unlimited format records u) :
    u.outlet.sink.held.toList = bytesOfAll format records := by
  rw [h.outlet_eq, Sink.held_append_unlimited]

theorem HasRecorded.heldSize_eq (h : HasRecorded .unlimited format records u) :
    u.heldSize = (bytesOfAll format records).length := by
  rw [heldSize, ← Array.length_toList, h.held_eq]

theorem HasRecorded.intact_limited (h : HasRecorded .unlimited format records u)
    (hle : u.heldSize ≤ limit) (fault : Fault) :
    Intact limit fault format records (u.limited limit fault) :=
  ⟨h.limited limit fault, by rwa [← h.heldSize_eq]⟩

theorem limited_answered (h : HasRecorded .unlimited format records u) (limit : Nat)
    (fault : Fault) (answer : Except WriteError (Option Record)) :
    (u.limited limit fault).answered answer = (u.answered answer).limited limit fault := by
  cases answer with
  | error e => rfl
  | ok record? =>
    cases record? with
    | none => rfl
    | some record =>
      cases record <;>
        simp only [answered, extend, limited, withOutlet, numberRecord, Outlet.settled, h.outlet_eq] <;>
        rfl

/-- One call of both runs as long as the limit is not exceeded before it. -/
theorem interrupts_of_le (h : HasRecorded .unlimited format records u) (hle : u.heldSize ≤ limit)
    (op : Operation) :
    (u.call op).Interrupts limit fault ((u.limited limit fault).call op) ∧
      Follows limit fault (u.call op).after ((u.limited limit fault).call op).after := by
  have hintact := h.intact_limited hle fault
  have hu := (h.takesCall Sink.reliable_unlimited op).call_eq
  have hafter := h.answered op
  by_cases hfits : (u.answered (op.answer u.isSealed u.next)).heldSize ≤ limit
  · have hw := (hintact.takesCall op (by rwa [hafter.heldSize_eq] at hfits)).call_eq
    have hlimited := limited_answered h limit fault (op.answer u.isSealed u.next)
    rw [hu, hw]
    refine ⟨⟨rfl, fun _ => ⟨rfl, hlimited⟩, ?_, ?_⟩, Or.inl ⟨hfits, hlimited⟩⟩
    · intro _ hlt
      exact absurd hfits (Nat.not_le.mpr hlt)
    · intro hlt
      exact absurd hfits (Nat.not_le.mpr hlt)
  · have hlt := Nat.lt_of_not_le hfits
    rw [hafter.heldSize_eq] at hlt
    obtain ⟨record, o, hanswer, hw, hsink, -⟩ := hintact.call_of_shortage op hlt
    have hwritten : op.written? u.isSealed u.next = some record :=
      Operation.written?_of_answer_eq_ok hanswer
    rw [hu, hw]
    refine ⟨⟨rfl, ?_, fun _ _ => rfl, fun _ => ⟨fun _ => ⟨_, rfl⟩, rfl, rfl⟩⟩, Or.inr ⟨?_, ?_⟩⟩
    · intro hle'
      exact absurd hle' hfits
    · exact Nat.lt_of_not_le hfits
    · rw [hafter.held_eq, hwritten]
      exact hsink

theorem full_of_lt (hlt : limit < u.heldSize)
    (hsink : w.outlet.sink = Sink.offered limit fault u.outlet.sink.held.toList) :
    Outlet.Full limit fault w.outlet :=
  ⟨_, hsink, by rw [Array.length_toList]; exact Nat.le_of_lt hlt⟩

/-- One call of both runs. -/
theorem Follows.call (hf : Follows limit fault u w) (h : HasRecorded .unlimited format records u)
    (op : Operation) :
    (u.call op).Interrupts limit fault (w.call op) ∧
      Follows limit fault (u.call op).after (w.call op).after := by
  obtain ⟨hle, rfl⟩ | ⟨hlt, hsink⟩ := hf
  · exact interrupts_of_le h hle op
  have hafter := h.call Sink.reliable_unlimited op
  obtain ⟨hfails, hsink', hnext, hcounts⟩ := call_of_full (full_of_lt hlt hsink) op
  have hmore : limit < (u.call op).after.heldSize := by
    rw [h.heldSize_eq] at hlt
    rw [hafter.heldSize_eq, bytesOfAll_append, List.length_append]
    omega
  have hcall : (u.call op).before.heldSize = u.heldSize := by rw [before_call]
  refine ⟨⟨by simp, ?_, ?_, ?_⟩, Or.inr ⟨hmore, ?_⟩⟩
  · intro hle
    exact absurd hle (Nat.not_le.mpr hmore)
  · intro hle
    rw [hcall] at hle
    exact absurd hle (Nat.not_le.mpr hlt)
  · intro _
    rw [op_call, before_call]
    exact ⟨hfails, hnext, hcounts⟩
  · rw [hsink', hsink, h.held_eq, hafter.held_eq, bytesOfAll_append]
    rw [h.heldSize_eq] at hlt
    exact (Sink.offered_append_of_le (Nat.le_of_lt hlt) _).symm

/-- Both runs, call by call. -/
theorem Follows.calls (hf : Follows limit fault u w) (h : HasRecorded .unlimited format records u)
    (ops : List Operation) :
    List.Forall₂ (Call.Interrupts limit fault) (u.calls ops) (w.calls ops) ∧
      Follows limit fault (u.runAll ops).2 (w.runAll ops).2 := by
  induction ops generalizing u w records with
  | nil => exact ⟨.nil, hf⟩
  | cons op ops ih =>
    obtain ⟨hcall, hf'⟩ := hf.call h op
    obtain ⟨hcalls, hrun⟩ := ih hf' (h.call Sink.reliable_unlimited op)
    rw [runAll_snd_cons, runAll_snd_cons]
    exact ⟨.cons hcall hcalls, hrun⟩

theorem Follows.held_eq (hf : Follows limit fault u w) :
    w.outlet.sink.held.toList = u.outlet.sink.held.toList.take limit := by
  obtain ⟨hle, rfl⟩ | ⟨-, hsink⟩ := hf
  · exact (List.take_of_length_le (by rwa [Array.length_toList])).symm
  · rw [hsink, Sink.held_offered]

/-- Closing the writer with the limit on its sink changes nothing, whatever comes of it. -/
theorem Follows.close (hf : Follows limit fault u w) (h : HasRecorded .unlimited format records u) :
    close w = .ok () w ∨ close w = .error (.fault fault) w := by
  have hdrain : Outlet.drain w.outlet = .ok () w.outlet ∨
      Outlet.drain w.outlet = .error fault w.outlet := by
    obtain ⟨hle, rfl⟩ | ⟨hlt, hsink⟩ := hf
    · have hintact := h.intact_limited hle fault
      have hdrain := hintact.carries.drain_of_le hintact.length_le
      rw [← hintact.outlet_eq] at hdrain
      exact Or.inl hdrain
    · exact (full_of_lt hlt hsink).drain
  exact hdrain.imp onOutlet_of_ok onOutlet_of_error

/-- A sink with a limit ends with as much of the whole output as it can hold, and call by
call the run is the one on a sink that does not fail, up to the record that extends beyond
the limit. Closing the writer changes nothing in the sink. -/
theorem interrupted_run (format : Format) (limit : Nat) (fault : Fault) (ops : List Operation) :
    let cut := new format (.failingAfter limit fault)
    List.Forall₂ (Call.Interrupts limit fault) ((new format .unlimited).calls ops) (cut.calls ops) ∧
    (cut.runAll ops).2.outlet.sink.held.toList = (output format ops).take limit ∧
    (close (cut.runAll ops).2 = .ok () (cut.runAll ops).2 ∨
      close (cut.runAll ops).2 = .error (.fault fault) (cut.runAll ops).2) := by
  intro cut
  have hrec : HasRecorded .unlimited format [] (new format .unlimited) := hasRecorded_new format _
  obtain ⟨hcalls, hrun⟩ := (follows_new limit fault format).calls hrec ops
  exact ⟨hcalls, hrun.held_eq, hrun.close (hasRecorded_accepts format ops)⟩

end Writer

end CuttingPlanes
