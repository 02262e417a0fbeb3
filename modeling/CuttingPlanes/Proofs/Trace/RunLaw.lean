import CuttingPlanes.Proofs.Trace.Calls

/-!
# The law of a run

On a sink that does not fail the answer to a call depends on the seal and on the number
of the next step alone (`Operation.answer`), and what a call leaves depends on its answer
(`Writer.answered`). So a run keeps its accounts however its calls are mixed (`RunLaw`),
and writers of all formats, one that discards its output included, give the same answers
and keep the same accounts (`run_law`).
-/

namespace CuttingPlanes

/-- The answer to a call whose bytes the sink takes, given the seal and the next step. -/
def Operation.answer (op : Operation) (isSealed : Bool) (next : StepId) :
    Except WriteError (Option Record) :=
  if isSealed then .error .sealedTrace
  else
    match op.hints.find? (next ≤ ·) with
    | some hint => .error (.danglingHint next hint)
    | none => .ok (op.record? next)

/-- The record that is written for a call if the sink takes its bytes. -/
def Operation.written? (op : Operation) (isSealed : Bool) (next : StepId) : Option Record :=
  (op.answer isSealed next).toOption.join

namespace Operation

variable {op : Operation} {next : StepId}

theorem answer_of_sealed : op.answer true next = .error .sealedTrace := rfl

theorem answer_of_dangling {hint : StepId} (h : FirstDangling next op.hints hint) :
    op.answer false next = .error (.danglingHint next hint) := by
  have hfind := find?_eq_some_iff_firstDangling.mpr h
  simp [answer, hfind]

theorem answer_of_lt (h : ∀ hint ∈ op.hints, hint.index < next.index) :
    op.answer false next = .ok (op.record? next) := by
  have hfind := find?_eq_none_iff_lt.mpr h
  simp [answer, hfind]

theorem answer_eq_danglingHint_iff {isSealed : Bool} {step hint : StepId} :
    op.answer isSealed next = .error (.danglingHint step hint) ↔
      isSealed = false ∧ step = next ∧ FirstDangling next op.hints hint := by
  rw [← find?_eq_some_iff_firstDangling, answer]
  cases isSealed with
  | true => simp
  | false =>
    cases op.hints.find? (next ≤ ·) with
    | none => simp
    | some first => simp [eq_comm]

theorem exists_answer_eq_error_iff {isSealed : Bool} :
    (∃ e, op.answer isSealed next = .error e) ↔
      isSealed = true ∨ ∃ hint ∈ op.hints, next ≤ hint := by
  cases isSealed with
  | true => simp [answer]
  | false =>
    cases hfind : op.hints.find? (next ≤ ·) with
    | none =>
      have hlt := find?_eq_none_iff_lt.mp hfind
      rw [answer_of_lt hlt]
      simpa [StepId.le_def] using hlt
    | some hint =>
      have hdangling := find?_eq_some_iff_firstDangling.mp hfind
      rw [answer_of_dangling hdangling]
      simpa using ⟨hint, hdangling.mem, hdangling.le⟩

theorem answer_ne_fault {isSealed : Bool} {fault : Fault} :
    op.answer isSealed next ≠ .error (.fault fault) := by
  unfold answer
  cases isSealed with
  | true => simp
  | false => cases op.hints.find? (next ≤ ·) <;> simp

theorem eq_finish_of_record?_eq_none (h : ∀ hint ∈ op.hints, hint.index < next.index)
    (hnone : op.record? next = none) : op = .finish := by
  cases op with
  | derived c hints =>
    have hstep : record? next (derived c hints) = _ := Writer.record?_derived h
    rw [hstep] at hnone
    cases hnone
  | finish => rfl
  | _ => cases hnone

theorem written?_of_answer_eq_ok {isSealed : Bool} {record? : Option Record}
    (h : op.answer isSealed next = .ok record?) : op.written? isSealed next = record? := by
  rw [written?, h]
  rfl

theorem written?_of_answer_eq_error {isSealed : Bool} {e : WriteError}
    (h : op.answer isSealed next = .error e) : op.written? isSealed next = none := by
  rw [written?, h]
  rfl

theorem record?_of_answer_eq_ok {isSealed : Bool} {record? : Option Record}
    (h : op.answer isSealed next = .ok record?) :
    isSealed = false ∧ (∀ hint ∈ op.hints, hint.index < next.index) ∧
      record? = op.record? next := by
  cases isSealed with
  | true => cases h
  | false =>
    cases hfind : op.hints.find? (next ≤ ·) with
    | some hint =>
      rw [answer_of_dangling (find?_eq_some_iff_firstDangling.mp hfind)] at h
      cases h
    | none =>
      have hlt := find?_eq_none_iff_lt.mp hfind
      rw [answer_of_lt hlt] at h
      cases h
      exact ⟨rfl, hlt, rfl⟩

end Operation

namespace Writer

/-- The writer behind an answer. -/
def answered (w : Writer) : Except WriteError (Option Record) → Writer
  | .ok (some record) => w.extend record
  | .ok none => w.sealTrace
  | .error _ => w

variable {w v : Writer} {op : Operation}

/-- The outlet is empty and takes what is written for the call, if the call is not refused. -/
structure TakesCall (w : Writer) (op : Operation) : Prop where
  settled : w.outlet = ⟨w.outlet.settled, #[]⟩
  taken : op.answer w.isSealed w.next = .ok (op.record? w.next) →
    Outlet.write (w.piecesFor op) w.outlet =
      .ok () ⟨w.outlet.settled.append (w.piecesFor op).flatten, #[]⟩

/-- A call whose bytes are taken, however many there are. -/
theorem TakesCall.call_eq (h : w.TakesCall op) :
    w.call op = ⟨op, w, op.answer w.isSealed w.next, w.answered (op.answer w.isSealed w.next)⟩ := by
  obtain ⟨hsealed, hcall⟩ | ⟨hopen, hint, hdangling, hcall⟩ | ⟨hopen, hhints, hwritten⟩ :=
    call_cases w op
  · rw [hcall, hsealed, Operation.answer_of_sealed]
    rfl
  · rw [hcall, hopen, Operation.answer_of_dangling hdangling]
    rfl
  · have htaken := h.taken (by rw [hopen, Operation.answer_of_lt hhints])
    obtain ⟨o, hwrite, hcall⟩ | ⟨fault, o, hwrite, -⟩ := hwritten
    · rw [htaken] at hwrite
      cases hwrite
      rw [hcall, hopen, Operation.answer_of_lt hhints]
      cases hrecord : op.record? w.next with
      | some record =>
        have hpieces : (w.piecesFor op).flatten = bytesOf w.format record := by
          simp only [piecesFor, hrecord, flatten_piecesOf]
        rw [hpieces]
        rfl
      | none =>
        have hpieces : (w.piecesFor op).flatten = [] := by
          simp only [piecesFor, hrecord, List.flatten_nil]
        have hsame : w.withOutlet ⟨w.outlet.settled, #[]⟩ = w := by
          rw [withOutlet, ← h.settled]
        rw [hpieces, Sink.append_nil, hsame]
        rfl
    · rw [htaken] at hwrite
      cases hwrite

variable {sink : Sink} {format : Format} {records : List Record}

theorem HasRecorded.takesCall (h : HasRecorded sink format records w) (hs : sink.Reliable)
    (op : Operation) : w.TakesCall op where
  settled := by rw [h.settled_eq, ← h.outlet_eq]
  taken := by
    intro _
    refine Outlet.write_of_reliable ?_ _
    rw [h.outlet_eq]
    exact hs.append _

theorem HasRecorded.answered (h : HasRecorded sink format records w) (op : Operation) :
    HasRecorded sink format (records ++ (op.written? w.isSealed w.next).toList)
      (w.answered (op.answer w.isSealed w.next)) := by
  cases hanswer : op.answer w.isSealed w.next with
  | error e => simpa [Operation.written?_of_answer_eq_error hanswer, Writer.answered] using h
  | ok record? =>
    obtain ⟨-, -, hrecord⟩ := Operation.record?_of_answer_eq_ok hanswer
    rw [Operation.written?_of_answer_eq_ok hanswer]
    cases record? with
    | some record => exact h.extend hrecord.symm
    | none => simpa [Writer.answered] using h.sealTrace

/-! ## Calls on a sink that does not fail -/

/-- A call on a sink that does not fail, and what is recorded behind it. -/
theorem HasRecorded.call (h : HasRecorded sink format records w) (hs : sink.Reliable)
    (op : Operation) :
    HasRecorded sink format (records ++ (w.call op).record?.toList) (w.call op).after := by
  rw [(h.takesCall hs op).call_eq]
  exact h.answered op

theorem hasRecorded_step (hs : sink.Reliable) (front : List Call) (w : Writer) (op : Operation)
    (h : HasRecorded sink format (recordsOf front) w) :
    HasRecorded sink format (recordsOf (front ++ [w.call op])) (w.call op).after := by
  rw [recordsOf_append]
  simpa using h.call hs op

theorem hasRecorded_runAll (hs : sink.Reliable) (format : Format) (ops : List Operation) :
    HasRecorded sink format (recordsOf ((new format sink).calls ops))
      ((new format sink).runAll ops).2 :=
  run_induction (P := fun calls w => HasRecorded sink format (recordsOf calls) w)
    (hasRecorded_step hs) [] (hasRecorded_new format sink) ops

theorem HasRecorded.number_next (h : HasRecorded sink format records w) :
    w.next.number = 1 + w.counts.inputs + w.counts.derived := by
  rw [h.next_eq, h.counts_eq, length_stepsOf]
  simp only [StepId.number, Counts.steps]
  omega

/-- Steps are numbered one behind the other. -/
theorem numbers_of_consecutive {n : Nat} (h : Consecutive n records) :
    (stepsOf records).map (·.id.number) = List.range' (n + 1) (stepsOf records).length := by
  induction records generalizing n with
  | nil => rfl
  | cons record records ih =>
    cases record with
    | comment text => exact ih h
    | step s =>
      obtain ⟨hid, -, -, hrest⟩ := h
      rw [stepsOf_step, List.map_cons, ih hrest, List.length_cons, List.range'_succ, StepId.number,
        hid]

/-- A call of a run on a sink that does not fail was made when what the calls before it
have written was recorded. -/
theorem exists_hasRecorded (hs : sink.Reliable) {ops : List Operation} {front back : List Call}
    {call : Call} (h : (new format sink).calls ops = front ++ call :: back) :
    HasRecorded sink format (recordsOf front) call.before ∧ call = call.before.call call.op ∧
      ∃ rest, back = call.after.calls rest :=
  holds_before (P := fun calls w => HasRecorded sink format (recordsOf calls) w)
    (hasRecorded_step hs) (hasRecorded_new format sink) h

/-! ## Accounts -/

/-- What a writer tells about itself, but for the bytes that it has written. -/
def accounts (w : Writer) : StepId × Counts × Bool := (w.next, w.counts, w.isSealed)

theorem accounts_answered (h : w.accounts = v.accounts) (answer : Except WriteError (Option Record)) :
    (w.answered answer).accounts = (v.answered answer).accounts := by
  simp only [accounts, Prod.mk.injEq] at h
  obtain ⟨hnext, hcounts, hsealed⟩ := h
  cases answer with
  | error e => simp only [answered, accounts, hnext, hcounts, hsealed]
  | ok record? =>
    cases record? with
    | none => simp only [answered, accounts, sealTrace, note, hnext, hcounts]
    | some record =>
      cases record <;>
        simp only [answered, accounts, extend, numberRecord, hnext, hcounts, hsealed]

end Writer

/-- What can be seen of a call, but for the bytes that are written. -/
def Call.seen (call : Call) : Except WriteError (Option Record) × StepId × Counts × Bool :=
  (call.answer, call.after.accounts)

namespace Writer

variable {w v : Writer} {sink sink' : Sink} {format format' : Format} {records records' : List Record}

/-- Neither the format nor the sink has an influence on what is seen of a run. -/
theorem map_seen_eq (hs : sink.Reliable) (hs' : sink'.Reliable)
    (h : HasRecorded sink format records w) (h' : HasRecorded sink' format' records' v)
    (haccounts : w.accounts = v.accounts) (ops : List Operation) :
    (w.calls ops).map Call.seen = (v.calls ops).map Call.seen := by
  induction ops generalizing w v records records' with
  | nil => rfl
  | cons op ops ih =>
    have hcall := (h.takesCall hs op).call_eq
    have hcall' := (h'.takesCall hs' op).call_eq
    have hanswer : op.answer w.isSealed w.next = op.answer v.isSealed v.next := by
      simp only [accounts, Prod.mk.injEq] at haccounts
      rw [haccounts.1, haccounts.2.2]
    have hafter : (w.call op).after.accounts = (v.call op).after.accounts := by
      rw [hcall, hcall', hanswer]
      exact accounts_answered haccounts _
    have hrest := ih (h.call hs op) (h'.call hs' op) hafter
    simp only [calls, List.map_cons, hrest, Call.seen, hafter]
    simp only [hcall, hcall', hanswer]

end Writer

/-- The law of a run on a sink that does not fail. Steps are numbered from one on, and the
number of the next step agrees with the counts. A step is refused for a hint exactly if
the trace is open and some hint does not come before it, and the first such hint is named;
apart from that only a sealed trace refuses anything, and it refuses everything. What fails
changes nothing, and the bytes of what succeeds have reached the sink when the call
returns. -/
structure RunLaw (sink : Sink) (format : Format) (ops : List Operation) (calls : List Call) :
    Prop where
  numbers_eq : (calls.filterMap Call.id?).map StepId.number =
    List.range' 1 (calls.filterMap Call.id?).length
  number_next : ∀ w ∈ (Writer.new format sink).states ops,
    w.next.number = 1 + w.counts.inputs + w.counts.derived
  dangling_iff : ∀ call ∈ calls, (∃ step hint, call.answer = .error (.danglingHint step hint)) ↔
    call.before.isSealed = false ∧ ∃ hint ∈ call.op.hints, call.before.next ≤ hint
  dangling_first : ∀ call ∈ calls, ∀ step hint, call.answer = .error (.danglingHint step hint) →
    step = call.before.next ∧ FirstDangling call.before.next call.op.hints hint
  fails_iff : ∀ call ∈ calls, (∃ e, call.answer = .error e) ↔
    call.before.isSealed = true ∨ ∃ hint ∈ call.op.hints, call.before.next ≤ hint
  sealed_behind_finish : ∀ front call back, calls = front ++ call :: back → call.op = .finish →
    call.answer = .ok none → ∀ later ∈ back, later.answer = .error .sealedTrace
  unchanged : ∀ call ∈ calls, ∀ e, call.answer = .error e → call.after = call.before
  delivered : ∀ front call back, calls = front ++ call :: back →
    call.after.outlet = ⟨sink.append (Writer.bytesOfAll format (recordsOf (front ++ [call]))), #[]⟩

namespace Writer

variable {sink : Sink} {format : Format} {ops : List Operation} {call : Call}

theorem eq_of_mem_calls (hs : sink.Reliable) (h : call ∈ (new format sink).calls ops) :
    call.answer = call.op.answer call.before.isSealed call.before.next ∧
      call.after = call.before.answered call.answer := by
  obtain ⟨front, back, hsplit⟩ := List.append_of_mem h
  obtain ⟨hrec, hcall, -⟩ := exists_hasRecorded hs hsplit
  have heq := (hrec.takesCall hs call.op).call_eq
  rw [← hcall] at heq
  have hanswer := congrArg Call.answer heq
  refine ⟨hanswer, ?_⟩
  rw [hanswer]
  exact congrArg Call.after heq

theorem after_outlet_of_split (hs : sink.Reliable) {front back : List Call}
    (h : (new format sink).calls ops = front ++ call :: back) :
    call.after.outlet = ⟨sink.append (bytesOfAll format (recordsOf (front ++ [call]))), #[]⟩ := by
  obtain ⟨hrec, hcall, -⟩ := exists_hasRecorded hs h
  have hafter := hrec.call hs call.op
  rw [← hcall] at hafter
  rw [hafter.outlet_eq]
  simp

theorem later_answer_of_finish (hs : sink.Reliable) {front back : List Call}
    (h : (new format sink).calls ops = front ++ call :: back) (hok : call.answer = .ok none) :
    ∀ later ∈ back, later.answer = .error .sealedTrace := by
  obtain ⟨-, -, rest, rfl⟩ := exists_hasRecorded hs h
  have hmem : call ∈ (new format sink).calls ops := by
    rw [h]
    simp
  have hsealed : call.after.isSealed = true := by
    rw [(eq_of_mem_calls hs hmem).2, hok]
    rfl
  exact fun later hlater => calls_of_sealed hsealed hlater

theorem runLaw_of_reliable (hs : sink.Reliable) (format : Format) (ops : List Operation) :
    RunLaw sink format ops ((new format sink).calls ops) where
  numbers_eq := by
    have hconsecutive := (hasRecorded_runAll hs format ops).consecutive
    rw [filterMap_id?, List.map_map, List.length_map]
    exact numbers_of_consecutive hconsecutive
  number_next := by
    intro w hw
    obtain ⟨done, rfl⟩ := exists_of_mem_states hw
    exact (hasRecorded_runAll hs format done).number_next
  dangling_iff := by
    intro call hcall
    rw [(eq_of_mem_calls hs hcall).1]
    simp only [Operation.answer_eq_danglingHint_iff]
    constructor
    · rintro ⟨step, hint, hopen, -, hfirst⟩
      exact ⟨hopen, hint, hfirst.mem, hfirst.le⟩
    · rintro ⟨hopen, hint, hmem, hle⟩
      obtain ⟨first, hfirst⟩ := exists_firstDangling hmem hle
      exact ⟨call.before.next, first, hopen, rfl, hfirst⟩
  dangling_first := by
    intro call hcall step hint hanswer
    rw [(eq_of_mem_calls hs hcall).1] at hanswer
    exact (Operation.answer_eq_danglingHint_iff.mp hanswer).2
  fails_iff := by
    intro call hcall
    rw [(eq_of_mem_calls hs hcall).1]
    exact Operation.exists_answer_eq_error_iff
  sealed_behind_finish := fun _ _ _ h _ hok => later_answer_of_finish hs h hok
  unchanged := by
    intro call hcall e he
    rw [(eq_of_mem_calls hs hcall).2, he]
    rfl
  delivered := fun _ _ _ h => after_outlet_of_split hs h

/-- Every run of a fresh writer on a sink that does not fail obeys the law, and what is seen
of it is what is seen of a writer that discards its output. -/
theorem run_law (hs : sink.Reliable) (format : Format) (ops : List Operation) :
    RunLaw sink format ops ((new format sink).calls ops) ∧
      ((new format sink).calls ops).map Call.seen = (null.calls ops).map Call.seen := by
  refine ⟨runLaw_of_reliable hs format ops, ?_⟩
  have hnull : Sink.discard.Reliable := trivial
  exact map_seen_eq hs hnull (hasRecorded_new format sink) (hasRecorded_new .text .discard) rfl ops

/-- A hint to a step that is not there yet, a hint that is, a comment, the end, and two calls
behind it. -/
def mixedOperations : List Operation :=
  let c : Constraint := .trivial .atLeast 1
  [.derived c [⟨0⟩], .input c, .comment "", .derived c [⟨0⟩, ⟨3⟩, ⟨1⟩], .derived c [⟨0⟩, ⟨0⟩], .finish,
    .input c, .finish]

theorem run_law_mixedOperations :
    Sink.unlimited.Reliable ∧
    ((new .binary .unlimited).calls mixedOperations).map Call.seen =
      (null.calls mixedOperations).map Call.seen ∧
    (((new .binary .unlimited).calls mixedOperations).filterMap Call.id?).map StepId.number = [1, 2] ∧
    RunLaw .unlimited .binary mixedOperations ((new .binary .unlimited).calls mixedOperations) := by
  obtain ⟨hlaw, hseen⟩ := run_law Sink.reliable_unlimited .binary mixedOperations
  exact ⟨Sink.reliable_unlimited, hseen, by decide +kernel, hlaw⟩

end Writer

end CuttingPlanes
