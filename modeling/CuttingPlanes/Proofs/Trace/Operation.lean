import CuttingPlanes.Proofs.Trace.Recording

/-!
# Runs of a writer

A writer is asked for one record after the other, and goes on behind what it refuses.
What it accepts depends only on whether the trace is sealed and on the number of the
next step (`Operation.record?`), and it has recorded exactly what it accepted
(`runAll_of_ready`).
-/

namespace CuttingPlanes

/-- What a writer can be asked for. -/
inductive Operation
  | input (c : Constraint)
  | derived (c : Constraint) (hints : List StepId)
  | comment (text : String)
  | finish
deriving DecidableEq

namespace Operation

def hints : Operation → List StepId
  | .derived _ hints => hints
  | _ => []

def isComment : Operation → Bool
  | .comment _ => true
  | _ => false

/-- Let the writer work, and give the record that it wrote, if it wrote one. -/
def perform : Operation → EStateM WriteError Writer (Option Record)
  | .input c => do
    let id ← Writer.input c
    return some (.step ⟨id, .input, c, []⟩)
  | .derived c hints => do
    let id ← Writer.derived c hints
    return some (.step ⟨id, .derived, c, hints⟩)
  | .comment text => do
    Writer.comment text
    return some (.comment text)
  | .finish => do
    Writer.finish
    return none

/-- The record that an open writer accepts, given the number of the next step. -/
def record? (next : StepId) : Operation → Option Record
  | .input c => some (.step ⟨next, .input, c, []⟩)
  | .derived c hints =>
    if ∀ hint ∈ hints, hint.index < next.index then some (.step ⟨next, .derived, c, hints⟩)
    else none
  | .comment text => some (.comment text)
  | .finish => none

/-- The records that an open writer accepts, given the number of the next step. -/
def accepted (next : StepId) : List Operation → List Record
  | [] => []
  | .finish :: _ => []
  | op :: ops =>
    match op.record? next with
    | some record => record :: accepted (record.nextBehind next) ops
    | none => accepted next ops

theorem accepted_of_some {op : Operation} {next : StepId} {record : Record}
    (h : op.record? next = some record) (ops : List Operation) :
    accepted next (op :: ops) = record :: accepted (record.nextBehind next) ops := by
  cases op with
  | finish => cases h
  | _ => simp only [accepted, h]

theorem accepted_of_none {op : Operation} {next : StepId} (h : op.record? next = none)
    (hne : op ≠ .finish) (ops : List Operation) :
    accepted next (op :: ops) = accepted next ops := by
  cases op with
  | finish => exact absurd rfl hne
  | _ => simp only [accepted, h]

/-- What is accepted was asked for. -/
theorem exists_of_mem_accepted {next : StepId} {ops : List Operation} {record : Record}
    (h : record ∈ accepted next ops) : ∃ op ∈ ops, ∃ n, op.record? n = some record := by
  induction ops generalizing next with
  | nil => cases h
  | cons op ops ih =>
    have htail {n : StepId} (h : record ∈ accepted n ops) :
        ∃ op' ∈ op :: ops, ∃ n, op'.record? n = some record := by
      obtain ⟨op', hop', hrecord⟩ := ih h
      exact ⟨op', List.mem_cons_of_mem _ hop', hrecord⟩
    cases hrecord : op.record? next with
    | none =>
      by_cases hne : op = .finish
      · subst hne
        cases h
      · rw [accepted_of_none hrecord hne] at h
        exact htail h
    | some first =>
      rw [accepted_of_some hrecord] at h
      rcases List.mem_cons.mp h with rfl | h
      · exact ⟨op, List.mem_cons_self, next, hrecord⟩
      · exact htail h

theorem hints_of_record? {op : Operation} {next : StepId} {s : Step}
    (h : op.record? next = some (.step s)) : op.hints = s.hints := by
  cases op with
  | input c =>
    cases h
    rfl
  | derived c hints =>
    obtain ⟨-, hstep⟩ := Option.ite_none_right_eq_some.mp h
    cases hstep
    rfl
  | comment text => cases h
  | finish => cases h

theorem exists_hint_of_accepted {next : StepId} {ops : List Operation} {s : Step}
    (hs : s ∈ stepsOf (accepted next ops)) {hint : StepId} (hhint : hint ∈ s.hints) :
    ∃ op ∈ ops, hint ∈ op.hints := by
  obtain ⟨op, hop, n, hrecord⟩ := exists_of_mem_accepted (mem_stepsOf.mp hs)
  exact ⟨op, hop, by rwa [hints_of_record? hrecord]⟩

/-- What holds of all hints that are asked for holds of all that are accepted. -/
theorem forall_hint_of_accepted {p : StepId → Prop} {ops : List Operation}
    (h : ∀ op ∈ ops, ∀ hint ∈ op.hints, p hint) (next : StepId) :
    ∀ s ∈ stepsOf (accepted next ops), ∀ hint ∈ s.hints, p hint := by
  intro s hs hint hhint
  obtain ⟨op, hop, hmem⟩ := exists_hint_of_accepted hs hhint
  exact h op hop hint hmem

/-- Comments have no influence on which steps are accepted. -/
theorem stepsOf_accepted_filter (next : StepId) (ops : List Operation) :
    stepsOf (accepted next (ops.filter (!·.isComment))) = stepsOf (accepted next ops) := by
  induction ops generalizing next with
  | nil => rfl
  | cons op ops ih =>
    cases hcomment : op.isComment with
    | true =>
      cases op with
      | comment text => exact ih next
      | _ => cases hcomment
    | false =>
      rw [List.filter_cons_of_pos (by rw [hcomment]; rfl)]
      cases hrecord : op.record? next with
      | none =>
        by_cases hne : op = .finish
        · rw [hne]
          rfl
        · rw [accepted_of_none hrecord hne, accepted_of_none hrecord hne, ih]
      | some record =>
        rw [accepted_of_some hrecord, accepted_of_some hrecord]
        cases record with
        | comment text => exact ih _
        | step s => rw [stepsOf_step, stepsOf_step, ih]

end Operation

namespace Writer

open Actions

/-- The records that are accepted in a run, and the writer behind it. -/
def runAll (w : Writer) : List Operation → List Record × Writer
  | [] => ([], w)
  | op :: ops =>
    match op.perform w with
    | .ok record? w => (record?.toList ++ (runAll w ops).1, (runAll w ops).2)
    | .error _ w => runAll w ops

variable {sink : Sink} {format : Format} {records : List Record} {w : Writer}

/-! ## One operation -/

theorem ensureOpen_of_sealed (h : w.isSealed = true) : ensureOpen w = .error .sealedTrace w := by
  simp [ensureOpen, h]

theorem perform_of_sealed (h : w.isSealed = true) (op : Operation) :
    op.perform w = .error .sealedTrace w := by
  have hopen := ensureOpen_of_sealed h
  cases op with
  | input c => exact bind_of_error (bind_of_error hopen)
  | derived c hints => exact bind_of_error (bind_of_error hopen)
  | comment text => exact bind_of_error (bind_of_error hopen)
  | finish => exact bind_of_error (bind_of_error hopen)

theorem record_of_dangling (h : w.isSealed = false) (kind : StepKind) (c : Constraint)
    {hints : List StepId} (hhints : ¬∀ hint ∈ hints, hint.index < w.next.index) :
    ∃ e, record kind c hints w = .error e w := by
  have hsome : (hints.find? (w.next ≤ ·)).isSome := by
    rw [List.find?_isSome]
    push Not at hhints
    obtain ⟨hint, hmem, hle⟩ := hhints
    exact ⟨hint, hmem, by simpa [StepId.le_def] using hle⟩
  obtain ⟨hint, hhint⟩ := Option.isSome_iff_exists.mp hsome
  have hdangling : ensureRecorded hints w = .error (.danglingHint w.next hint) w := by
    simp [ensureRecorded, hhint]
  refine ⟨.danglingHint w.next hint, ?_⟩
  rw [record, bind_of_ok (ensureOpen_of_open h), bind_of_error hdangling]

/-- What an open writer does: it adds a record, refuses it, or seals the trace. -/
theorem perform_of_ready (h : w.Ready) (hrec : HasRecorded sink format records w)
    (op : Operation) :
    (∃ record, op.record? w.next = some record ∧
      op.perform w = .ok (some record) (w.extend record)) ∨
    (op.record? w.next = none ∧ op ≠ .finish ∧ ∃ e, op.perform w = .error e w) ∨
    (op = .finish ∧ op.perform w = .ok none w.sealTrace) := by
  cases op with
  | input c =>
    have hrecord : Writer.input c w = _ := record_of_ready h .input c (by simp)
    refine Or.inl ⟨_, rfl, ?_⟩
    rw [Operation.perform, bind_of_ok hrecord]
    rfl
  | derived c hints =>
    by_cases hhints : ∀ hint ∈ hints, hint.index < w.next.index
    · have hrecord : Writer.derived c hints w = _ := record_of_ready h .derived c hhints
      refine Or.inl ⟨.step ⟨w.next, .derived, c, hints⟩, if_pos hhints, ?_⟩
      rw [Operation.perform, bind_of_ok hrecord]
      rfl
    · obtain ⟨e, he⟩ := record_of_dangling h.isOpen .derived c hhints
      refine Or.inr (Or.inl ⟨if_neg hhints, nofun, e, bind_of_error he⟩)
  | comment text =>
    refine Or.inl ⟨_, rfl, ?_⟩
    rw [Operation.perform, bind_of_ok (comment_of_ready h text)]
    rfl
  | finish =>
    refine Or.inr (Or.inr ⟨rfl, ?_⟩)
    rw [Operation.perform, bind_of_ok (finish_of_ready h hrec)]
    rfl

theorem HasRecorded.extend {record : Record} {op : Operation}
    (h : HasRecorded sink format records w) (hrecord : op.record? w.next = some record) :
    HasRecorded sink format (records ++ [record]) (w.extend record) := by
  cases op with
  | input c =>
    cases hrecord
    exact h.step (fun _ => rfl) (by simp)
  | derived c hints =>
    obtain ⟨hhints, hstep⟩ := Option.ite_none_right_eq_some.mp hrecord
    cases hstep
    exact h.step nofun hhints
  | comment text =>
    cases hrecord
    exact h.comment text
  | finish => cases hrecord

/-! ## Runs -/

theorem runAll_of_ok {op : Operation} {record? : Option Record} {w' : Writer}
    (h : op.perform w = .ok record? w') (ops : List Operation) :
    w.runAll (op :: ops) = (record?.toList ++ (w'.runAll ops).1, (w'.runAll ops).2) := by
  rw [runAll, h]

theorem runAll_of_error {op : Operation} {e : WriteError} {w' : Writer}
    (h : op.perform w = .error e w') (ops : List Operation) :
    w.runAll (op :: ops) = w'.runAll ops := by
  rw [runAll, h]

theorem runAll_of_sealed (h : w.isSealed = true) (ops : List Operation) :
    w.runAll ops = ([], w) := by
  induction ops with
  | nil => rfl
  | cons op ops ih => rw [runAll_of_error (perform_of_sealed h op), ih]

/-- A writer has recorded what it accepted. -/
theorem runAll_of_ready (h : w.Ready) (hrec : HasRecorded sink format records w)
    (ops : List Operation) :
    (w.runAll ops).1 = Operation.accepted w.next ops ∧
      HasRecorded sink format (records ++ (w.runAll ops).1) (w.runAll ops).2 := by
  induction ops generalizing w records with
  | nil => exact ⟨rfl, by simpa [runAll] using hrec⟩
  | cons op ops ih =>
    obtain ⟨record, hrecord, hrun⟩ | ⟨hnone, hne, e, hrun⟩ | ⟨rfl, hrun⟩ :=
      perform_of_ready h hrec op
    · obtain ⟨haccepted, hrec'⟩ := ih (h.extend record) (hrec.extend hrecord)
      rw [next_extend] at haccepted
      rw [runAll_of_ok hrun, Operation.accepted_of_some hrecord, haccepted]
      exact ⟨rfl, by simpa [haccepted] using hrec'⟩
    · rw [runAll_of_error hrun, Operation.accepted_of_none hnone hne]
      exact ih h hrec
    · rw [runAll_of_ok hrun, runAll_of_sealed rfl]
      exact ⟨rfl, by simpa using hrec.sealTrace⟩

/-- The records that a fresh writer accepts in a run. -/
def accepts (format : Format) (ops : List Operation) : List Record :=
  ((new format .unlimited).runAll ops).1

/-- The bytes that a run of a fresh writer leaves in an empty sink. -/
def output (format : Format) (ops : List Operation) : List UInt8 :=
  ((new format .unlimited).runAll ops).2.outlet.sink.held.toList

theorem accepts_eq (format : Format) (ops : List Operation) :
    accepts format ops = Operation.accepted .first ops :=
  (runAll_of_ready (ready_new format Sink.reliable_unlimited) (hasRecorded_new _ _) ops).1

theorem hasRecorded_accepts (format : Format) (ops : List Operation) :
    HasRecorded .unlimited format (accepts format ops) ((new format .unlimited).runAll ops).2 := by
  have h := (runAll_of_ready (ready_new format Sink.reliable_unlimited) (hasRecorded_new _ _) ops).2
  rwa [List.nil_append] at h

theorem output_eq (format : Format) (ops : List Operation) :
    output format ops = bytesOfAll format (accepts format ops) := by
  rw [output, (hasRecorded_accepts format ops).outlet_eq, Sink.held_append_unlimited]

end Writer

end CuttingPlanes
