import CuttingPlanes.Proofs.Trace.Operation

/-!
# The calls of a run

A run of a writer is seen here as the list of its calls, each with the answer that it got
and with the writer before and behind it. What one call does is said once, for sinks of
all kinds: a sealed writer refuses it, so does an open one if a hint dangles, and
otherwise all depends on what the outlet makes of the pieces that are written
(`call_cases`).
-/

namespace CuttingPlanes

/-- One call of a run, with the writer before it and behind it. -/
structure Call where
  op : Operation
  before : Writer
  answer : Except WriteError (Option Record)
  after : Writer

namespace Call

/-- The record that was written by the call, if one was. -/
def record? (call : Call) : Option Record := call.answer.toOption.join

/-- The step that was recorded by the call, if one was. -/
def id? (call : Call) : Option StepId := (call.record?.bind Record.step?).map Step.id

end Call

/-- The records that were written by some calls. -/
def recordsOf (calls : List Call) : List Record := calls.filterMap Call.record?

@[simp] theorem recordsOf_nil : recordsOf [] = [] := rfl

@[simp] theorem recordsOf_cons (call : Call) (calls : List Call) :
    recordsOf (call :: calls) = call.record?.toList ++ recordsOf calls := by
  cases h : call.record? <;> simp [recordsOf, h]

@[simp] theorem recordsOf_append (calls more : List Call) :
    recordsOf (calls ++ more) = recordsOf calls ++ recordsOf more := List.filterMap_append

theorem filterMap_id? (calls : List Call) :
    calls.filterMap Call.id? = (stepsOf (recordsOf calls)).map Step.id := by
  induction calls with
  | nil => rfl
  | cons call calls ih =>
    rw [recordsOf_cons, stepsOf_append, List.map_append, ← ih, List.filterMap_cons]
    cases hrecord : call.record? with
    | none => simp [Call.id?, hrecord]
    | some record => cases record <;> simp [Call.id?, hrecord, Record.step?]

/-- The first hint that does not come before a step. -/
structure FirstDangling (next : StepId) (hints : List StepId) (hint : StepId) : Prop where
  le : next ≤ hint
  first : ∃ front back, hints = front ++ hint :: back ∧ ∀ earlier ∈ front, ¬next ≤ earlier

theorem FirstDangling.mem {next hint : StepId} {hints : List StepId}
    (h : FirstDangling next hints hint) : hint ∈ hints := by
  obtain ⟨-, front, back, rfl, -⟩ := h
  simp

theorem find?_eq_some_iff_firstDangling {next hint : StepId} {hints : List StepId} :
    hints.find? (next ≤ ·) = some hint ↔ FirstDangling next hints hint := by
  rw [List.find?_eq_some_iff_append]
  constructor
  · rintro ⟨hle, front, back, heq, hfront⟩
    exact ⟨by simpa using hle, front, back, heq, by simpa using hfront⟩
  · rintro ⟨hle, front, back, heq, hfront⟩
    exact ⟨by simpa using hle, front, back, heq, by simpa using hfront⟩

theorem exists_firstDangling {next hint : StepId} {hints : List StepId} (hmem : hint ∈ hints)
    (hle : next ≤ hint) : ∃ first, FirstDangling next hints first := by
  have hfind : (hints.find? (next ≤ ·)).isSome := by
    rw [List.find?_isSome]
    exact ⟨hint, hmem, by simpa using hle⟩
  obtain ⟨first, hfirst⟩ := Option.isSome_iff_exists.mp hfind
  exact ⟨first, find?_eq_some_iff_firstDangling.mp hfirst⟩

theorem find?_eq_none_iff_lt {next : StepId} {hints : List StepId} :
    hints.find? (next ≤ ·) = none ↔ ∀ hint ∈ hints, hint.index < next.index := by
  simp [List.find?_eq_none, StepId.le_def]

namespace Writer

open Actions

/-- What is handed to the outlet for a record. -/
def piecesOf (format : Format) : Record → List (List UInt8)
  | .comment text => commentPieces format text
  | .step s => stepPieces format s.kind s.constraint s.hints

theorem flatten_piecesOf (format : Format) (record : Record) :
    (piecesOf format record).flatten = bytesOf format record := by
  cases record <;> rfl

/-- What an open writer hands to the outlet; it drains the outlet behind it. -/
def piecesFor (w : Writer) (op : Operation) : List (List UInt8) :=
  match op.record? w.next with
  | some record => piecesOf w.format record
  | none => []

/-- The writer behind a record that was written, or behind the end of the trace. -/
def behind (w : Writer) : Option Record → Writer
  | some record => w.numberRecord record
  | none => w.sealTrace

def call (w : Writer) (op : Operation) : Call :=
  match op.perform w with
  | .ok record? after => ⟨op, w, .ok record?, after⟩
  | .error e after => ⟨op, w, .error e, after⟩

/-- The calls of a run, each on the writer that the one before it has left. -/
def calls (w : Writer) : List Operation → List Call
  | [] => []
  | op :: ops => w.call op :: (w.call op).after.calls ops

/-- The writer at the start of a run and behind each of its calls. -/
def states (w : Writer) (ops : List Operation) : List Writer := w :: (w.calls ops).map Call.after

variable {w : Writer} {op : Operation}

/-! ## One call -/

theorem call_of_ok {record? : Option Record} {after : Writer}
    (h : op.perform w = .ok record? after) : w.call op = ⟨op, w, .ok record?, after⟩ := by
  rw [call, h]

theorem call_of_error {e : WriteError} {after : Writer} (h : op.perform w = .error e after) :
    w.call op = ⟨op, w, .error e, after⟩ := by
  rw [call, h]

@[simp] theorem op_call (w : Writer) (op : Operation) : (w.call op).op = op := by
  rw [call]
  split <;> rfl

@[simp] theorem before_call (w : Writer) (op : Operation) : (w.call op).before = w := by
  rw [call]
  split <;> rfl

theorem ensureRecorded_of_dangling {hints : List StepId} {hint : StepId}
    (h : FirstDangling w.next hints hint) :
    ensureRecorded hints w = .error (.danglingHint w.next hint) w := by
  have hfind := find?_eq_some_iff_firstDangling.mpr h
  simp [ensureRecorded, hfind]

theorem perform_of_dangling (hopen : w.isSealed = false) {hint : StepId}
    (h : FirstDangling w.next op.hints hint) :
    op.perform w = .error (.danglingHint w.next hint) w := by
  cases op with
  | derived c hints =>
    exact bind_of_error
      ((bind_of_ok (ensureOpen_of_open hopen)).trans (bind_of_error (ensureRecorded_of_dangling h)))
  | _ => cases h.mem

variable {o : Outlet} {fault : Fault}

theorem piecesFor_derived {c : Constraint} {hints : List StepId}
    (hhints : ∀ hint ∈ hints, hint.index < w.next.index) :
    w.piecesFor (.derived c hints) = stepPieces w.format .derived c hints := by
  simp only [piecesFor, Operation.record?, if_pos hhints, piecesOf]

theorem record?_derived {next : StepId} {c : Constraint} {hints : List StepId}
    (hhints : ∀ hint ∈ hints, hint.index < next.index) :
    Operation.record? next (.derived c hints) = some (.step ⟨next, .derived, c, hints⟩) :=
  if_pos hhints

/-- A call that passes the checks succeeds when the outlet takes what is written. -/
theorem perform_of_write_ok (hopen : w.isSealed = false)
    (hhints : ∀ hint ∈ op.hints, hint.index < w.next.index)
    (h : Outlet.write (w.piecesFor op) w.outlet = .ok () o) :
    op.perform w = .ok (op.record? w.next) ((w.withOutlet o).behind (op.record? w.next)) := by
  cases op with
  | input c => exact bind_of_ok (record_of_write_ok hopen hhints h)
  | derived c hints =>
    have hbefore : ∀ hint ∈ hints, hint.index < w.next.index := hhints
    rw [piecesFor_derived hbefore] at h
    rw [record?_derived hbefore]
    exact bind_of_ok (record_of_write_ok hopen hbefore h)
  | comment text => exact bind_of_ok (comment_of_write_ok hopen h)
  | finish => exact bind_of_ok (finish_of_drain_ok hopen h)

/-- A call that passes the checks fails when the outlet does, and only the outlet changes. -/
theorem perform_of_write_error (hopen : w.isSealed = false)
    (hhints : ∀ hint ∈ op.hints, hint.index < w.next.index)
    (h : Outlet.write (w.piecesFor op) w.outlet = .error fault o) :
    op.perform w = .error (.fault fault) (w.withOutlet o) := by
  cases op with
  | input c => exact bind_of_error (record_of_write_error hopen hhints h)
  | derived c hints =>
    have hbefore : ∀ hint ∈ hints, hint.index < w.next.index := hhints
    rw [piecesFor_derived hbefore] at h
    exact bind_of_error (record_of_write_error hopen hbefore h)
  | comment text => exact bind_of_error (comment_of_write_error hopen h)
  | finish => exact bind_of_error (finish_of_drain_error hopen h)

/-- All that a call can come to, whatever the sink. -/
theorem call_cases (w : Writer) (op : Operation) :
    (w.isSealed = true ∧ w.call op = ⟨op, w, .error .sealedTrace, w⟩) ∨
    (w.isSealed = false ∧ ∃ hint, FirstDangling w.next op.hints hint ∧
      w.call op = ⟨op, w, .error (.danglingHint w.next hint), w⟩) ∨
    (w.isSealed = false ∧ (∀ hint ∈ op.hints, hint.index < w.next.index) ∧
      ((∃ o, Outlet.write (w.piecesFor op) w.outlet = .ok () o ∧
        w.call op =
          ⟨op, w, .ok (op.record? w.next), (w.withOutlet o).behind (op.record? w.next)⟩) ∨
      ∃ fault o, Outlet.write (w.piecesFor op) w.outlet = .error fault o ∧
        w.call op = ⟨op, w, .error (.fault fault), w.withOutlet o⟩)) := by
  rcases Bool.eq_false_or_eq_true w.isSealed with hsealed | hopen
  · exact Or.inl ⟨hsealed, call_of_error (perform_of_sealed hsealed op)⟩
  refine Or.inr ?_
  cases hfind : op.hints.find? (w.next ≤ ·) with
  | some hint =>
    have hdangling := find?_eq_some_iff_firstDangling.mp hfind
    exact Or.inl ⟨hopen, hint, hdangling, call_of_error (perform_of_dangling hopen hdangling)⟩
  | none =>
    have hhints := find?_eq_none_iff_lt.mp hfind
    refine Or.inr ⟨hopen, hhints, ?_⟩
    cases hwrite : Outlet.write (w.piecesFor op) w.outlet with
    | ok _ o => exact Or.inl ⟨o, rfl, call_of_ok (perform_of_write_ok hopen hhints hwrite)⟩
    | error fault o =>
      exact Or.inr ⟨fault, o, rfl, call_of_error (perform_of_write_error hopen hhints hwrite)⟩

/-! ## Runs -/

theorem runAll_snd_cons (w : Writer) (op : Operation) (ops : List Operation) :
    (w.runAll (op :: ops)).2 = ((w.call op).after.runAll ops).2 := by
  cases hrun : op.perform w with
  | ok record? after => rw [runAll_of_ok hrun, call_of_ok hrun]
  | error e after => rw [runAll_of_error hrun, call_of_error hrun]

/-- What every call keeps holds behind a run: `P` relates the calls made so far to the
writer that they have left. -/
theorem run_induction {P : List Call → Writer → Prop}
    (hstep : ∀ front w op, P front w → P (front ++ [w.call op]) (w.call op).after)
    (front : List Call) (hstart : P front w) (ops : List Operation) :
    P (front ++ w.calls ops) (w.runAll ops).2 := by
  induction ops generalizing w front with
  | nil =>
    rw [calls, List.append_nil]
    exact hstart
  | cons op ops ih =>
    have hcall := ih (front ++ [w.call op]) (hstep front w op hstart)
    rw [List.append_assoc, ← runAll_snd_cons] at hcall
    exact hcall

/-- Every call of a run is made on the writer that some first operations have left, and
those behind it start from the writer that it leaves. -/
theorem exists_of_calls_eq {ops : List Operation} {front back : List Call} {call : Call}
    (h : w.calls ops = front ++ call :: back) :
    ∃ done rest, front = w.calls done ∧ call.before = (w.runAll done).2 ∧
      call = call.before.call call.op ∧ back = call.after.calls rest := by
  induction front generalizing w ops with
  | nil =>
    cases ops with
    | nil => cases h
    | cons op ops =>
      obtain ⟨rfl, rfl⟩ := List.cons.inj h
      exact ⟨[], ops, rfl, before_call w op, by rw [op_call, before_call], rfl⟩
  | cons first front ih =>
    cases ops with
    | nil => cases h
    | cons op ops =>
      obtain ⟨rfl, htail⟩ := List.cons.inj h
      obtain ⟨done, rest, hdone, hbefore, hcall, hback⟩ := ih htail
      refine ⟨op :: done, rest, ?_, ?_, hcall, hback⟩
      · rw [calls, hdone]
      · rw [runAll_snd_cons]
        exact hbefore

/-- What every call keeps holds of the calls before a call and of the writer before it. -/
theorem holds_before {P : List Call → Writer → Prop}
    (hstep : ∀ front w op, P front w → P (front ++ [w.call op]) (w.call op).after)
    (hstart : P [] w) {ops : List Operation} {front back : List Call} {call : Call}
    (h : w.calls ops = front ++ call :: back) :
    P front call.before ∧ call = call.before.call call.op ∧
      ∃ rest, back = call.after.calls rest := by
  obtain ⟨done, rest, rfl, hbefore, hcall, hback⟩ := exists_of_calls_eq h
  rw [hbefore]
  exact ⟨run_induction hstep [] hstart done, by rwa [← hbefore], rest, hback⟩

/-- A state of a run is one that some first operations have left. -/
theorem exists_of_mem_states {ops : List Operation} {v : Writer} (h : v ∈ w.states ops) :
    ∃ done, v = (w.runAll done).2 := by
  induction ops generalizing w with
  | nil => exact ⟨[], List.mem_singleton.mp h⟩
  | cons op ops ih =>
    rcases List.mem_cons.mp h with rfl | h
    · exact ⟨[], rfl⟩
    · obtain ⟨done, rfl⟩ := ih h
      exact ⟨op :: done, (runAll_snd_cons w op done).symm⟩

theorem calls_of_sealed (h : w.isSealed = true) {ops : List Operation} {call : Call}
    (hcall : call ∈ w.calls ops) : call.answer = .error .sealedTrace := by
  induction ops with
  | nil => cases hcall
  | cons op ops ih =>
    have hrefused := call_of_error (perform_of_sealed h op)
    rw [calls, hrefused] at hcall
    rcases List.mem_cons.mp hcall with rfl | hcall
    · rfl
    · exact ih hcall

end Writer

end CuttingPlanes
