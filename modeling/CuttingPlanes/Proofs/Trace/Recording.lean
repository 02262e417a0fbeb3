import CuttingPlanes.Proofs.Stream.Delivery
import CuttingPlanes.Proofs.Trace.Records
import CuttingPlanes.Trace.Writer

/-!
# What a writer records

An open writer on a sink that does not fail either adds a record to its trace or
refuses it and stays as it is. `extend` is the writer with one more record, and
`HasRecorded` relates a writer to all its records: their bytes have reached the
sink, steps are numbered from the first on, and the counts agree.
-/

namespace CuttingPlanes

def countsOf (records : List Record) : Counts where
  inputs := (stepsOf records).countP (·.kind = .input)
  derived := (stepsOf records).countP (·.kind = .derived)
  comments := records.countP (·.step?.isNone)

theorem countsOf_append (records more : List Record) :
    countsOf (records ++ more) =
      ⟨(countsOf records).inputs + (countsOf more).inputs,
        (countsOf records).derived + (countsOf more).derived,
        (countsOf records).comments + (countsOf more).comments⟩ := by
  simp [countsOf]

@[simp] theorem countsOf_nil : countsOf [] = .none := rfl

@[simp] theorem countsOf_comment (text : String) (records : List Record) :
    countsOf (.comment text :: records) = (countsOf records).addComment := by
  simp [countsOf, Counts.addComment, Record.step?]

@[simp] theorem countsOf_step (s : Step) (records : List Record) :
    countsOf (.step s :: records) = (countsOf records).addStep s.kind := by
  cases h : s.kind <;> simp [countsOf, Counts.addStep, h, Record.step?]

theorem length_stepsOf (records : List Record) :
    (stepsOf records).length = (countsOf records).steps := by
  induction records with
  | nil => rfl
  | cons record records ih =>
    cases record with
    | comment text => simpa [Counts.steps, Counts.addComment] using ih
    | step s =>
      rw [stepsOf_step, countsOf_step, List.length_cons, ih]
      cases s.kind <;> simp only [Counts.steps, Counts.addStep] <;> omega

/-- The number of the next step behind a record. -/
def Record.nextBehind (next : StepId) : Record → StepId
  | .comment _ => next
  | .step _ => next.next

/-- Records as a writer numbers them if `n` steps come before: inputs have no hints,
and the hints of a step come before it. -/
def Consecutive (n : Nat) : List Record → Prop
  | [] => True
  | .comment _ :: records => Consecutive n records
  | .step s :: records =>
    s.id.index = n ∧ (s.kind = .input → s.hints = []) ∧ (∀ hint ∈ s.hints, hint.index < n) ∧
      Consecutive (n + 1) records

/-- What the numbering says about a single step. -/
theorem Consecutive.of_mem {n : Nat} {records : List Record} (h : Consecutive n records)
    {s : Step} (hs : .step s ∈ records) :
    (s.kind = .input → s.hints = []) ∧ (∀ hint ∈ s.hints, hint.index < s.id.index) ∧
      s.id.index < n + (stepsOf records).length := by
  induction records generalizing n with
  | nil => cases hs
  | cons record records ih =>
    cases record with
    | comment text =>
      have hmem := (List.mem_cons.mp hs).resolve_left nofun
      exact ih h hmem
    | step t =>
      obtain ⟨hid, hinput, hhints, hrest⟩ := h
      rw [stepsOf_step, List.length_cons]
      rcases List.mem_cons.mp hs with heq | hmem
      · cases heq
        rw [hid]
        exact ⟨hinput, hhints, by omega⟩
      · obtain ⟨hinput', hhints', hlt⟩ := ih hrest hmem
        exact ⟨hinput', hhints', by omega⟩

theorem Consecutive.hints_eq_nil {n : Nat} {records : List Record} (h : Consecutive n records)
    {s : Step} (hs : .step s ∈ records) (hkind : s.kind = .input) : s.hints = [] :=
  (h.of_mem hs).1 hkind

theorem Consecutive.hint_lt {n : Nat} {records : List Record} (h : Consecutive n records)
    {s : Step} (hs : .step s ∈ records) {hint : StepId} (hhint : hint ∈ s.hints) :
    hint.index + 1 < n + (stepsOf records).length := by
  obtain ⟨-, hhints, hlt⟩ := h.of_mem hs
  have := hhints hint hhint
  omega

theorem consecutive_append {n : Nat} {records more : List Record} :
    Consecutive n (records ++ more) ↔
      Consecutive n records ∧ Consecutive (n + (stepsOf records).length) more := by
  induction records generalizing n with
  | nil => simp [Consecutive]
  | cons record records ih =>
    cases record with
    | comment text => simpa [Consecutive] using ih
    | step s =>
      have hlen : n + ((stepsOf records).length + 1) = n + 1 + (stepsOf records).length := by omega
      simp only [List.cons_append, Consecutive, ih, stepsOf_step, List.length_cons, hlen,
        and_assoc]

namespace Writer

open Actions

def bytesOf (format : Format) : Record → List UInt8
  | .comment text => (commentPieces format text).flatten
  | .step s => (stepPieces format s.kind s.constraint s.hints).flatten

def bytesOfAll (format : Format) (records : List Record) : List UInt8 :=
  records.flatMap (bytesOf format)

theorem bytesOfAll_cons (format : Format) (record : Record) (records : List Record) :
    bytesOfAll format (record :: records) = bytesOf format record ++ bytesOfAll format records :=
  List.flatMap_cons

theorem bytesOfAll_singleton (format : Format) (record : Record) :
    bytesOfAll format [record] = bytesOf format record := by
  rw [bytesOfAll_cons]
  exact List.append_nil _

theorem bytesOfAll_append (format : Format) (records more : List Record) :
    bytesOfAll format (records ++ more) = bytesOfAll format records ++ bytesOfAll format more :=
  List.flatMap_append

/-- The counts and the next number behind a record. -/
def numberRecord (w : Writer) : Record → Writer
  | .comment _ => { w with counts := w.counts.addComment }
  | .step s => { w with next := w.next.next, counts := w.counts.addStep s.kind }

/-- The writer with one more record, whose bytes have reached the sink. -/
def extend (w : Writer) (record : Record) : Writer :=
  { w with outlet := ⟨w.outlet.settled.append (bytesOf w.format record), #[]⟩ }.numberRecord record

/-- The writer is open and its sink does not fail. -/
structure Ready (w : Writer) : Prop where
  isOpen : w.isSealed = false
  reliable : w.outlet.sink.Reliable

variable {w : Writer}

theorem Ready.extend (h : w.Ready) (record : Record) : (w.extend record).Ready := by
  cases record <;> exact ⟨h.isOpen, (h.reliable.append _).append _⟩

theorem ready_new (format : Format) {sink : Sink} (h : sink.Reliable) : (new format sink).Ready :=
  ⟨rfl, h⟩

@[simp] theorem format_extend (w : Writer) (record : Record) :
    (w.extend record).format = w.format := by
  cases record <;> rfl

theorem outlet_extend (w : Writer) (record : Record) :
    (w.extend record).outlet = ⟨w.outlet.settled.append (bytesOf w.format record), #[]⟩ := by
  cases record <;> rfl

@[simp] theorem next_extend (w : Writer) (record : Record) :
    (w.extend record).next = record.nextBehind w.next := by
  cases record <;> rfl

/-! ## Operations on an open writer -/

/-- The writer with another outlet. -/
def withOutlet (w : Writer) (o : Outlet) : Writer := { w with outlet := o }

section Written

variable {act : EStateM Fault Outlet Unit} {o : Outlet} {fault : Fault}

theorem onOutlet_of_ok (h : act w.outlet = .ok () o) :
    onOutlet act w = .ok () (w.withOutlet o) := by
  simp only [onOutlet, h, withOutlet]

theorem onOutlet_of_error (h : act w.outlet = .error fault o) :
    onOutlet act w = .error (.fault fault) (w.withOutlet o) := by
  simp only [onOutlet, h, withOutlet]

theorem ensureOpen_of_open (h : w.isSealed = false) : ensureOpen w = .ok () w := by
  simp [ensureOpen, h]

theorem ensureRecorded_of_lt {hints : List StepId} (h : ∀ hint ∈ hints, hint.index < w.next.index) :
    ensureRecorded hints w = .ok () w := by
  have hnone : hints.find? (w.next ≤ ·) = none := Checker.find?_eq_none_of_lt h
  simp [ensureRecorded, hnone]

variable {kind : StepKind} {c : Constraint} {hints : List StepId} {text : String}

/-- A step is recorded when the outlet takes its pieces. -/
theorem record_of_write_ok (hopen : w.isSealed = false)
    (hhints : ∀ hint ∈ hints, hint.index < w.next.index)
    (h : Outlet.write (stepPieces w.format kind c hints) w.outlet = .ok () o) :
    record kind c hints w =
      .ok w.next ((w.withOutlet o).numberRecord (.step ⟨w.next, kind, c, hints⟩)) := by
  have hget : (get : EStateM WriteError Writer Writer) w = .ok w w := rfl
  rw [record, bind_of_ok (ensureOpen_of_open hopen), bind_of_ok (ensureRecorded_of_lt hhints),
    bind_of_ok hget, bind_of_ok (onOutlet_of_ok h)]
  rfl

theorem record_of_write_error (hopen : w.isSealed = false)
    (hhints : ∀ hint ∈ hints, hint.index < w.next.index)
    (h : Outlet.write (stepPieces w.format kind c hints) w.outlet = .error fault o) :
    record kind c hints w = .error (.fault fault) (w.withOutlet o) := by
  have hget : (get : EStateM WriteError Writer Writer) w = .ok w w := rfl
  rw [record, bind_of_ok (ensureOpen_of_open hopen), bind_of_ok (ensureRecorded_of_lt hhints),
    bind_of_ok hget, bind_of_error (onOutlet_of_error h)]

theorem comment_of_write_ok (hopen : w.isSealed = false)
    (h : Outlet.write (commentPieces w.format text) w.outlet = .ok () o) :
    comment text w = .ok () ((w.withOutlet o).numberRecord (.comment text)) := by
  have hget : (get : EStateM WriteError Writer Writer) w = .ok w w := rfl
  rw [comment, bind_of_ok (ensureOpen_of_open hopen), bind_of_ok hget,
    bind_of_ok (onOutlet_of_ok h)]
  rfl

theorem comment_of_write_error (hopen : w.isSealed = false)
    (h : Outlet.write (commentPieces w.format text) w.outlet = .error fault o) :
    comment text w = .error (.fault fault) (w.withOutlet o) := by
  have hget : (get : EStateM WriteError Writer Writer) w = .ok w w := rfl
  rw [comment, bind_of_ok (ensureOpen_of_open hopen), bind_of_ok hget,
    bind_of_error (onOutlet_of_error h)]

end Written

theorem record_of_ready (h : w.Ready) (kind : StepKind) (c : Constraint) {hints : List StepId}
    (hhints : ∀ hint ∈ hints, hint.index < w.next.index) :
    record kind c hints w = .ok w.next (w.extend (.step ⟨w.next, kind, c, hints⟩)) :=
  record_of_write_ok h.isOpen hhints (Outlet.write_of_reliable h.reliable _)

theorem comment_of_ready (h : w.Ready) (text : String) :
    comment text w = .ok () (w.extend (.comment text)) :=
  comment_of_write_ok h.isOpen (Outlet.write_of_reliable h.reliable _)

/-! ## All records of a writer -/

/-- The writer has recorded exactly the given records, starting on a sink. -/
structure HasRecorded (sink : Sink) (format : Format) (records : List Record) (w : Writer) :
    Prop where
  outlet_eq : w.outlet = ⟨sink.append (bytesOfAll format records), #[]⟩
  format_eq : w.format = format
  next_eq : w.next = ⟨(stepsOf records).length⟩
  counts_eq : w.counts = countsOf records
  consecutive : Consecutive 0 records

theorem hasRecorded_new (format : Format) (sink : Sink) :
    HasRecorded sink format [] (new format sink) where
  outlet_eq := by simp [new, Outlet.ofSink, bytesOfAll]
  format_eq := rfl
  next_eq := rfl
  counts_eq := rfl
  consecutive := trivial

variable {sink : Sink} {format : Format} {records : List Record}

theorem HasRecorded.settled_eq (h : HasRecorded sink format records w) :
    w.outlet.settled = sink.append (bytesOfAll format records) := by
  simp [h.outlet_eq, Outlet.settled]

theorem HasRecorded.outlet_extend (h : HasRecorded sink format records w) (record : Record) :
    (w.extend record).outlet = ⟨sink.append (bytesOfAll format (records ++ [record])), #[]⟩ := by
  rw [Writer.outlet_extend, h.settled_eq, h.format_eq]
  simp [bytesOfAll]

theorem HasRecorded.comment (h : HasRecorded sink format records w) (text : String) :
    HasRecorded sink format (records ++ [.comment text]) (w.extend (.comment text)) where
  outlet_eq := h.outlet_extend _
  format_eq := by simpa using h.format_eq
  next_eq := by simpa [Record.nextBehind] using h.next_eq
  counts_eq := by simp [extend, numberRecord, h.counts_eq, countsOf, Counts.addComment, Record.step?]
  consecutive := consecutive_append.mpr ⟨h.consecutive, trivial⟩

theorem HasRecorded.step (h : HasRecorded sink format records w) {kind : StepKind} {c : Constraint}
    {hints : List StepId} (hinput : kind = .input → hints = [])
    (hhints : ∀ hint ∈ hints, hint.index < w.next.index) :
    HasRecorded sink format (records ++ [.step ⟨w.next, kind, c, hints⟩])
      (w.extend (.step ⟨w.next, kind, c, hints⟩)) where
  outlet_eq := h.outlet_extend _
  format_eq := by simpa using h.format_eq
  next_eq := by simp [h.next_eq, Record.nextBehind, StepId.next]
  counts_eq := by
    cases kind <;>
      simp [extend, numberRecord, h.counts_eq, countsOf, Counts.addStep, Record.step?]
  consecutive := by
    refine consecutive_append.mpr ⟨h.consecutive, ?_⟩
    rw [h.next_eq] at hhints ⊢
    exact ⟨by simp, hinput, by simpa using hhints, trivial⟩

theorem HasRecorded.drain (h : HasRecorded sink format records w) (hw : w.outlet.sink.Reliable) :
    Outlet.drain w.outlet = .ok () w.outlet := by
  rw [Outlet.drain_of_reliable hw, h.settled_eq, ← h.outlet_eq]

def sealTrace (w : Writer) : Writer := { w with isSealed := true }.note (.sealedTrace w.counts)

theorem HasRecorded.sealTrace (h : HasRecorded sink format records w) :
    HasRecorded sink format records w.sealTrace :=
  ⟨h.outlet_eq, h.format_eq, h.next_eq, h.counts_eq, h.consecutive⟩

theorem finish_of_drain_ok {o : Outlet} (hopen : w.isSealed = false)
    (h : Outlet.drain w.outlet = .ok () o) :
    finish w = .ok () (w.withOutlet o).sealTrace := by
  rw [finish, bind_of_ok (ensureOpen_of_open hopen), bind_of_ok (onOutlet_of_ok h)]
  rfl

theorem finish_of_drain_error {o : Outlet} {fault : Fault} (hopen : w.isSealed = false)
    (h : Outlet.drain w.outlet = .error fault o) :
    finish w = .error (.fault fault) (w.withOutlet o) := by
  rw [finish, bind_of_ok (ensureOpen_of_open hopen), bind_of_error (onOutlet_of_error h)]

theorem finish_of_ready (h : w.Ready) (hrec : HasRecorded sink format records w) :
    finish w = .ok () w.sealTrace :=
  finish_of_drain_ok h.isOpen (hrec.drain h.reliable)

end Writer

end CuttingPlanes
