import CuttingPlanes.Trace.Binary.Parser
import CuttingPlanes.Trace.Text.Parser

/-!
# Reading a trace

A reader delivers the records of a source one at a time. Reading can go on behind
an error: a text reader takes the next line, a binary reader the next byte. Steps
are numbered by the reader, and what is refused gets no number. Every record
shortens the source, so reading on comes to an end.
-/

namespace CuttingPlanes

open Trace

/-- Why no record was read. Malformed entries are named by the number of the line
or of the binary record, counted from one. -/
inductive ReadError
  | fault (fault : Fault)
  | malformed (record : Nat) (reason : Malformation)
  | varint (e : Varint.Error)
deriving DecidableEq, Repr

def ReadError.message : ReadError → String
  | .fault f => s!"failed to read from source: {f.message}"
  | .malformed record reason => s!"failed to parse proof record {record}: {reason.message}"
  | .varint e => s!"invalid integer encoding: {e.message}"

/-- A source, how many lines or binary records were taken from it, and the number
of the next step. -/
structure Reader where
  format : Format
  source : Source
  taken : Nat
  next : StepId
deriving DecidableEq, Repr

namespace Reader

def new (format : Format) (source : Source) : Reader := ⟨format, source, 0, .first⟩

/-- The reader behind a fault or the end of the source. -/
def stopped (r : Reader) (source : Source) : Reader := { r with source }

/-- The reader behind one more line or binary record. -/
def took (r : Reader) (source : Source) : Reader := { r with source, taken := r.taken + 1 }

def deliver (r : Reader) : Entry → EStateM.Result ReadError Reader (Option Record)
  | .comment text => .ok (some (.comment text)) r
  | .step kind c hints => .ok (some (.step ⟨r.next, kind, c, hints⟩)) { r with next := r.next.next }

/-- The next record of a text trace. Lines without words are skipped. -/
def nextText (r : Reader) : EStateM.Result ReadError Reader (Option Record) :=
  match _h : r.source.line? with
  | .error fault source => .error (.fault fault) (r.stopped source)
  | .ok none source => .ok none (r.stopped source)
  | .ok (some bytes) source =>
    match Text.decode? bytes with
    | none => .error (.fault .notText) (r.stopped source)
    | some line =>
      match Text.readLine line with
      | .error reason => .error (.malformed (r.taken + 1) reason) (r.took source)
      | .ok none => nextText (r.took source)
      | .ok (some entry) => (r.took source).deliver entry
termination_by r.source.rest.length
decreasing_by exact Source.length_rest_of_line?_some _h

def binaryError (record : Nat) : Binary.Failure → ReadError
  | .fault f => .fault f
  | .varint e => .varint e
  | .malformed reason => .malformed record reason

def nextBinary (r : Reader) : EStateM.Result ReadError Reader (Option Record) :=
  match r.source.byte? with
  | .error fault source => .error (.fault fault) (r.stopped source)
  | .ok none source => .ok none (r.stopped source)
  | .ok (some code) source =>
    match Binary.entry code source with
    | .error e source => .error (binaryError (r.taken + 1) e) (r.took source)
    | .ok entry source => (r.took source).deliver entry

/-- The next record, or nothing at the end of the trace. -/
def nextRecord : EStateM ReadError Reader (Option Record) := fun r =>
  match r.format with
  | .text => nextText r
  | .binary => nextBinary r

/-! ## Progress -/

theorem source_of_deliver {r r' : Reader} {entry : Entry} {record : Option Record}
    (h : r.deliver entry = .ok record r') : r'.source = r.source := by
  cases entry <;> cases h <;> rfl

theorem length_rest_of_nextText {r r' : Reader} {record : Record}
    (h : nextText r = .ok (some record) r') : r'.source.rest.length < r.source.rest.length := by
  fun_induction nextText r with
  | case1 => simp at h
  | case2 => simp at h
  | case3 => simp at h
  | case4 => simp at h
  | case5 r bytes source hline line hd hl ih =>
    exact Nat.lt_trans (ih h) (Source.length_rest_of_line?_some hline)
  | case6 r bytes source hline line hd entry hl =>
    rw [source_of_deliver h]
    exact Source.length_rest_of_line?_some hline

theorem length_rest_of_nextBinary {r r' : Reader} {record : Record}
    (h : nextBinary r = .ok (some record) r') : r'.source.rest.length < r.source.rest.length := by
  unfold nextBinary at h
  split at h
  · simp at h
  · simp at h
  · rename_i code source hbyte
    split at h
    · simp at h
    · rename_i entry source' hentry
      rw [source_of_deliver h]
      exact Nat.lt_of_le_of_lt ((Binary.advancing_entry code).ok hentry).length_le
        (Source.length_rest_of_byte?_some hbyte)

/-- A record shortens the source. -/
theorem length_rest_of_nextRecord {r r' : Reader} {record : Record}
    (h : nextRecord r = .ok (some record) r') : r'.source.rest.length < r.source.rest.length := by
  unfold nextRecord at h
  split at h
  · exact length_rest_of_nextText h
  · exact length_rest_of_nextBinary h

/-! ## Steps -/

/-- The next step; comments before it are skipped. -/
def nextStep (r : Reader) : EStateM.Result ReadError Reader (Option Step) :=
  match _h : nextRecord r with
  | .error e r => .error e r
  | .ok none r => .ok none r
  | .ok (some (.comment _)) r => nextStep r
  | .ok (some (.step step)) r => .ok (some step) r
termination_by r.source.rest.length
decreasing_by exact length_rest_of_nextRecord _h

theorem length_rest_of_nextStep {r r' : Reader} {step : Step}
    (h : nextStep r = .ok (some step) r') : r'.source.rest.length < r.source.rest.length := by
  fun_induction nextStep r with
  | case1 => simp at h
  | case2 => simp at h
  | case3 r text r'' hnext ih => exact Nat.lt_trans (ih h) (length_rest_of_nextRecord hnext)
  | case4 r step' r'' hnext =>
    cases h
    exact length_rest_of_nextRecord hnext

end Reader

end CuttingPlanes
