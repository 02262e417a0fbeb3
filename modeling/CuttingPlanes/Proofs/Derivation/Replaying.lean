import CuttingPlanes.Proofs.Derivation.Steps
import CuttingPlanes.Proofs.Trace.Replaying

/-!
# Derivations are accepted by the checker

Whatever a derivation is asked for, and whatever of it is refused, it has recorded a
deduction and knows its constraints (`isRecorded_runAll`). So when its trace is read,
every step is accepted, and the checker knows what the derivation knows
(`exists_verify_ofRequests`).
-/

namespace CuttingPlanes

namespace Derivation

open Actions

/-- What a derivation can be asked for. -/
inductive Request
  | input (c : Constraint)
  | add (left right : StepId)
  | sum (queue : List StepId)
  | comment (text : String)
deriving DecidableEq

/-- The length of a comment is less than 2 ^ 63, as that of all that is held in memory. -/
def Request.InMemory : Request → Prop
  | .comment text => (Text.encode text.toList).length < 0x8000000000000000
  | .input _ => True
  | .add _ _ => True
  | .sum _ => True

instance (request : Request) : Decidable request.InMemory :=
  match request with
  | .comment text =>
    inferInstanceAs (Decidable ((Text.encode text.toList).length < 0x8000000000000000))
  | .input _ => .isTrue trivial
  | .add _ _ => .isTrue trivial
  | .sum _ => .isTrue trivial

def perform : Request → EStateM DerivationError Derivation Unit
  | .input c => discard (input c)
  | .add left right => discard (add left right)
  | .sum queue => discard (sum queue)
  | .comment text => comment text

/-- The derivation behind a run, which goes on behind what is refused. -/
def runAll (d : Derivation) : List Request → Derivation
  | [] => d
  | request :: requests =>
    match perform request d with
    | .ok _ d => runAll d requests
    | .error _ d => runAll d requests

/-- The derivation behind a run that starts on an empty trace. -/
def ofRequests (format : Format) (requests : List Request) : Derivation :=
  (start (.new format .unlimited)).runAll requests

/-- The bytes that have reached the sink. -/
def trace (d : Derivation) : List UInt8 := d.writer.outlet.sink.held.toList

/-! ## What requests keep -/

/-- The derivation has recorded a deduction on an empty sink, and its comments are held in
memory. -/
def IsRecorded (format : Format) (d : Derivation) : Prop :=
  ∃ records, HasDerived .unlimited format records d ∧
    ∀ text, .comment text ∈ records → (Request.comment text).InMemory

variable {format : Format} {d : Derivation}

theorem isRecorded_start (format : Format) :
    IsRecorded format (start (.new format .unlimited)) :=
  ⟨[], hasDerived_start format Sink.reliable_unlimited, nofun⟩

theorem preserves_discard {α : Type} {act : EStateM DerivationError Derivation α}
    (h : Preserves act (IsRecorded format)) : Preserves (discard act) (IsRecorded format) := by
  have hdiscard : discard act = act >>= fun _ => pure () := rfl
  rw [hdiscard]
  exact h.bind fun _ => .pure ()

theorem preserves_comment {text : String} (htext : (Request.comment text).InMemory) :
    Preserves (comment text) (IsRecorded format) := by
  rintro d ⟨records, h, hcomments⟩
  refine (comment_succeeds h text).leaves fun _ d' h' => ⟨_, h', ?_⟩
  intro text' hmem
  rcases List.mem_append.mp hmem with hmem | hmem
  · exact hcomments text' hmem
  · cases List.mem_singleton.mp hmem
    exact htext

/-- One more step changes nothing about the comments. -/
theorem isRecorded_of_step {records : List Record} {s : Step}
    (h : HasDerived .unlimited format (records ++ [.step s]) d)
    (hcomments : ∀ text, .comment text ∈ records → (Request.comment text).InMemory) :
    IsRecorded format d := by
  refine ⟨_, h, fun text hmem => hcomments text ?_⟩
  exact (List.mem_append.mp hmem).resolve_right (by simp)

theorem preserves_input (c : Constraint) : Preserves (input c) (IsRecorded format) := by
  rintro d ⟨records, h, hcomments⟩
  exact (input_succeeds h c).leaves fun id d' h' => isRecorded_of_step h'.2 hcomments

theorem constraint_of_none {id : StepId} (h : d.constraint? id = none) :
    constraint id d = .error (.unknownStep id) d := by
  simp [constraint, h]

/-- A sum is recorded, or the derivation stays as it is. -/
theorem preserves_add (left right : StepId) : Preserves (add left right) (IsRecorded format) := by
  rintro d ⟨records, h, hcomments⟩
  have hkeep : IsRecorded format d := ⟨records, h, hcomments⟩
  cases hl : d.constraint? left with
  | none => exact (leaves_of_error (bind_of_error (constraint_of_none hl))).mpr hkeep
  | some l =>
    have hleft := constraint_of_some hl
    cases hr : d.constraint? right with
    | none =>
      have hright := constraint_of_none hr
      exact (leaves_of_error ((bind_of_ok hleft).trans (bind_of_error hright))).mpr hkeep
    | some r =>
      have hright := constraint_of_some hr
      cases hsum : l.add r with
      | ok c =>
        exact (add_succeeds h hl hr hsum).leaves fun id d' h' => isRecorded_of_step h'.2 hcomments
      | error e =>
        have hrun : add left right d = .error (.constraint e) d := by
          rw [add, bind_of_ok hleft, bind_of_ok hright, hsum]
          rfl
        exact (leaves_of_error hrun).mpr hkeep

/-- The sums recorded before one that is refused are kept. -/
theorem preserves_sum (queue : List StepId) : Preserves (sum queue) (IsRecorded format) := by
  fun_induction sum queue with
  | case1 => exact .pure none
  | case2 step => exact .pure (some step)
  | case3 left right queue ih => exact (preserves_add left right).bind ih

theorem preserves_perform {request : Request} (h : request.InMemory) :
    Preserves (perform request) (IsRecorded format) := by
  cases request with
  | input c => exact preserves_discard (preserves_input c)
  | add left right => exact preserves_discard (preserves_add left right)
  | sum queue => exact preserves_discard (preserves_sum queue)
  | comment text => exact preserves_comment h

theorem isRecorded_runAll {requests : List Request} (hmemory : ∀ request ∈ requests, request.InMemory)
    (h : IsRecorded format d) : IsRecorded format (d.runAll requests) := by
  induction requests generalizing d with
  | nil => exact h
  | cons request requests ih =>
    have hrest : ∀ request ∈ requests, request.InMemory :=
      fun q hq => hmemory q (List.mem_cons_of_mem _ hq)
    have hfirst := preserves_perform (hmemory request List.mem_cons_self) d h
    rw [runAll]
    split
    · rename_i hrun
      exact ih hrest ((leaves_of_ok hrun).mp hfirst)
    · rename_i hrun
      exact ih hrest ((leaves_of_error hrun).mp hfirst)

/-! ## Checking what was recorded -/

theorem HasDerived.length_steps {sink : Sink} {records : List Record}
    (h : HasDerived sink format records d) : (stepsOf records).length = d.known.size := by
  rw [← Array.length_toList, h.known_eq, List.length_map]

theorem HasDerived.fitsBinary {sink : Sink} {records : List Record}
    (h : HasDerived sink format records d) (hsize : d.known.size < 0x8000000000000000)
    (hcomments : ∀ text, .comment text ∈ records → (Request.comment text).InMemory) :
    ∀ record ∈ records, record.FitsBinary := by
  intro record hrecord
  cases record with
  | comment text => exact hcomments text hrecord
  | step s =>
    rw [← h.length_steps] at hsize
    exact h.deduction.hintsFit h.recorded.consecutive hsize hrecord

/-- A checker that has accepted the recorded steps knows what the derivation knows. -/
theorem HasDerived.known_of_hasAccepted {sink : Sink} {records : List Record} {c : Checker}
    (h : HasDerived sink format records d) (hc : c.HasAccepted (stepsOf records)) (id : StepId) :
    c.known[id.index]? = d.constraint? id := by
  apply Option.ext
  intro constraint
  rw [hc.known_eq_some_iff, h.constraint?_eq_some_iff]

/-- The last step is the one before the next. -/
theorem HasDerived.getLast?_eq_some_iff {sink : Sink} {records : List Record} {s : Step}
    (h : HasDerived sink format records d) :
    (stepsOf records).getLast? = some s ↔
      ∃ id : StepId, id.next = d.writer.next ∧ (stepsOf records)[id.index]? = some s := by
  rw [h.recorded.next_eq, List.getLast?_eq_getElem?]
  constructor
  · intro hs
    have hlt := (List.getElem?_eq_some_iff.mp hs).1
    refine ⟨⟨(stepsOf records).length - 1⟩, congrArg StepId.mk ?_, hs⟩
    simp only
    omega
  · rintro ⟨⟨k⟩, hnext, hs⟩
    have hk : k + 1 = (stepsOf records).length := congrArg StepId.index hnext
    rwa [← hk, Nat.add_sub_cancel]

/-- The trace of a derivation is read to its end in either format, and every step of it is
accepted, whatever the derivation was asked for and refused. Afterwards the checker has the
constraints of the derivation under the same numbers and the counts of its writer, and
finds a contradiction at the end if one was recorded last. The comments and the known
constraints are held in memory, which bounds their length and number. -/
theorem exists_verify_ofRequests (format : Format) (requests : List Request)
    (hmemory : ∀ request ∈ requests, request.InMemory)
    (hsize : (ofRequests format requests).known.size < 0x8000000000000000) :
    ∃ c, Checker.new.verify (.new format (.ofBytes (ofRequests format requests).trace)) =
        .ok () c ∧
      (∀ id, c.known[id.index]? = (ofRequests format requests).constraint? id) ∧
      c.inputs = (ofRequests format requests).writer.counts.inputs ∧
      c.derived = (ofRequests format requests).writer.counts.derived ∧
      (c.concludesContradiction = true ↔
        ∃ id constraint, StepId.next id = (ofRequests format requests).writer.next ∧
          (ofRequests format requests).constraint? id = some constraint ∧
          constraint.isContradiction = true) := by
  obtain ⟨records, h, hcomments⟩ : IsRecorded format (ofRequests format requests) :=
    isRecorded_runAll hmemory (isRecorded_start format)
  obtain ⟨c, hverify, haccepted⟩ := Checker.exists_verify_bytesOfAll format
    h.recorded.consecutive (h.fitsBinary hsize hcomments) h.deduction
  refine ⟨c, ?_, h.known_of_hasAccepted haccepted, ?_, ?_, ?_⟩
  · rw [trace, h.recorded.outlet_eq, Sink.held_append_unlimited]
    exact hverify
  · rw [haccepted.inputs, h.recorded.counts_eq]
    rfl
  · rw [haccepted.derived, h.recorded.counts_eq]
    rfl
  · rw [haccepted.concludesContradiction_iff]
    constructor
    · rintro ⟨s, hs, hcontra⟩
      obtain ⟨id, hid, hs⟩ := h.getLast?_eq_some_iff.mp hs
      exact ⟨id, _, hid, h.constraint?_eq_some_iff.mpr ⟨s, hs, rfl⟩, hcontra⟩
    · rintro ⟨id, constraint, hid, hconstraint, hcontra⟩
      obtain ⟨s, hs, rfl⟩ := h.constraint?_eq_some_iff.mp hconstraint
      exact ⟨s, h.getLast?_eq_some_iff.mpr ⟨id, hid, hs⟩, hcontra⟩

/-- Two inputs that contradict each other, an equation, and sums of which one names an
unknown step, one has different relations, and one stops behind its first sum. -/
def refusedRequests : List Request :=
  let x : Variable := ⟨4, by decide, by decide⟩
  [.input ⟨⟨[⟨1, x⟩], by decide⟩, .atLeast, 1⟩, .add ⟨0⟩ ⟨7⟩,
    .input ⟨⟨[⟨-1, x⟩], by decide⟩, .atLeast, 0⟩, .comment "a >= 1 ; 1 2",
    .input ⟨.zero, .equal, 0⟩, .add ⟨0⟩ ⟨2⟩, .sum [⟨0⟩, ⟨1⟩, ⟨9⟩]]

theorem exists_verify_refusedRequests :
    (ofRequests .binary refusedRequests).known.size = 4 ∧
    ∃ c, Checker.new.verify (.new .binary (.ofBytes (ofRequests .binary refusedRequests).trace)) =
        .ok () c ∧
      c.inputs = 3 ∧ c.derived = 1 ∧ c.concludesContradiction = true := by
  have hmemory : ∀ request ∈ refusedRequests, request.InMemory := by decide +kernel
  have hsize : (ofRequests .binary refusedRequests).known.size = 4 := by decide +kernel
  obtain ⟨c, hverify, -, hinputs, hderived, hcontra⟩ :=
    exists_verify_ofRequests .binary refusedRequests hmemory (by rw [hsize]; decide)
  have hlast : (ofRequests .binary refusedRequests).constraint? ⟨3⟩ =
      some ⟨.zero, .atLeast, 1⟩ := by decide +kernel
  have hcounts : (ofRequests .binary refusedRequests).writer.counts = ⟨3, 1, 1⟩ := by
    decide +kernel
  rw [hcounts] at hinputs hderived
  refine ⟨hsize, c, hverify, hinputs, hderived, hcontra.mpr ⟨⟨3⟩, _, ?_, hlast, by decide⟩⟩
  decide +kernel

end Derivation

end CuttingPlanes
