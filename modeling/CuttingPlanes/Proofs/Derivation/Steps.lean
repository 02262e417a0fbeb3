import CuttingPlanes.Derivation
import CuttingPlanes.Proofs.Trace.Recording

/-!
# The steps of a derivation

A derivation that was started on a fresh writer remembers the constraint of every
step that its writer has recorded, and these steps form a deduction: inputs have no
hints, and what `add` records is the sum of its two hints. `HasDerived` says so, and
each operation on a sink that does not fail preserves it.
-/

namespace CuttingPlanes.Derivation

open Actions Writer

/-- The derivation has recorded exactly the given records on a fresh writer. -/
structure HasDerived (sink : Sink) (format : Format) (records : List Record) (d : Derivation) :
    Prop where
  ready : d.writer.Ready
  recorded : HasRecorded sink format records d.writer
  first_eq : d.first = .first
  known_eq : d.known.toList = (stepsOf records).map Step.constraint
  deduction : Deduction (stepsOf records)

theorem hasDerived_start (format : Format) {sink : Sink} (h : sink.Reliable) :
    HasDerived sink format [] (start (new format sink)) where
  ready := ready_new format h
  recorded := hasRecorded_new format sink
  first_eq := rfl
  known_eq := rfl
  deduction := .nil

variable {sink : Sink} {format : Format} {records : List Record} {d : Derivation}

/-- The constraints that are known are those of the recorded steps. -/
theorem HasDerived.constraint?_eq_some_iff (h : HasDerived sink format records d) {id : StepId}
    {c : Constraint} :
    d.constraint? id = some c ↔ ∃ s, (stepsOf records)[id.index]? = some s ∧ s.constraint = c := by
  have hfirst : d.first ≤ id := by
    rw [h.first_eq]
    exact Nat.zero_le _
  unfold constraint?
  rw [if_pos hfirst, h.first_eq, ← Array.getElem?_toList, h.known_eq, List.getElem?_map,
    Option.map_eq_some_iff]
  rfl

theorem HasDerived.constraint?_of_append {d' : Derivation} {more : List Record}
    (h : HasDerived sink format records d) (h' : HasDerived sink format (records ++ more) d')
    {id : StepId} {c : Constraint} (hc : d.constraint? id = some c) : d'.constraint? id = some c := by
  obtain ⟨s, hs, hcs⟩ := h.constraint?_eq_some_iff.mp hc
  refine h'.constraint?_eq_some_iff.mpr ⟨s, ?_, hcs⟩
  have hlt := (List.getElem?_eq_some_iff.mp hs).1
  rw [stepsOf_append, List.getElem?_append_left hlt, hs]

theorem HasDerived.index_lt (h : HasDerived sink format records d) {id : StepId} {c : Constraint}
    (hc : d.constraint? id = some c) : id.index < d.writer.next.index := by
  obtain ⟨s, hs, -⟩ := h.constraint?_eq_some_iff.mp hc
  rw [h.recorded.next_eq]
  exact (List.getElem?_eq_some_iff.mp hs).1

/-- The constraint of the step that was recorded last. -/
theorem HasDerived.constraint?_last {s : Step}
    (h : HasDerived sink format (records ++ [.step s]) d) {id : StepId}
    (hid : id = ⟨(stepsOf records).length⟩) : d.constraint? id = some s.constraint :=
  h.constraint?_eq_some_iff.mpr ⟨s, by simp [hid], rfl⟩

theorem HasDerived.note (h : HasDerived sink format records d) (event : Event) :
    HasDerived sink format records { d with writer := d.writer.note event } where
  ready := ⟨h.ready.isOpen, h.ready.reliable⟩
  recorded := ⟨h.recorded.outlet_eq, h.recorded.format_eq, h.recorded.next_eq,
    h.recorded.counts_eq, h.recorded.consecutive⟩
  first_eq := h.first_eq
  known_eq := h.known_eq
  deduction := h.deduction

theorem note_succeeds (h : HasDerived sink format records d) (event : Event) :
    Succeeds (Derivation.note event) d fun _ d' => HasDerived sink format records d' :=
  .of_eq rfl (h.note event)

/-! ## Operations -/

theorem onWriter_of_ok {α : Type} {act : EStateM WriteError Writer α} {a : α} {w : Writer}
    (h : act d.writer = .ok a w) : onWriter act d = .ok a { d with writer := w } := by
  simp only [onWriter, h]

theorem comment_succeeds (h : HasDerived sink format records d) (text : String) :
    Succeeds (comment text) d fun _ d' =>
      HasDerived sink format (records ++ [.comment text]) d' := by
  refine .of_eq (onWriter_of_ok (comment_of_ready h.ready text)) ?_
  exact {
    ready := h.ready.extend (.comment text)
    recorded := h.recorded.comment text
    first_eq := h.first_eq
    known_eq := by simpa using h.known_eq
    deduction := by simpa using h.deduction }

/-- A step that its records justify is remembered. -/
theorem HasDerived.step (h : HasDerived sink format records d) {kind : StepKind} {c : Constraint}
    {hints : List StepId} (hinput : kind = .input → hints = [])
    (hhints : ∀ hint ∈ hints, hint.index < d.writer.next.index)
    (hd : Deduction (stepsOf records ++ [⟨d.writer.next, kind, c, hints⟩])) :
    HasDerived sink format (records ++ [.step ⟨d.writer.next, kind, c, hints⟩])
      ⟨d.writer.extend (.step ⟨d.writer.next, kind, c, hints⟩), d.first, d.known.push c⟩ where
  ready := h.ready.extend (.step ⟨d.writer.next, kind, c, hints⟩)
  recorded := h.recorded.step hinput hhints
  first_eq := h.first_eq
  known_eq := by simp [h.known_eq]
  deduction := by simpa using hd

theorem input_succeeds (h : HasDerived sink format records d) (c : Constraint) :
    Succeeds (input c) d fun id d' => id = ⟨(stepsOf records).length⟩ ∧
      HasDerived sink format (records ++ [.step ⟨id, .input, c, []⟩]) d' := by
  have hrecord : Writer.input c d.writer = _ := record_of_ready h.ready .input c (by simp)
  have hd : Deduction (stepsOf records ++ [⟨d.writer.next, .input, c, []⟩]) := by
    rw [h.recorded.next_eq]
    exact h.deduction.input (by simp)
  refine .of_eq (a := d.writer.next) ?_ ⟨h.recorded.next_eq, h.step (fun _ => rfl) (by simp) hd⟩
  rw [input, bind_of_ok (onWriter_of_ok hrecord)]
  rfl

theorem constraint_of_some {id : StepId} {c : Constraint} (h : d.constraint? id = some c) :
    constraint id d = .ok c d := by
  simp [constraint, h]

theorem constraint_succeeds {id : StepId} {c : Constraint} (h : d.constraint? id = some c) :
    Succeeds (constraint id) d fun c' d' => c = c' ∧ d = d' :=
  .of_eq (constraint_of_some h) ⟨rfl, rfl⟩

theorem add_succeeds (h : HasDerived sink format records d) {left right : StepId}
    {l r c : Constraint} (hl : d.constraint? left = some l) (hr : d.constraint? right = some r)
    (hsum : l.add r = .ok c) :
    Succeeds (add left right) d fun id d' => id = ⟨(stepsOf records).length⟩ ∧
      HasDerived sink format (records ++ [.step ⟨id, .derived, c, [left, right]⟩]) d' := by
  let d₁ : Derivation := { d with writer := d.writer.note (.adding left right c) }
  have h₁ : HasDerived sink format records d₁ := h.note _
  have hhints : ∀ hint ∈ [left, right], hint.index < d₁.writer.next.index := by
    intro hint hmem
    rcases List.mem_pair.mp hmem with rfl | rfl
    · exact h.index_lt hl
    · exact h.index_lt hr
  have hrecord : derived c [left, right] d₁.writer = _ := record_of_ready h₁.ready .derived c hhints
  obtain ⟨sl, hsl, rfl⟩ := h.constraint?_eq_some_iff.mp hl
  obtain ⟨sr, hsr, rfl⟩ := h.constraint?_eq_some_iff.mp hr
  have hd : Deduction (stepsOf records ++ [⟨d₁.writer.next, .derived, c, [left, right]⟩]) := by
    rw [h₁.recorded.next_eq]
    exact h.deduction.sum hsl hsr hsum
  refine .of_eq (a := d₁.writer.next) ?_ ⟨h₁.recorded.next_eq, h₁.step nofun hhints hd⟩
  rw [add, bind_of_ok (constraint_of_some hl), bind_of_ok (constraint_of_some hr), hsum]
  have hnote : Derivation.note (.adding left right c) d = .ok () d₁ := rfl
  simp only
  rw [bind_of_ok hnote, bind_of_ok (onWriter_of_ok hrecord)]
  rfl

/-- Once a trace is sealed and closed, its bytes are all that the sink was given. -/
theorem finish_succeeds (h : HasDerived sink format records d) :
    Succeeds (do finish; onWriter close) d fun _ d' =>
      HasRecorded sink format records d'.writer := by
  have hrec := h.recorded.sealTrace
  have hfinish := onWriter_of_ok (finish_of_ready h.ready h.recorded)
  have hclose : close d.writer.sealTrace = _ := onOutlet_of_ok (hrec.drain h.ready.reliable)
  refine .of_eq (a := ()) (t := { d with writer := d.writer.sealTrace }) ?_ hrec
  rw [finish, bind_of_ok hfinish]
  exact onWriter_of_ok hclose

end CuttingPlanes.Derivation
