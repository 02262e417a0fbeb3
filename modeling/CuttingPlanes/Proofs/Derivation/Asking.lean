import CuttingPlanes.Proofs.Derivation.Replaying
import CuttingPlanes.Proofs.Trace.Calls
import CuttingPlanes.Proofs.Trace.Numbering

/-!
# What a derivation asks of its writer

A derivation may be started on any writer: one that has recorded steps before, one that is
sealed, one whose sink fails. `opsOf` tells which operations a request comes down to.
`HasAsked` relates a derivation to the run of these operations on the writer alone: the two
writers agree but for their journals, and the derivation knows the constraints of exactly
the steps that were recorded in that run. Every request keeps this, however it ends
(`HasAsked.perform`).
-/

namespace CuttingPlanes

namespace Writer

open Actions

variable {w v : Writer} {op : Operation}

/-- Writers that differ at most in what they have noted. -/
structure Agrees (w v : Writer) : Prop where
  outlet_eq : w.outlet = v.outlet
  format_eq : w.format = v.format
  next_eq : w.next = v.next
  counts_eq : w.counts = v.counts
  isSealed_eq : w.isSealed = v.isSealed

theorem Agrees.refl (w : Writer) : w.Agrees w := ⟨rfl, rfl, rfl, rfl, rfl⟩

theorem Agrees.trans {u : Writer} (h : w.Agrees v) (h' : v.Agrees u) : w.Agrees u where
  outlet_eq := h.outlet_eq.trans h'.outlet_eq
  format_eq := h.format_eq.trans h'.format_eq
  next_eq := h.next_eq.trans h'.next_eq
  counts_eq := h.counts_eq.trans h'.counts_eq
  isSealed_eq := h.isSealed_eq.trans h'.isSealed_eq

theorem Agrees.note (h : w.Agrees v) (event : Event) : (w.note event).Agrees v :=
  ⟨h.outlet_eq, h.format_eq, h.next_eq, h.counts_eq, h.isSealed_eq⟩

theorem Agrees.withOutlet (h : w.Agrees v) (o : Outlet) :
    (w.withOutlet o).Agrees (v.withOutlet o) :=
  ⟨rfl, h.format_eq, h.next_eq, h.counts_eq, h.isSealed_eq⟩

theorem Agrees.behind (h : w.Agrees v) (record? : Option Record) :
    (w.behind record?).Agrees (v.behind record?) := by
  obtain ⟨houtlet, hformat, hnext, hcounts, hsealed⟩ := h
  cases record? with
  | none => exact ⟨houtlet, hformat, hnext, hcounts, rfl⟩
  | some record =>
    cases record with
    | comment text => exact ⟨houtlet, hformat, hnext, congrArg Counts.addComment hcounts, hsealed⟩
    | step s =>
      exact ⟨houtlet, hformat, congrArg StepId.next hnext, congrArg (·.addStep s.kind) hcounts,
        hsealed⟩

/-- The journal has no influence on what a call does. -/
theorem Agrees.call (h : w.Agrees v) (op : Operation) :
    (w.call op).answer = (v.call op).answer ∧ (w.call op).after.Agrees (v.call op).after := by
  have hpieces : w.piecesFor op = v.piecesFor op := by
    rw [piecesFor, piecesFor, h.next_eq, h.format_eq]
  obtain ⟨hsealed, hw⟩ | ⟨hopen, hint, hdangling, hw⟩ | ⟨hopen, hhints, hw⟩ := call_cases w op
  · rw [hw, call_of_error (perform_of_sealed (h.isSealed_eq ▸ hsealed) op)]
    exact ⟨rfl, h⟩
  · rw [h.next_eq] at hdangling hw
    rw [hw, call_of_error (perform_of_dangling (h.isSealed_eq ▸ hopen) hdangling)]
    exact ⟨rfl, h⟩
  · rw [h.isSealed_eq] at hopen
    rw [h.next_eq] at hhints hw
    rw [hpieces, h.outlet_eq] at hw
    obtain ⟨o, hwrite, hw⟩ | ⟨fault, o, hwrite, hw⟩ := hw
    · rw [hw, call_of_ok (perform_of_write_ok hopen hhints hwrite)]
      exact ⟨rfl, (h.withOutlet o).behind _⟩
    · rw [hw, call_of_error (perform_of_write_error hopen hhints hwrite)]
      exact ⟨rfl, h.withOutlet o⟩

theorem runAll_singleton (w : Writer) (op : Operation) :
    w.runAll [op] = ((w.call op).record?.toList, (w.call op).after) := by
  cases hrun : op.perform w with
  | ok record? after =>
    rw [runAll_of_ok hrun, call_of_ok hrun, runAll, List.append_nil]
    rfl
  | error e after =>
    rw [runAll_of_error hrun, call_of_error hrun]
    rfl

theorem runAll_append (w : Writer) (ops ops' : List Operation) :
    w.runAll (ops ++ ops') = ((w.runAll ops).1 ++ ((w.runAll ops).2.runAll ops').1,
      ((w.runAll ops).2.runAll ops').2) := by
  induction ops generalizing w with
  | nil => rfl
  | cons op ops ih =>
    rw [List.cons_append]
    cases hrun : op.perform w with
    | ok record? after => rw [runAll_of_ok hrun, runAll_of_ok hrun, ih, List.append_assoc]
    | error e after => rw [runAll_of_error hrun, runAll_of_error hrun, ih]

/-- One more operation is one more call. -/
theorem runAll_concat (w : Writer) (ops : List Operation) (op : Operation) :
    w.runAll (ops ++ [op]) = ((w.runAll ops).1 ++ ((w.runAll ops).2.call op).record?.toList,
      ((w.runAll ops).2.call op).after) := by
  rw [runAll_append, runAll_singleton]

/-- The journal has no influence on a run. -/
theorem Agrees.runAll (h : w.Agrees v) (ops : List Operation) :
    (w.runAll ops).1 = (v.runAll ops).1 ∧ (w.runAll ops).2.Agrees (v.runAll ops).2 := by
  induction ops using List.reverseRecOn with
  | nil => exact ⟨rfl, h⟩
  | append_singleton ops op ih =>
    obtain ⟨hrecords, hagrees⟩ := ih
    obtain ⟨hanswer, hafter⟩ := hagrees.call op
    have hrecord : ((w.runAll ops).2.call op).record? = ((v.runAll ops).2.call op).record? := by
      rw [Call.record?, Call.record?, hanswer]
    rw [runAll_concat, runAll_concat, hrecords, hrecord]
    exact ⟨rfl, hafter⟩

/-- A step is recorded, or only the outlet changes; a hint dangles only if it does not come
before the step. -/
theorem record_cases (w : Writer) (kind : StepKind) (c : Constraint) (hints : List StepId) :
    (∃ o, record kind c hints w =
      .ok w.next ((w.withOutlet o).numberRecord (.step ⟨w.next, kind, c, hints⟩))) ∨
    ∃ e o, record kind c hints w = .error e (w.withOutlet o) ∧
      ∀ step hint, e = .danglingHint step hint → hint ∈ hints ∧ w.next ≤ hint := by
  rcases Bool.eq_false_or_eq_true w.isSealed with hsealed | hopen
  · exact Or.inr ⟨_, w.outlet, bind_of_error (ensureOpen_of_sealed hsealed), nofun⟩
  cases hfind : hints.find? (w.next ≤ ·) with
  | some hint =>
    have hdangling := find?_eq_some_iff_firstDangling.mp hfind
    refine Or.inr ⟨_, w.outlet,
      (bind_of_ok (ensureOpen_of_open hopen)).trans
        (bind_of_error (ensureRecorded_of_dangling hdangling)), ?_⟩
    rintro step hint ⟨⟩
    exact ⟨hdangling.mem, hdangling.le⟩
  | none =>
    have hhints := find?_eq_none_iff_lt.mp hfind
    cases hwrite : Outlet.write (stepPieces w.format kind c hints) w.outlet with
    | ok _ o => exact Or.inl ⟨o, record_of_write_ok hopen hhints hwrite⟩
    | error fault o => exact Or.inr ⟨_, o, record_of_write_error hopen hhints hwrite, nofun⟩

theorem comment_cases (w : Writer) (text : String) :
    (∃ o, comment text w = .ok () ((w.withOutlet o).numberRecord (.comment text))) ∨
    ∃ e o, comment text w = .error e (w.withOutlet o) ∧
      ∀ step hint, e ≠ .danglingHint step hint := by
  rcases Bool.eq_false_or_eq_true w.isSealed with hsealed | hopen
  · exact Or.inr ⟨_, w.outlet, bind_of_error (ensureOpen_of_sealed hsealed), nofun⟩
  cases hwrite : Outlet.write (commentPieces w.format text) w.outlet with
  | ok _ o => exact Or.inl ⟨o, comment_of_write_ok hopen hwrite⟩
  | error fault o => exact Or.inr ⟨_, o, comment_of_write_error hopen hwrite, nofun⟩

end Writer

namespace Derivation

open Actions Writer

variable {w : Writer} {ops : List Operation} {d d' : Derivation} {left right : StepId}
  {e : DerivationError} {c : Constraint}

/-! ## One step -/

/-- The sum of two known steps. -/
def sumOf (d : Derivation) (left right : StepId) : Except DerivationError Constraint :=
  match d.constraint? left, d.constraint? right with
  | none, _ => .error (.unknownStep left)
  | some _, none => .error (.unknownStep right)
  | some l, some r =>
    match l.add r with
    | .ok c => .ok c
    | .error e => .error (.constraint e)

theorem sumOf_eq_ok (h : d.sumOf left right = .ok c) :
    ∃ l r, d.constraint? left = some l ∧ d.constraint? right = some r ∧ l.add r = .ok c := by
  unfold sumOf at h
  split at h
  · cases h
  · cases h
  · rename_i l r hl hr
    split at h
    · rename_i sum hsum
      cases h
      exact ⟨l, r, hl, hr, hsum⟩
    · cases h

/-- Let the writer record a step, and remember its constraint. -/
def recordKnown (kind : StepKind) (c : Constraint) (hints : List StepId) :
    EStateM DerivationError Derivation StepId := do
  let id ← onWriter (Writer.record kind c hints)
  keep c
  return id

theorem add_of_sumOf_error (h : d.sumOf left right = .error e) : add left right d = .error e d := by
  unfold sumOf at h
  split at h
  · rename_i hl
    cases h
    exact bind_of_error (constraint_of_none hl)
  · rename_i l hl hr
    cases h
    exact (bind_of_ok (constraint_of_some hl)).trans (bind_of_error (constraint_of_none hr))
  · rename_i l r hl hr
    split at h
    · cases h
    · rename_i hsum
      cases h
      rw [add, bind_of_ok (constraint_of_some hl), bind_of_ok (constraint_of_some hr), hsum]
      rfl

theorem add_of_sumOf_ok (h : d.sumOf left right = .ok c) :
    add left right d = recordKnown .derived c [left, right]
      { d with writer := d.writer.note (.adding left right c) } := by
  obtain ⟨l, r, hl, hr, hsum⟩ := sumOf_eq_ok h
  rw [add, bind_of_ok (constraint_of_some hl), bind_of_ok (constraint_of_some hr), hsum]
  rfl

theorem onWriter_of_error {α : Type} {act : EStateM WriteError Writer α} {e : WriteError}
    {w : Writer} (h : act d.writer = .error e w) :
    onWriter act d = .error (.write e) { d with writer := w } := by
  simp only [onWriter, h]

theorem recordKnown_of_ok {kind : StepKind} {hints : List StepId} {id : StepId}
    (h : Writer.record kind c hints d.writer = .ok id w) :
    recordKnown kind c hints d = .ok id ⟨w, d.first, d.known.push c⟩ :=
  bind_of_ok (onWriter_of_ok h)

theorem recordKnown_of_error {kind : StepKind} {hints : List StepId} {e : WriteError}
    (h : Writer.record kind c hints d.writer = .error e w) :
    recordKnown kind c hints d = .error (.write e) { d with writer := w } :=
  bind_of_error (onWriter_of_error h)

/-! ## Requests as operations -/

/-- What the writer is asked for when two steps are added. -/
def addOps (d : Derivation) (left right : StepId) : List Operation :=
  match d.sumOf left right with
  | .ok c => [.derived c [left, right]]
  | .error _ => []

/-- What the writer is asked for when the steps of a queue are summed. -/
def sumOps (d : Derivation) : List StepId → List Operation
  | [] => []
  | [_] => []
  | left :: right :: queue =>
    d.addOps left right ++
      match add left right d with
      | .ok step d => sumOps d (queue ++ [step])
      | .error _ _ => []
termination_by queue => queue.length

/-- What a request asks of the writer. -/
def opsOf (d : Derivation) : Request → List Operation
  | .input c => [.input c]
  | .add left right => d.addOps left right
  | .sum queue => d.sumOps queue
  | .comment text => [.comment text]

/-- What the requests of a run ask of the writer. -/
def opsOfAll (d : Derivation) : List Request → List Operation
  | [] => []
  | request :: requests =>
    d.opsOf request ++
      match perform request d with
      | .ok _ d => opsOfAll d requests
      | .error _ d => opsOfAll d requests

/-! ## The writer and what is known -/

/-- The step is the sum of the two known steps that it names as hints. -/
def IsSum (d : Derivation) (s : Step) : Prop :=
  ∃ left right l r, s.hints = [left, right] ∧ d.constraint? left = some l ∧
    d.constraint? right = some r ∧ l.add r = .ok s.constraint

/-- The derivation was started on the writer `w` and has asked the given operations of it. -/
structure HasAsked (w : Writer) (ops : List Operation) (d : Derivation) : Prop where
  writer_agrees : d.writer.Agrees (w.runAll ops).2
  first_eq : d.first = w.next
  known_eq : d.known.toList = (stepsOf (w.runAll ops).1).map Step.constraint
  numbered : NumberedFrom w.next.index (stepsOf (w.runAll ops).1)
  next_eq : d.writer.next.index = w.next.index + (stepsOf (w.runAll ops).1).length
  sums : ∀ s ∈ stepsOf (w.runAll ops).1, s.kind = .derived → d.IsSum s

theorem hasAsked_start (w : Writer) : HasAsked w [] (start w) where
  writer_agrees := .refl w
  first_eq := rfl
  known_eq := rfl
  numbered := rfl
  next_eq := rfl
  sums := nofun

/-- The known constraints are those of the steps that were recorded in the run. -/
theorem HasAsked.constraint?_eq_some_iff (h : HasAsked w ops d) {id : StepId} :
    d.constraint? id = some c ↔
      ∃ s ∈ stepsOf (w.runAll ops).1, s.id = id ∧ s.constraint = c := by
  rw [constraint?, Option.ite_none_right_eq_some, ← Array.getElem?_toList, h.known_eq,
    List.getElem?_map, Option.map_eq_some_iff, h.first_eq, StepId.le_def]
  constructor
  · rintro ⟨hle, s, hs, rfl⟩
    refine ⟨s, List.mem_of_getElem? hs, ?_, rfl⟩
    rw [h.numbered.id_eq hs, Nat.add_sub_cancel' hle]
  · rintro ⟨s, hs, rfl, rfl⟩
    obtain ⟨k, hk⟩ := List.mem_iff_getElem?.mp hs
    rw [h.numbered.id_eq hk]
    exact ⟨Nat.le_add_right _ _, s, by rwa [Nat.add_sub_cancel_left], rfl⟩

theorem HasAsked.exists_constraint?_iff (h : HasAsked w ops d) {id : StepId} :
    (∃ c, d.constraint? id = some c) ↔ w.next ≤ id ∧ id.index < d.writer.next.index := by
  rw [h.next_eq, StepId.le_def]
  constructor
  · rintro ⟨c, hc⟩
    obtain ⟨s, hs, rfl, -⟩ := h.constraint?_eq_some_iff.mp hc
    obtain ⟨k, hk⟩ := List.mem_iff_getElem?.mp hs
    have hlt := (List.getElem?_eq_some_iff.mp hk).1
    rw [h.numbered.id_eq hk]
    exact ⟨Nat.le_add_right _ _, Nat.add_lt_add_left hlt _⟩
  · rintro ⟨hle, hlt⟩
    have hk : id.index - w.next.index < (stepsOf (w.runAll ops).1).length := by omega
    refine ⟨_, h.constraint?_eq_some_iff.mpr ⟨_, List.getElem_mem hk, ?_, rfl⟩⟩
    rw [h.numbered.id_eq (List.getElem?_eq_getElem hk), Nat.add_sub_cancel' hle]

/-- What is noted is in nobody's way. -/
theorem HasAsked.note (h : HasAsked w ops d) (event : Event) :
    HasAsked w ops { d with writer := d.writer.note event } :=
  ⟨h.writer_agrees.note event, h.first_eq, h.known_eq, h.numbered, h.next_eq, h.sums⟩

/-- What is known stays known under its number. -/
theorem constraint?_push {id : StepId} (h : d.constraint? id = some c) (w' : Writer)
    (c' : Constraint) : (⟨w', d.first, d.known.push c'⟩ : Derivation).constraint? id = some c := by
  rw [constraint?, Option.ite_none_right_eq_some] at h ⊢
  obtain ⟨hle, hknown⟩ := h
  have hlt := (Array.getElem?_eq_some_iff.mp hknown).1
  exact ⟨hle, by rw [Array.getElem?_push_lt hlt, ← hknown, Array.getElem?_eq_getElem hlt]⟩

theorem IsSum.push {s : Step} (h : d.IsSum s) (w' : Writer) (c' : Constraint) :
    (⟨w', d.first, d.known.push c'⟩ : Derivation).IsSum s := by
  obtain ⟨left, right, l, r, hhints, hl, hr, hsum⟩ := h
  exact ⟨left, right, l, r, hhints, constraint?_push hl w' c', constraint?_push hr w' c', hsum⟩

section OneOperation

variable {op : Operation} {w' : Writer}

/-- An operation that records no step. -/
theorem HasAsked.skip (h : HasAsked w ops d)
    (hrecord : stepsOf (d.writer.call op).record?.toList = [])
    (hafter : (d.writer.call op).after = w') (hnext : w'.next = d.writer.next) :
    HasAsked w (ops ++ [op]) { d with writer := w' } := by
  obtain ⟨hanswer, hagrees⟩ := h.writer_agrees.call op
  rw [Call.record?, hanswer, ← Call.record?] at hrecord
  rw [hafter] at hagrees
  have hsteps : stepsOf (w.runAll (ops ++ [op])).1 = stepsOf (w.runAll ops).1 := by
    rw [runAll_concat, stepsOf_append, hrecord, List.append_nil]
  refine ⟨?_, h.first_eq, ?_, ?_, ?_, ?_⟩
  · rw [runAll_concat]
    exact hagrees
  · rw [hsteps]
    exact h.known_eq
  · rw [hsteps]
    exact h.numbered
  · rw [hsteps, ← h.next_eq]
    exact congrArg StepId.index hnext
  · rw [hsteps]
    exact h.sums

/-- An operation that records a step. -/
theorem HasAsked.step (h : HasAsked w ops d) {s : Step} (hid : s.id = d.writer.next)
    (hperform : op.perform d.writer = .ok (some (.step s)) w')
    (hnext : w'.next = d.writer.next.next) (hsum : s.kind = .derived → d.IsSum s) :
    HasAsked w (ops ++ [op]) ⟨w', d.first, d.known.push s.constraint⟩ := by
  obtain ⟨hanswer, hagrees⟩ := h.writer_agrees.call op
  rw [call_of_ok hperform] at hanswer hagrees
  have hrecord : ((w.runAll ops).2.call op).record? = some (.step s) := by
    rw [Call.record?, ← hanswer]
    rfl
  have hsteps : stepsOf (w.runAll (ops ++ [op])).1 = stepsOf (w.runAll ops).1 ++ [s] := by
    rw [runAll_concat, stepsOf_append, hrecord]
    rfl
  refine ⟨?_, h.first_eq, ?_, ?_, ?_, ?_⟩
  · rw [runAll_concat]
    exact hagrees
  · rw [hsteps, Array.toList_push, h.known_eq, List.map_append]
    rfl
  · rw [hsteps, numberedFrom_append]
    refine ⟨h.numbered, numberedFrom_cons.mpr ⟨?_, numberedFrom_nil _⟩⟩
    rw [hid, h.next_eq]
  · rw [hsteps, List.length_append, ← Nat.add_assoc, ← h.next_eq, hnext]
    rfl
  · rw [hsteps]
    intro t ht hkind
    rcases List.mem_append.mp ht with ht | ht
    · exact (h.sums t ht hkind).push w' s.constraint
    · obtain rfl := List.mem_singleton.mp ht
      exact (hsum hkind).push w' t.constraint

end OneOperation

/-! ## Requests -/

theorem HasAsked.skip_of_error (h : HasAsked w ops d) {op : Operation} {e : WriteError}
    {o : Outlet} (hperform : op.perform d.writer = .error e (d.writer.withOutlet o)) :
    HasAsked w (ops ++ [op]) { d with writer := d.writer.withOutlet o } :=
  h.skip (by rw [call_of_error hperform]; rfl) (by rw [call_of_error hperform]) rfl

theorem HasAsked.recordKnown (h : HasAsked w ops d) {op : Operation} {kind : StepKind}
    {hints : List StepId}
    (hop : op.perform = do
      let id ← Writer.record kind c hints
      return some (.step ⟨id, kind, c, hints⟩))
    (hsum : kind = .derived → d.IsSum ⟨d.writer.next, kind, c, hints⟩) :
    Leaves (recordKnown kind c hints) d (HasAsked w (ops ++ [op])) := by
  obtain ⟨o, hrecord⟩ | ⟨e, o, hrecord, -⟩ := record_cases d.writer kind c hints
  · rw [leaves_of_ok (recordKnown_of_ok hrecord)]
    refine h.step (s := ⟨d.writer.next, kind, c, hints⟩) rfl ?_ rfl hsum
    rw [hop, bind_of_ok hrecord]
    rfl
  · rw [leaves_of_error (recordKnown_of_error hrecord)]
    refine h.skip_of_error (e := e) ?_
    rw [hop, bind_of_error hrecord]

theorem HasAsked.input (h : HasAsked w ops d) (c : Constraint) :
    Leaves (input c) d (HasAsked w (ops ++ [.input c])) :=
  h.recordKnown rfl nofun

theorem HasAsked.add (h : HasAsked w ops d) (left right : StepId) :
    Leaves (add left right) d (HasAsked w (ops ++ d.addOps left right)) := by
  cases hsumOf : d.sumOf left right with
  | error e =>
    rw [leaves_of_error (add_of_sumOf_error hsumOf), addOps, hsumOf, List.append_nil]
    exact h
  | ok c =>
    obtain ⟨l, r, hl, hr, hsum⟩ := sumOf_eq_ok hsumOf
    have hop : (Operation.derived c [left, right]).perform = do
        let id ← Writer.record .derived c [left, right]
        return some (.step ⟨id, .derived, c, [left, right]⟩) := rfl
    have hleaves := (h.note (.adding left right c)).recordKnown hop
      fun _ => ⟨left, right, l, r, rfl, hl, hr, hsum⟩
    rw [Leaves, add_of_sumOf_ok hsumOf, addOps, hsumOf]
    exact hleaves

theorem HasAsked.comment (h : HasAsked w ops d) (text : String) :
    Leaves (comment text) d (HasAsked w (ops ++ [.comment text])) := by
  have hop : (Operation.comment text).perform = do
      Writer.comment text
      return some (.comment text) := rfl
  obtain ⟨o, hcomment⟩ | ⟨e, o, hcomment, -⟩ := comment_cases d.writer text
  · have hperform : (Operation.comment text).perform d.writer =
        .ok (some (.comment text)) ((d.writer.withOutlet o).numberRecord (.comment text)) := by
      rw [hop, bind_of_ok hcomment]
      rfl
    rw [Derivation.comment, leaves_of_ok (onWriter_of_ok hcomment)]
    exact h.skip (by rw [call_of_ok hperform]; rfl) (by rw [call_of_ok hperform]) rfl
  · rw [Derivation.comment, leaves_of_error (onWriter_of_error hcomment)]
    refine h.skip_of_error (e := e) ?_
    rw [hop, bind_of_error hcomment]

theorem HasAsked.sum (h : HasAsked w ops d) (queue : List StepId) :
    Leaves (sum queue) d (HasAsked w (ops ++ d.sumOps queue)) := by
  fun_induction Derivation.sum queue generalizing d ops with
  | case1 =>
    rw [sumOps, List.append_nil]
    exact h
  | case2 step =>
    rw [sumOps, List.append_nil]
    exact h
  | case3 left right queue ih =>
    have hadd := h.add left right
    rw [sumOps]
    cases hrun : Derivation.add left right d with
    | ok step d' =>
      rw [leaves_of_ok hrun] at hadd
      have hrest := ih step hadd
      rw [List.append_assoc] at hrest
      rw [Leaves, bind_of_ok hrun]
      exact hrest
    | error e d' =>
      rw [leaves_of_error hrun] at hadd
      rw [leaves_of_error (bind_of_error hrun)]
      simpa using hadd

theorem leaves_discard {α : Type} {act : EStateM DerivationError Derivation α}
    {P : Derivation → Prop} (h : Leaves act d P) : Leaves (discard act) d P := by
  have hdiscard : discard act = act >>= fun _ => pure () := rfl
  rw [hdiscard]
  cases hrun : act d with
  | ok a d' =>
    rw [leaves_of_ok hrun] at h
    rw [Leaves, bind_of_ok hrun]
    exact h
  | error e d' =>
    rw [leaves_of_error hrun] at h
    exact (leaves_of_error (bind_of_error hrun)).mpr h

theorem HasAsked.perform (h : HasAsked w ops d) (request : Request) :
    Leaves (perform request) d (HasAsked w (ops ++ d.opsOf request)) := by
  cases request with
  | input c => exact leaves_discard (h.input c)
  | add left right => exact leaves_discard (h.add left right)
  | sum queue => exact leaves_discard (h.sum queue)
  | comment text => exact h.comment text

theorem HasAsked.runAll (h : HasAsked w ops d) (requests : List Request) :
    HasAsked w (ops ++ d.opsOfAll requests) (d.runAll requests) := by
  induction requests generalizing d ops with
  | nil =>
    rw [opsOfAll, List.append_nil]
    exact h
  | cons request requests ih =>
    have hfirst := h.perform request
    rw [Derivation.runAll, opsOfAll, ← List.append_assoc]
    cases hrun : Derivation.perform request d with
    | ok _ d' => exact ih ((leaves_of_ok hrun).mp hfirst)
    | error e d' => exact ih ((leaves_of_error hrun).mp hfirst)

theorem hasAsked_runAll (w : Writer) (requests : List Request) :
    HasAsked w ((start w).opsOfAll requests) ((start w).runAll requests) :=
  (hasAsked_start w).runAll requests

end Derivation

end CuttingPlanes
