import CuttingPlanes.Proofs.Stream.Relaying
import CuttingPlanes.Trace.Binary.Parser

/-!
# Binary records from a source that fails early

Whatever part of a record is being read when the source fails, an integer, a code or the
text of a comment, the failure is relayed (`relays_entry`). It is neither taken for the end
of the source nor for a defect of the record.
-/

namespace CuttingPlanes

open Source

namespace Varint

/-- What is read behind a byte of an integer, or behind the last byte of the source. -/
def readBehind (start : Nat) (taken : Taken) : Option UInt8 → EStateM StreamError Source Int64
  | none => throw (.malformed ⟨.truncated, start⟩)
  | some b =>
    match taken.push b with
    | .more taken => readFrom start taken
    | .done v => pure v
    | .defective defect => throw (.malformed ⟨defect, start⟩)

theorem readFrom_eq_bind (start : Nat) (taken : Taken) :
    readFrom start taken =
      EStateM.adaptExcept StreamError.source byte? >>= readBehind start taken := by
  funext s
  rw [readFrom]
  show _ = EStateM.bind _ _ s
  simp only [EStateM.bind, EStateM.adaptExcept]
  split <;> rename_i heq <;> rw [heq]
  · rfl
  · simp only [readBehind]
    split <;> rename_i hpush <;> rw [hpush] <;> rfl

/-- An integer goes on behind at most ten bytes. -/
theorem count_of_push_more {taken taken' : Taken} {b : UInt8} (h : taken.push b = .more taken') :
    taken.count < 10 ∧ taken'.count = taken.count + 1 := by
  unfold Taken.push at h
  split at h
  · cases h
  · rename_i hcount
    dsimp only at h
    split at h
    · cases h
      exact ⟨Nat.lt_of_not_le hcount, rfl⟩
    · split at h
      · cases h
      · split at h <;> cases h

theorem relays_readFrom (start : Nat) (taken : Taken) :
    Relays StreamError.source (readFrom start taken) := by
  induction hleft : 10 - taken.count using Nat.strongRecOn generalizing taken with
  | _ left ih =>
    rw [readFrom_eq_bind]
    refine .bind (relays_byte?.adaptExcept StreamError.source) fun b => ?_
    cases b with
    | none => exact .throw _
    | some b =>
      cases hpush : taken.push b with
      | more taken' =>
        have hcount := count_of_push_more hpush
        simp only [readBehind, hpush]
        exact ih _ (by omega) taken' rfl
      | done v =>
        simp only [readBehind, hpush]
        exact .pure v
      | defective defect =>
        simp only [readBehind, hpush]
        exact .throw _

/-- An integer that is there, or whose absence is a failure, is read byte by byte. -/
theorem read?_eq_bind {s : Source} (h : ¬(s.rest = [] ∧ s.failure = none)) :
    read? s = EStateM.bind (readFrom s.position .nothing) (fun v => pure (some v)) s := by
  have hcond : ¬(s.rest.isEmpty ∧ s.failure.isNone) := by
    rwa [List.isEmpty_iff, Option.isNone_iff_eq_none]
  rw [read?, if_neg hcond]
  simp only [EStateM.bind]
  cases readFrom s.position .nothing s <;> rfl

theorem relays_read? : Relays StreamError.source read? where
  advancing := advancing_read?
  relayed := by
    intro missing fault s t hcut
    have ht : ¬(t.rest = [] ∧ t.failure = none) := by
      rw [hcut.fault_eq]
      exact fun h => nomatch h.2
    by_cases hs : s.rest = []
    · -- the end of the complete source is where the other one fails
      have hnil : t.rest = [] := (List.append_eq_nil_iff.mp (hcut.rest_eq.symm.trans hs)).1
      have hend : read? s = .ok none s := by
        rw [read?, if_pos ⟨List.isEmpty_iff.mpr hs, Option.isNone_iff_eq_none.mpr hcut.failure_eq⟩]
      have hbyte : EStateM.adaptExcept StreamError.source byte? t =
          .error (.source fault) t.exhausted := by
        simp only [EStateM.adaptExcept, byte?, hnil, atEnd, hcut.fault_eq]
      have hfails : readFrom t.position .nothing t = .error (.source fault) t.exhausted := by
        rw [readFrom_eq_bind, Actions.bind_of_error hbyte]
      rw [hend, read?_eq_bind ht]
      simp only [EStateM.bind, hfails]
      exact .fault (Or.inr hs) hcut.exhausted
    · rw [read?_eq_bind ht, read?_eq_bind (fun h => hs h.1), hcut.position_eq]
      exact (Relays.bind (relays_readFrom _ _) fun v => .pure (some v)).relayed hcut

end Varint

namespace Trace.Binary

/-! ## Parts -/

theorem relays_require {α : Type} (reason : Malformation) (a : Option α) :
    Relays Failure.fault (require reason a) := by
  cases a with
  | none => exact .throw _
  | some a => exact .pure a

theorem relays_ofExcept {α : Type} (x : Except Malformation α) :
    Relays Failure.fault (ofExcept x) := by
  cases x with
  | error reason => exact .throw _
  | ok a => exact .pure a

theorem relays_onSource {α : Type} {act : EStateM Fault Source α} (h : Relays id act) :
    Relays Failure.fault (onSource act) := h.adaptExcept Failure.fault

theorem relays_int : Relays Failure.fault int :=
  .bind (Varint.relays_read?.adaptExcept Failure.ofStreamError) fun _ => relays_require _ _

theorem relays_length : Relays Failure.fault length := by
  refine .bind relays_int fun v => ?_
  split
  · exact .throw _
  · exact .pure _

theorem relays_term : Relays Failure.fault term :=
  .bind relays_int fun _ => .bind relays_int fun _ =>
    .bind (relays_require _ _) fun _ => .pure _

theorem relays_hint : Relays Failure.fault hint := .bind relays_int fun _ => relays_require _ _

theorem relays_repeated {α : Type} {item : Parser α} (h : Relays Failure.fault item)
    (count : Nat) : Relays Failure.fault (repeated item count) := by
  induction count with
  | zero => exact .pure _
  | succ count ih => exact .bind h fun _ => .bind ih fun _ => .pure _

/-! ## Records -/

theorem relays_step (kind : StepKind) : Relays Failure.fault (step kind) :=
  .bind (relays_onSource relays_byte) fun _ => .bind (relays_require _ _) fun _ =>
    .bind relays_length fun _ => .bind (relays_repeated relays_term _) fun _ =>
    .bind relays_int fun _ => .bind relays_length fun _ =>
    .bind (relays_repeated relays_hint _) fun _ => relays_ofExcept _

theorem relays_comment : Relays Failure.fault comment := by
  refine .bind relays_length fun count => .bind (relays_onSource (relays_upTo _)) fun body => ?_
  split
  · exact .throw _
  · exact .bind (relays_require _ _) fun _ => .pure _

theorem relays_entry (code : UInt8) : Relays Failure.fault (entry code) := by
  unfold entry
  split
  · exact relays_comment
  · split
    · exact relays_step _
    · exact .throw _

end Trace.Binary

end CuttingPlanes
