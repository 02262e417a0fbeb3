import CuttingPlanes.Proofs.Stream.Lines
import CuttingPlanes.Proofs.Trace.Reading

/-!
# How a reader numbers steps

A step that is delivered has the number that the reader had reached, and only such a step
is counted: neither a comment nor an error has a number. So all the steps that a reader
delivers are numbered one after the other, also when reading goes on behind errors
(`numberedFrom_delivered`).
-/

namespace CuttingPlanes

/-- The steps are numbered one after the other. -/
def NumberedFrom (n : Nat) (ss : List Step) : Prop :=
  ss.map (·.id.index) = List.range' n ss.length

section NumberedFrom

variable {n : Nat} {s : Step} {ss ts : List Step}

theorem numberedFrom_nil (n : Nat) : NumberedFrom n [] := rfl

theorem numberedFrom_cons :
    NumberedFrom n (s :: ss) ↔ s.id.index = n ∧ NumberedFrom (n + 1) ss := by
  rw [NumberedFrom, List.map_cons, List.length_cons, List.range'_succ, List.cons.injEq]
  rfl

theorem numberedFrom_append :
    NumberedFrom n (ss ++ ts) ↔ NumberedFrom n ss ∧ NumberedFrom (n + ss.length) ts := by
  induction ss generalizing n with
  | nil => exact ⟨fun h => ⟨rfl, h⟩, fun h => h.2⟩
  | cons s ss ih =>
    rw [List.cons_append, numberedFrom_cons, ih, numberedFrom_cons, and_assoc, List.length_cons,
      Nat.add_assoc, Nat.add_comm 1]

theorem NumberedFrom.id_eq (h : NumberedFrom n ss) {k : Nat} (hs : ss[k]? = some s) :
    s.id = ⟨n + k⟩ := by
  have hlt : k < ss.length := (List.getElem?_eq_some_iff.mp hs).1
  have hindex := congrArg (·[k]?) h
  rw [List.getElem?_map, hs, List.getElem?_range' hlt, Nat.one_mul] at hindex
  exact congrArg StepId.mk (Option.some.inj hindex)

theorem NumberedFrom.numbers_eq (h : NumberedFrom n ss) :
    ss.map (·.id.number) = List.range' (n + 1) ss.length := by
  induction ss generalizing n with
  | nil => rfl
  | cons s ss ih =>
    obtain ⟨hid, hrest⟩ := numberedFrom_cons.mp h
    rw [List.map_cons, List.length_cons, List.range'_succ, ih hrest, StepId.number, hid]

theorem NumberedFrom.le_index (h : NumberedFrom n ss) {id : StepId} (hid : id ∈ ss.map Step.id) :
    n ≤ id.index := by
  have hmem : id.index ∈ ss.map (·.id.index) := by
    obtain ⟨s, hs, rfl⟩ := List.mem_map.mp hid
    exact List.mem_map_of_mem hs
  rw [h, List.mem_range'_1] at hmem
  exact hmem.1

theorem NumberedFrom.nodup (h : NumberedFrom n ss) : (ss.map Step.id).Nodup := by
  refine List.Nodup.of_map StepId.index ?_
  rw [List.map_map]
  exact h ▸ List.nodup_range'

end NumberedFrom

namespace Reader

open Source

variable {r r' : Reader}

/-! ## One record -/

/-- The numbers in what a call has answered, and the number that the reader has reached. -/
def NumbersFrom (next : StepId) : EStateM.Result ReadError Reader (Option Record) → Prop
  | .ok none r => r.next = next
  | .ok (some record) r => (∀ s, record = .step s → s.id = next) ∧ r.next = record.nextBehind next
  | .error _ r => r.next = next

theorem numbersFrom_deliver (r : Reader) (entry : Trace.Entry) :
    NumbersFrom r.next (r.deliver entry) := by
  cases entry with
  | comment text => exact ⟨nofun, rfl⟩
  | step kind c hints =>
    refine ⟨?_, rfl⟩
    rintro s ⟨⟩
    rfl

theorem numbersFrom_nextText (r : Reader) : NumbersFrom r.next (nextText r) := by
  fun_induction nextText r with
  | case1 => rfl
  | case2 => rfl
  | case3 => rfl
  | case4 => rfl
  | case5 r bytes source _ line _ _ ih => exact ih
  | case6 r bytes source _ line _ entry _ => exact numbersFrom_deliver (r.took source) entry

theorem numbersFrom_nextBinary (r : Reader) : NumbersFrom r.next (nextBinary r) := by
  unfold nextBinary
  split
  · rfl
  · rfl
  · split
    · rfl
    · exact numbersFrom_deliver (r.took _) _

theorem numbersFrom_nextRecord (r : Reader) : NumbersFrom r.next (nextRecord r) := by
  unfold nextRecord
  split
  · exact numbersFrom_nextText r
  · exact numbersFrom_nextBinary r

theorem next_of_record {record : Record} (h : nextRecord r = .ok (some record) r') :
    (∀ s, record = .step s → s.id = r.next) ∧ r'.next = record.nextBehind r.next := by
  have hnumbers := numbersFrom_nextRecord r
  rwa [h] at hnumbers

theorem next_of_error {e : ReadError} (h : nextRecord r = .error e r') : r'.next = r.next := by
  have hnumbers := numbersFrom_nextRecord r
  rwa [h] at hnumbers

/-! ## One step -/

theorem next_of_step {s : Step} (h : nextStep r = .ok (some s) r') :
    s.id = r.next ∧ r'.next = r.next.next := by
  fun_induction nextStep r with
  | case1 => cases h
  | case2 => cases h
  | case3 r text r'' hnext ih =>
    have hr : r''.next = r.next := (next_of_record hnext).2
    rw [← hr]
    exact ih h
  | case4 r s' r'' hnext =>
    obtain ⟨hid, hr⟩ := next_of_record hnext
    cases h
    exact ⟨hid s rfl, hr⟩

theorem next_of_nextStep_error {e : ReadError} (h : nextStep r = .error e r') :
    r'.next = r.next := by
  fun_induction nextStep r with
  | case1 r e' r'' hnext =>
    cases h
    exact next_of_error hnext
  | case2 => cases h
  | case3 r text r'' hnext ih => exact (ih h).trans (next_of_record hnext).2
  | case4 => cases h

/-! ## All steps -/

theorem length_rest_of_nextText_error {e : ReadError} (h : nextText r = .error e r')
    (hne : r'.source.rest ≠ []) : r'.source.rest.length < r.source.rest.length := by
  fun_induction nextText r with
  | case1 r fault source hline =>
    cases h
    exact absurd (rest_eq_nil_of_line?_error hline) hne
  | case2 => cases h
  | case3 r bytes source hline =>
    cases h
    exact length_rest_of_line?_some hline
  | case4 r bytes source hline =>
    cases h
    exact length_rest_of_line?_some hline
  | case5 r bytes source hline line _ _ ih =>
    exact Nat.lt_trans (ih h) (length_rest_of_line?_some hline)
  | case6 r bytes source _ line _ entry _ => cases entry <;> cases h

theorem length_rest_of_nextBinary_error {e : ReadError} (h : nextBinary r = .error e r')
    (hne : r'.source.rest ≠ []) : r'.source.rest.length < r.source.rest.length := by
  unfold nextBinary at h
  split at h
  · rename_i hbyte
    cases h
    exact absurd (rest_eq_nil_of_byte?_error hbyte) hne
  · cases h
  · rename_i code source hbyte
    split at h
    · rename_i e' source' hentry
      cases h
      exact Nat.lt_of_le_of_lt ((Trace.Binary.advancing_entry code).error hentry).length_le
        (length_rest_of_byte?_some hbyte)
    · rename_i entry source' _
      cases entry <;> cases h

/-- An error that leaves something in the source has taken something from it. -/
theorem length_rest_of_nextRecord_error {e : ReadError} (h : nextRecord r = .error e r')
    (hne : r'.source.rest ≠ []) : r'.source.rest.length < r.source.rest.length := by
  unfold nextRecord at h
  split at h
  · exact length_rest_of_nextText_error h hne
  · exact length_rest_of_nextBinary_error h hne

theorem length_rest_of_nextStep_error {e : ReadError} (h : nextStep r = .error e r')
    (hne : r'.source.rest ≠ []) : r'.source.rest.length < r.source.rest.length := by
  fun_induction nextStep r with
  | case1 r e' r'' hnext =>
    cases h
    exact length_rest_of_nextRecord_error hnext hne
  | case2 => cases h
  | case3 r text r'' hnext ih => exact Nat.lt_trans (ih h) (length_rest_of_nextRecord hnext)
  | case4 => cases h

/-- The steps that a reader delivers when reading goes on behind errors, up to the end of
the trace or an error behind which the source is exhausted. -/
def delivered (r : Reader) : List Step :=
  match _h : r.nextStep with
  | .ok none _ => []
  | .ok (some s) r' => s :: delivered r'
  | .error _ r' => if _hnil : r'.source.rest = [] then [] else delivered r'
termination_by r.source.rest.length
decreasing_by
  · exact length_rest_of_nextStep _h
  · exact length_rest_of_nextStep_error _h _hnil

theorem delivered_of_end (h : r.nextStep = .ok none r') : r.delivered = [] := by
  rw [delivered]
  split <;> simp_all

theorem delivered_of_step {s : Step} (h : r.nextStep = .ok (some s) r') :
    r.delivered = s :: r'.delivered := by
  rw [delivered]
  split <;> simp_all

theorem delivered_of_nil (hnil : r.source.rest = []) : r.delivered = [] := by
  cases h : r.nextStep with
  | ok s? r' =>
    cases s? with
    | none => exact delivered_of_end h
    | some s =>
      have hlt := length_rest_of_nextStep h
      rw [hnil] at hlt
      exact absurd hlt (Nat.not_lt_zero _)
  | error e r' =>
    have hnil' : r'.source.rest = [] := by
      by_contra hne
      have hlt := length_rest_of_nextStep_error h hne
      rw [hnil] at hlt
      exact absurd hlt (Nat.not_lt_zero _)
    rw [delivered]
    split <;> simp_all

theorem delivered_of_error {e : ReadError} (h : r.nextStep = .error e r') :
    r.delivered = r'.delivered := by
  rw [delivered]
  split <;> rename_i heq <;> rw [h] at heq <;> cases heq
  split
  · rename_i hnil
    exact (delivered_of_nil hnil).symm
  · rfl

theorem delivered_congr {q : Reader} (h : r.nextStep = q.nextStep) :
    r.delivered = q.delivered := by
  cases hq : q.nextStep with
  | error e q' => rw [delivered_of_error hq, delivered_of_error (h.trans hq)]
  | ok s? q' =>
    cases s? with
    | none => rw [delivered_of_end hq, delivered_of_end (h.trans hq)]
    | some s => rw [delivered_of_step hq, delivered_of_step (h.trans hq)]

theorem numberedFrom_delivered (r : Reader) : NumberedFrom r.next.index r.delivered := by
  fun_induction delivered r with
  | case1 => rfl
  | case2 r s r' h ih =>
    obtain ⟨hid, hnext⟩ := next_of_step h
    rw [hnext] at ih
    exact numberedFrom_cons.mpr ⟨congrArg StepId.index hid, ih⟩
  | case3 => rfl
  | case4 r e r' h hnil ih =>
    rw [next_of_nextStep_error h] at ih
    exact ih

end Reader

end CuttingPlanes
