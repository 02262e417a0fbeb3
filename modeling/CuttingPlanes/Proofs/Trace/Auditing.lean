import CuttingPlanes.Proofs.Trace.Numbering

/-!
# What becomes of submitted steps

A checker judges the steps that are submitted to it one after the other, also behind one
that it refuses. Auditing a trace is judging the steps among its records (`audit_eq`). If
the steps are numbered one after the other, the first refusal decides about all the steps
behind it: each of them is out of order, and the checker stays as it is (`judgeAll_cases`).
-/

namespace CuttingPlanes

/-- What is delivered up to the first error comes first of all that is delivered. -/
theorem Reader.exists_delivered_eq (r : Reader) :
    ∃ later, r.delivered = stepsOf r.records.1 ++ later ∧ (r.records.2 = none → later = []) := by
  fun_induction Reader.records r with
  | case1 r e r' h => exact ⟨r.delivered, rfl, fun hend => absurd hend (Option.some_ne_none e)⟩
  | case2 r r' h => exact ⟨[], delivered_of_end (nextStep_of_end h), fun _ => rfl⟩
  | case3 r record r' h ih =>
    obtain ⟨later, hlater, hend⟩ := ih
    cases record with
    | comment text =>
      rw [delivered_congr (nextStep_of_comment h)]
      exact ⟨later, hlater, hend⟩
    | step s =>
      rw [delivered_of_step (nextStep_of_step h), hlater]
      exact ⟨later, rfl, hend⟩

namespace Checker

variable {c d : Checker} {s : Step} {ss ts : List Step} {e : StepError} {r r' : Reader}

/-- The verdicts on steps that are submitted one after the other. -/
def judgeAll (c : Checker) : List Step → List Verdict
  | [] => []
  | s :: ss => c.judge s :: (c.judge s).checker.judgeAll ss

theorem judge_of_ok (h : c.check s = .ok d) : c.judge s = ⟨none, d⟩ := by
  rw [judge, h]

theorem judge_of_error (h : c.check s = .error e) : c.judge s = ⟨some e, c⟩ := by
  rw [judge, h]

theorem judgeAll_of_ok (h : c.check s = .ok d) (ss : List Step) :
    c.judgeAll (s :: ss) = ⟨none, d⟩ :: d.judgeAll ss := by
  rw [judgeAll, judge_of_ok h]

theorem judgeAll_of_error (h : c.check s = .error e) (ss : List Step) :
    c.judgeAll (s :: ss) = ⟨some e, c⟩ :: c.judgeAll ss := by
  rw [judgeAll, judge_of_error h]

theorem length_judgeAll (c : Checker) (ss : List Step) : (c.judgeAll ss).length = ss.length := by
  induction ss generalizing c with
  | nil => rfl
  | cons s ss ih => rw [judgeAll, List.length_cons, ih, List.length_cons]

theorem judgeAll_append (c : Checker) (ss ts : List Step) :
    ∃ d : Checker, c.judgeAll (ss ++ ts) = c.judgeAll ss ++ d.judgeAll ts := by
  induction ss generalizing c with
  | nil => exact ⟨c, rfl⟩
  | cons s ss ih =>
    obtain ⟨d, hd⟩ := ih (c.judge s).checker
    exact ⟨d, by rw [List.cons_append, judgeAll, hd, judgeAll, List.cons_append]⟩

/-! ## Auditing -/

theorem audit_of_error {e : ReadError} (h : r.nextStep = .error e r') :
    c.audit r = ([], some e) := by
  rw [audit]
  split <;> simp_all

theorem audit_of_end (h : r.nextStep = .ok none r') : c.audit r = ([], none) := by
  rw [audit]
  split <;> simp_all

theorem audit_of_step (h : r.nextStep = .ok (some s) r') :
    c.audit r = (c.judge s :: ((c.judge s).checker.audit r').1,
      ((c.judge s).checker.audit r').2) := by
  rw [audit]
  split <;> rename_i heq <;> rw [h] at heq <;> cases heq
  rfl

theorem audit_congr {q : Reader} (h : r.nextStep = q.nextStep) : c.audit r = c.audit q := by
  cases hq : q.nextStep with
  | error e q' => rw [audit_of_error hq, audit_of_error (h.trans hq)]
  | ok s? q' =>
    cases s? with
    | none => rw [audit_of_end hq, audit_of_end (h.trans hq)]
    | some s => rw [audit_of_step hq, audit_of_step (h.trans hq)]

/-- Auditing a trace is judging its steps; the error of the reader comes on top. -/
theorem audit_eq (c : Checker) (r : Reader) :
    c.audit r = (c.judgeAll (stepsOf r.records.1), r.records.2) := by
  fun_induction Reader.records r generalizing c with
  | case1 r e r' h => exact audit_of_error (Reader.nextStep_of_error h)
  | case2 r r' h => exact audit_of_end (Reader.nextStep_of_end h)
  | case3 r record r' h ih =>
    cases record with
    | comment text =>
      rw [audit_congr (Reader.nextStep_of_comment h), ih]
      rfl
    | step s =>
      rw [audit_of_step (Reader.nextStep_of_step h), ih]
      rfl

/-! ## Steps in order -/

/-- An accepted step has the number that was expected, and the next one is expected then. -/
theorem next_of_check (h : c.check s = .ok d) : s.id = c.next ∧ d.next = c.next.next := by
  unfold check at h
  split at h
  · cases h
  · rename_i hid
    refine ⟨not_not.mp hid, ?_⟩
    split at h
    · cases h
    · cases hkind : s.kind with
      | input =>
        rw [hkind] at h
        cases h
        simp [next, acceptInput, StepId.next]
      | derived =>
        rw [hkind] at h
        obtain ⟨left, right, l, r, -, -, -, -, rfl⟩ := checkSum_eq_ok h
        simp [next, acceptSum, StepId.next]

theorem check_of_id_ne (h : s.id ≠ c.next) : c.check s = .error (.outOfOrder c.next s.id) :=
  if_pos h

/-- Steps that all come too late for the checker. -/
theorem judgeAll_of_lt {n : Nat} (hlt : c.next.index < n) (hss : NumberedFrom n ss) :
    c.judgeAll ss = ss.map fun s => ⟨some (.outOfOrder c.next s.id), c⟩ := by
  induction ss generalizing n with
  | nil => rfl
  | cons s ss ih =>
    obtain ⟨hid, hrest⟩ := numberedFrom_cons.mp hss
    have hne : s.id ≠ c.next := fun heq => by
      rw [heq] at hid
      omega
    rw [judgeAll_of_error (check_of_id_ne hne), ih (Nat.lt_succ_of_lt hlt) hrest, List.map_cons]

/-- Either all steps are accepted, or some first ones are and the next is refused; then all
steps behind it are out of order. -/
theorem judgeAll_cases (hss : NumberedFrom c.next.index ss) :
    (∃ d, c.checkAll ss = .ok () d) ∨
    ∃ front s back d e, ss = front ++ s :: back ∧ c.checkAll front = .ok () d ∧
      d.check s = .error e ∧
      c.judgeAll ss = c.judgeAll front ++ ⟨some e, d⟩ ::
        back.map fun t => ⟨some (.outOfOrder d.next t.id), d⟩ := by
  induction ss generalizing c with
  | nil => exact Or.inl ⟨c, rfl⟩
  | cons s ss ih =>
    obtain ⟨-, hrest⟩ := numberedFrom_cons.mp hss
    cases hcheck : c.check s with
    | error e =>
      refine Or.inr ⟨[], s, ss, c, e, rfl, rfl, hcheck, ?_⟩
      rw [judgeAll_of_error hcheck, judgeAll_of_lt (Nat.lt_succ_self _) hrest]
      rfl
    | ok c' =>
      have hnext : c.next.index + 1 = c'.next.index := by rw [(next_of_check hcheck).2]; rfl
      rw [hnext] at hrest
      obtain ⟨d, hd⟩ | ⟨front, t, back, d, e, rfl, hfront, ht, hjudge⟩ := ih hrest
      · exact Or.inl ⟨d, by rw [checkAll, hcheck]; exact hd⟩
      · refine Or.inr ⟨s :: front, t, back, d, e, rfl, ?_, ht, ?_⟩
        · rw [checkAll, hcheck]
          exact hfront
        · rw [judgeAll_of_ok hcheck, hjudge, judgeAll_of_ok hcheck, List.cons_append]

end Checker

end CuttingPlanes
