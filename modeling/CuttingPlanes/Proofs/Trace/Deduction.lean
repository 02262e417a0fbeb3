import CuttingPlanes.Proofs.Constraint.Algebra
import CuttingPlanes.Trace.Checker

/-!
# Deductions

A deduction is a list of steps that are numbered from the first on and justified by
steps before them. An assignment that satisfies its inputs satisfies all of its
steps (`Deduction.satisfied`), because a sum follows from its two summands.

A checker accepts exactly what continues a deduction: `HasAccepted` relates its state
to the steps that it has accepted, `hasAccepted_of_check` and `exists_check` are the
two directions for one step, and `checkAll` and `accepted` carry them over to many
steps, the first up to a refusal and the second across refusals.
-/

namespace CuttingPlanes

/-- Steps that are numbered consecutively and justified by steps before them: an
input needs no reason, a derived step is the sum of the two steps it names. -/
inductive Deduction : List Step → Prop
  | nil : Deduction []
  | input {ss : List Step} {c : Constraint} {hints : List StepId} (h : Deduction ss)
      (hhints : ∀ hint ∈ hints, hint.index < ss.length) :
      Deduction (ss ++ [⟨⟨ss.length⟩, .input, c, hints⟩])
  | sum {ss : List Step} {left right : StepId} {l r : Step} {c : Constraint} (h : Deduction ss)
      (hl : ss[left.index]? = some l) (hr : ss[right.index]? = some r)
      (hsum : l.constraint.add r.constraint = .ok c) :
      Deduction (ss ++ [⟨⟨ss.length⟩, .derived, c, [left, right]⟩])

namespace Deduction

/-- What satisfies the inputs satisfies every step. -/
theorem satisfied {a : Variable → Int} {ss : List Step} (h : Deduction ss)
    (hin : ∀ s ∈ ss, s.kind = .input → s.constraint.Satisfied a) :
    ∀ s ∈ ss, s.constraint.Satisfied a := by
  induction h with
  | nil => simp
  | input h _ ih =>
    intro s hs
    rcases List.mem_append.mp hs with hs | hs
    · exact ih (fun s hs => hin s (List.mem_append_left _ hs)) s hs
    · rw [List.mem_singleton.mp hs]
      exact hin _ (List.mem_append_right _ (List.mem_singleton_self _)) rfl
  | sum h hl hr hsum ih =>
    intro s hs
    have ih' := ih fun s hs => hin s (List.mem_append_left _ hs)
    rcases List.mem_append.mp hs with hs | hs
    · exact ih' s hs
    · rw [List.mem_singleton.mp hs]
      have hleft := ih' _ (List.mem_of_getElem? hl)
      have hright := ih' _ (List.mem_of_getElem? hr)
      exact Constraint.satisfied_add hleft hright hsum

/-- Inputs that some assignment satisfies do not lead to a contradiction. -/
theorem not_isContradiction {a : Variable → Int} {ss : List Step} (h : Deduction ss)
    (hin : ∀ s ∈ ss, s.kind = .input → s.constraint.Satisfied a) {s : Step} (hs : s ∈ ss) :
    s.constraint.isContradiction = false := by
  by_contra hc
  rw [Bool.not_eq_false] at hc
  exact Constraint.not_satisfied_of_isContradiction hc a (h.satisfied hin s hs)

theorem length_hints {ss : List Step} (h : Deduction ss) :
    ∀ s ∈ ss, s.kind = .derived → s.hints.length = 2 := by
  induction h with
  | nil => simp
  | input _ _ ih =>
    intro s hs hkind
    rcases List.mem_append.mp hs with hs | hs
    · exact ih s hs hkind
    · rw [List.mem_singleton.mp hs] at hkind
      cases hkind
  | sum _ _ _ _ ih =>
    intro s hs hkind
    rcases List.mem_append.mp hs with hs | hs
    · exact ih s hs hkind
    · rw [List.mem_singleton.mp hs]
      rfl

/-- The beginning of a deduction is a deduction. -/
theorem of_append {ss ts : List Step} (h : Deduction (ss ++ ts)) : Deduction ss := by
  induction ts using List.reverseRecOn with
  | nil => simpa using h
  | append_singleton ts t ih =>
    rw [← List.append_assoc] at h
    generalize hus : ss ++ ts ++ [t] = us at h
    refine ih ?_
    cases h with
    | nil => simp at hus
    | input h _ | sum h _ _ _ => exact (List.append_inj' hus rfl).1 ▸ h

end Deduction

namespace Checker

/-! ## One step -/

/-- What a checker knows once it has accepted some steps. -/
structure HasAccepted (c : Checker) (ss : List Step) : Prop where
  deduction : Deduction ss
  known : c.known.toList = ss.map Step.constraint
  inputs : c.inputs = ss.countP (·.kind = .input)
  derived : c.derived = ss.countP (·.kind = .derived)

theorem hasAccepted_new : new.HasAccepted [] := ⟨.nil, rfl, rfl, rfl⟩

variable {c c' : Checker} {s : Step} {ss : List Step}

theorem HasAccepted.size_known (h : c.HasAccepted ss) : c.known.size = ss.length := by
  rw [← Array.length_toList, h.known, List.length_map]

theorem HasAccepted.known_eq_some_iff (h : c.HasAccepted ss) {k : Nat} {d : Constraint} :
    c.known[k]? = some d ↔ ∃ s, ss[k]? = some s ∧ s.constraint = d := by
  rw [← Array.getElem?_toList, h.known, List.getElem?_map, Option.map_eq_some_iff]

theorem HasAccepted.acceptInput (h : c.HasAccepted ss) {d : Constraint} {hints : List StepId}
    (hhints : ∀ hint ∈ hints, hint.index < ss.length) :
    (c.acceptInput d).HasAccepted (ss ++ [⟨⟨ss.length⟩, .input, d, hints⟩]) where
  deduction := h.deduction.input hhints
  known := by simp [Checker.acceptInput, h.known]
  inputs := by simp [Checker.acceptInput, h.inputs]
  derived := by simp [Checker.acceptInput, h.derived]

theorem HasAccepted.acceptSum (h : c.HasAccepted ss) {left right : StepId} {l r : Step}
    {d : Constraint} (hl : ss[left.index]? = some l) (hr : ss[right.index]? = some r)
    (hsum : l.constraint.add r.constraint = .ok d) :
    (c.acceptSum ⟨ss.length⟩ left right d).HasAccepted
      (ss ++ [⟨⟨ss.length⟩, .derived, d, [left, right]⟩]) where
  deduction := h.deduction.sum hl hr hsum
  known := by simp [Checker.acceptSum, h.known]
  inputs := by simp [Checker.acceptSum, h.inputs]
  derived := by simp [Checker.acceptSum, h.derived]

theorem checkSum_eq_ok (h : c.checkSum s = .ok c') :
    ∃ left right l r, s.hints = [left, right] ∧ c.known[left.index]? = some l ∧
      c.known[right.index]? = some r ∧ l.add r = .ok s.constraint ∧
      c' = c.acceptSum s.id left right s.constraint := by
  unfold checkSum at h
  split at h
  · rename_i left right hhints
    split at h
    · rename_i l r hl hr
      split at h
      · cases h
      · rename_i sum hsum
        split at h
        · rename_i heq
          cases h
          exact ⟨left, right, l, r, hhints, hl, hr, heq ▸ hsum, rfl⟩
        · cases h
    · cases h
    · cases h
  · cases h

theorem find?_eq_none_of_lt {hints : List StepId} {k : Nat}
    (h : ∀ hint ∈ hints, hint.index < k) : hints.find? (⟨k⟩ ≤ ·) = none := by
  rw [List.find?_eq_none]
  intro hint hmem
  have := h hint hmem
  simp only [decide_eq_true_eq, StepId.le_def]
  omega

/-- A step that is accepted continues the deduction. -/
theorem hasAccepted_of_check (h : c.HasAccepted ss) (hcheck : c.check s = .ok c') :
    c'.HasAccepted (ss ++ [s]) := by
  unfold check at hcheck
  split at hcheck
  · cases hcheck
  · rename_i hid
    split at hcheck
    · cases hcheck
    · rename_i hnone
      have hnext : s.id = ⟨ss.length⟩ := by
        rw [← h.size_known]
        exact not_not.mp hid
      obtain ⟨id, kind, d, hints⟩ := s
      subst hnext
      have hhints : ∀ hint ∈ hints, hint.index < ss.length := by
        intro hint hmem
        have := List.find?_eq_none.mp hnone hint hmem
        simpa [StepId.le_def] using this
      cases kind with
      | input =>
        cases hcheck
        exact h.acceptInput hhints
      | derived =>
        obtain ⟨left, right, l, r, rfl, hl, hr, hsum, rfl⟩ := checkSum_eq_ok hcheck
        obtain ⟨sl, hsl, rfl⟩ := h.known_eq_some_iff.mp hl
        obtain ⟨sr, hsr, rfl⟩ := h.known_eq_some_iff.mp hr
        exact h.acceptSum hsl hsr hsum

theorem check_input {d : Constraint} {hints : List StepId}
    (hhints : ∀ hint ∈ hints, hint.index < c.known.size) :
    c.check ⟨c.next, .input, d, hints⟩ = .ok (c.acceptInput d) := by
  have hnone : hints.find? (c.next ≤ ·) = none := find?_eq_none_of_lt hhints
  simp [check, hnone]

theorem check_sum {left right : StepId} {l r d : Constraint} (hl : c.known[left.index]? = some l)
    (hr : c.known[right.index]? = some r) (hsum : l.add r = .ok d) :
    c.check ⟨c.next, .derived, d, [left, right]⟩ = .ok (c.acceptSum c.next left right d) := by
  have hltl : left.index < c.known.size := (Array.getElem?_eq_some_iff.mp hl).1
  have hltr : right.index < c.known.size := (Array.getElem?_eq_some_iff.mp hr).1
  have hnone : [left, right].find? (c.next ≤ ·) = none :=
    find?_eq_none_of_lt (k := c.known.size) (by simp [hltl, hltr])
  simp [check, hnone, checkSum, hl, hr, hsum]

/-- A step that continues the deduction is accepted. -/
theorem exists_check (h : c.HasAccepted ss) (hd : Deduction (ss ++ [s])) :
    ∃ c', c.check s = .ok c' := by
  have hnext : c.next = ⟨ss.length⟩ := congrArg StepId.mk h.size_known
  generalize hts : ss ++ [s] = ts at hd
  cases hd with
  | nil => simp at hts
  | input hd hhints =>
    obtain ⟨rfl, hs⟩ := List.append_inj' hts rfl
    obtain rfl := List.singleton_inj.mp hs
    rw [← hnext]
    exact ⟨_, check_input (by rwa [h.size_known])⟩
  | sum hd hl hr hsum =>
    obtain ⟨rfl, hs⟩ := List.append_inj' hts rfl
    obtain rfl := List.singleton_inj.mp hs
    rw [← hnext]
    exact ⟨_, check_sum (h.known_eq_some_iff.mpr ⟨_, hl, rfl⟩)
      (h.known_eq_some_iff.mpr ⟨_, hr, rfl⟩) hsum⟩

/-! ## Many steps -/

/-- Check steps up to the first that is not accepted. -/
def checkAll (c : Checker) : List Step → EStateM.Result StepError Checker Unit
  | [] => .ok () c
  | s :: ss =>
    match c.check s with
    | .ok c => checkAll c ss
    | .error e => .error e c

/-- The steps that are accepted when steps are submitted one after the other, also
behind one that is refused. -/
def accepted (c : Checker) : List Step → List Step
  | [] => []
  | s :: ss =>
    match c.check s with
    | .ok c => s :: accepted c ss
    | .error _ => accepted c ss

/-- Whatever is submitted, the accepted steps continue the deduction. -/
theorem deduction_accepted (h : c.HasAccepted ss) (submitted : List Step) :
    Deduction (ss ++ c.accepted submitted) := by
  induction submitted generalizing c ss with
  | nil => simpa [accepted] using h.deduction
  | cons s submitted ih =>
    rw [accepted]
    split
    · rename_i c' hcheck
      simpa using ih (hasAccepted_of_check h hcheck)
    · exact ih h

theorem hasAccepted_of_checkAll (h : c.HasAccepted ss) {submitted : List Step}
    (hcheck : c.checkAll submitted = .ok () c') : c'.HasAccepted (ss ++ submitted) := by
  induction submitted generalizing c ss with
  | nil =>
    cases hcheck
    simpa using h
  | cons s submitted ih =>
    rw [checkAll] at hcheck
    split at hcheck
    · rename_i d hd
      simpa using ih (hasAccepted_of_check h hd) hcheck
    · cases hcheck

/-- A checker accepts every step of a deduction. -/
theorem exists_checkAll (h : c.HasAccepted ss) {submitted : List Step}
    (hd : Deduction (ss ++ submitted)) : ∃ c', c.checkAll submitted = .ok () c' := by
  induction submitted generalizing c ss with
  | nil => exact ⟨c, rfl⟩
  | cons s submitted ih =>
    rw [List.append_cons] at hd
    obtain ⟨d, hcheck⟩ := exists_check h hd.of_append
    obtain ⟨c', hc'⟩ := ih (hasAccepted_of_check h hcheck) hd
    exact ⟨c', by rw [checkAll, hcheck]; exact hc'⟩

/-- The verdict at the end is about the constraint of the last step. -/
theorem HasAccepted.concludesContradiction_iff (h : c.HasAccepted ss) :
    c.concludesContradiction = true ↔
      ∃ s, ss.getLast? = some s ∧ s.constraint.isContradiction = true := by
  have hback : c.known.back? = ss.getLast?.map Step.constraint := by
    rw [← Array.getLast?_toList, h.known, List.getLast?_map]
  unfold concludesContradiction
  rw [hback]
  cases ss.getLast? <;> simp

end Checker

end CuttingPlanes
