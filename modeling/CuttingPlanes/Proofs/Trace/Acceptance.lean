import CuttingPlanes.Proofs.Trace.Calls
import CuttingPlanes.Proofs.Trace.FailStop

/-!
# Which steps are accepted

A checker accepts a step exactly when the step continues the constraints that are known
(`Continues`), and it refuses every other step for the first reason that applies
(`Refused`). Both are said without the checker, and every hint that is looked up is known
by then. So whatever is submitted, the state of a checker is the one behind the accepted
steps alone, and all of some steps are accepted exactly when they are a deduction
(`replay_law`).
-/

namespace CuttingPlanes

/-- The step has the next number, and its hints come before it. -/
structure InPlace (known : List Constraint) (s : Step) : Prop where
  number_eq : s.id.number = known.length + 1
  hints_lt : ∀ hint ∈ s.hints, hint.number < s.id.number

/-- The step has exactly two hints, and these are the constraints that they name. -/
def HasSummands (known : List Constraint) (s : Step) (l r : Constraint) : Prop :=
  ∃ left right, s.hints = [left, right] ∧
    known[left.index]? = some l ∧ known[right.index]? = some r

/-- The step continues the known constraints: it is in place, and it is an input or the sum
of its two summands. -/
structure Continues (known : List Constraint) (s : Step) : Prop where
  inPlace : InPlace known s
  justified : s.kind = .input ∨ ∃ l r, HasSummands known s l r ∧ l.add r = .ok s.constraint

/-- The reason for which a step is refused. Each reason says that none before it applies. -/
inductive Refused (known : List Constraint) (s : Step) : StepError → Prop
  | outOfOrder (hnumber : s.id.number ≠ known.length + 1) :
    Refused known s (.outOfOrder ⟨known.length⟩ s.id)
  | danglingHint {hint : StepId} (hnumber : s.id.number = known.length + 1)
    (hfirst : FirstDangling s.id s.hints hint) : Refused known s (.danglingHint s.id hint)
  | notTwoHints (hplace : InPlace known s) (hkind : s.kind = .derived)
    (hlength : s.hints.length ≠ 2) : Refused known s (.notTwoHints s.id s.hints.length)
  | notSummable {l r : Constraint} {e : ConstraintError} (hplace : InPlace known s)
    (hkind : s.kind = .derived) (hsummands : HasSummands known s l r)
    (hadd : l.add r = .error e) : Refused known s (.notSummable s.id e)
  | notTheSum {l r sum : Constraint} (hplace : InPlace known s) (hkind : s.kind = .derived)
    (hsummands : HasSummands known s l r) (hadd : l.add r = .ok sum)
    (hne : sum ≠ s.constraint) : Refused known s (.notTheSum s.id s.constraint sum)

section Step

variable {known : List Constraint} {s : Step}

/-- A hint of a step in place is known. -/
theorem InPlace.index_lt (h : InPlace known s) {hint : StepId} (hhint : hint ∈ s.hints) :
    hint.index < known.length := by
  have hnumber := h.number_eq
  have hlt := h.hints_lt hint hhint
  simp only [StepId.number] at hnumber hlt
  omega

theorem InPlace.exists_known (h : InPlace known s) {hint : StepId} (hhint : hint ∈ s.hints) :
    ∃ c, known[hint.index]? = some c :=
  ⟨_, List.getElem?_eq_getElem (h.index_lt hhint)⟩

theorem InPlace.exists_summands (h : InPlace known s) (hlength : s.hints.length = 2) :
    ∃ l r, HasSummands known s l r := by
  obtain ⟨left, right, hhints⟩ := List.length_eq_two.mp hlength
  have hleft : left ∈ s.hints := hhints ▸ List.mem_cons_self
  have hright : right ∈ s.hints := hhints ▸ List.mem_cons_of_mem left List.mem_cons_self
  obtain ⟨l, hl⟩ := h.exists_known hleft
  obtain ⟨r, hr⟩ := h.exists_known hright
  exact ⟨l, r, left, right, hhints, hl, hr⟩

theorem InPlace.find?_eq_none (h : InPlace known s) : s.hints.find? (s.id ≤ ·) = none :=
  find?_eq_none_iff_lt.mpr fun hint hhint => Nat.lt_of_succ_lt_succ (h.hints_lt hint hhint)

theorem inPlace_or_refused (known : List Constraint) (s : Step) :
    InPlace known s ∨ ∃ e, Refused known s e := by
  by_cases hnumber : s.id.number = known.length + 1
  · cases hfind : s.hints.find? (s.id ≤ ·) with
    | some hint =>
      exact Or.inr ⟨_, .danglingHint hnumber (find?_eq_some_iff_firstDangling.mp hfind)⟩
    | none =>
      refine Or.inl ⟨hnumber, fun hint hhint => ?_⟩
      exact Nat.succ_lt_succ (find?_eq_none_iff_lt.mp hfind hint hhint)
  · exact Or.inr ⟨_, .outOfOrder hnumber⟩

/-- There is a reason to refuse every step that does not continue what is known. -/
theorem continues_or_refused (known : List Constraint) (s : Step) :
    Continues known s ∨ ∃ e, Refused known s e := by
  obtain hplace | hrefused := inPlace_or_refused known s
  · cases hkind : s.kind with
    | input => exact Or.inl ⟨hplace, Or.inl hkind⟩
    | derived =>
      by_cases hlength : s.hints.length = 2
      · obtain ⟨l, r, hsummands⟩ := hplace.exists_summands hlength
        cases hadd : l.add r with
        | error e => exact Or.inr ⟨_, .notSummable hplace hkind hsummands hadd⟩
        | ok sum =>
          by_cases heq : sum = s.constraint
          · exact Or.inl ⟨hplace, Or.inr ⟨l, r, hsummands, heq ▸ hadd⟩⟩
          · exact Or.inr ⟨_, .notTheSum hplace hkind hsummands hadd heq⟩
      · exact Or.inr ⟨_, .notTwoHints hplace hkind hlength⟩
  · exact Or.inr hrefused

end Step

namespace Checker

variable {c d : Checker} {s : Step} {e : StepError} {ss ts submitted : List Step}

/-! ## One step -/

/-- The second checker knows one more constraint, that of the step, and has counted it as
what the step is. -/
structure Extends (c : Checker) (s : Step) (d : Checker) : Prop where
  known_eq : d.known = c.known.push s.constraint
  inputs_eq : d.inputs = c.inputs + if s.kind = .input then 1 else 0
  derived_eq : d.derived = c.derived + if s.kind = .derived then 1 else 0

theorem id_eq_next_iff : s.id = c.next ↔ s.id.number = c.known.toList.length + 1 := by
  obtain ⟨⟨index⟩, kind, constraint, hints⟩ := s
  simp [next, StepId.number]

theorem check_of_input (h : InPlace c.known.toList s) (hkind : s.kind = .input) :
    c.check s = .ok (c.acceptInput s.constraint) := by
  have hid : s.id = c.next := id_eq_next_iff.mpr h.number_eq
  have hnone := h.find?_eq_none
  rw [hid] at hnone
  simp only [check, hid, ne_eq, not_true_eq_false, if_false, hnone, hkind]

theorem check_of_derived (h : InPlace c.known.toList s) (hkind : s.kind = .derived) :
    c.check s = c.checkSum s := by
  have hid : s.id = c.next := id_eq_next_iff.mpr h.number_eq
  have hnone := h.find?_eq_none
  rw [hid] at hnone
  simp only [check, hid, ne_eq, not_true_eq_false, if_false, hnone, hkind]

section Summands

variable {l r sum : Constraint}

theorem checkSum_of_add_error {e : ConstraintError} (h : HasSummands c.known.toList s l r)
    (hadd : l.add r = .error e) : c.checkSum s = .error (.notSummable s.id e) := by
  obtain ⟨left, right, hhints, hl, hr⟩ := h
  rw [Array.getElem?_toList] at hl hr
  simp only [checkSum, hhints, hl, hr, hadd]

theorem checkSum_of_sum (h : HasSummands c.known.toList s l r)
    (hadd : l.add r = .ok s.constraint) :
    ∃ left right, c.checkSum s = .ok (c.acceptSum s.id left right s.constraint) := by
  obtain ⟨left, right, hhints, hl, hr⟩ := h
  rw [Array.getElem?_toList] at hl hr
  exact ⟨left, right, by simp only [checkSum, hhints, hl, hr, hadd, if_true]⟩

theorem checkSum_of_ne (h : HasSummands c.known.toList s l r) (hadd : l.add r = .ok sum)
    (hne : sum ≠ s.constraint) : c.checkSum s = .error (.notTheSum s.id s.constraint sum) := by
  obtain ⟨left, right, hhints, hl, hr⟩ := h
  rw [Array.getElem?_toList] at hl hr
  simp only [checkSum, hhints, hl, hr, hadd, if_neg hne]

end Summands

theorem checkSum_of_length_ne (h : s.hints.length ≠ 2) :
    c.checkSum s = .error (.notTwoHints s.id s.hints.length) := by
  unfold checkSum
  split
  · rename_i left right hhints
    exact absurd (by rw [hhints]; rfl) h
  · rfl

theorem check_of_continues (h : Continues c.known.toList s) :
    ∃ d, c.check s = .ok d ∧ c.Extends s d := by
  obtain ⟨hplace, hjustified⟩ := h
  cases hkind : s.kind with
  | input =>
    rw [check_of_input hplace hkind]
    exact ⟨_, rfl, rfl, by rw [hkind]; rfl, by rw [hkind]; rfl⟩
  | derived =>
    rw [check_of_derived hplace hkind]
    obtain hinput | ⟨l, r, hsummands, hadd⟩ := hjustified
    · rw [hkind] at hinput
      cases hinput
    · obtain ⟨left, right, hcheck⟩ := checkSum_of_sum hsummands hadd
      exact ⟨_, hcheck, rfl, by rw [hkind]; rfl, by rw [hkind]; rfl⟩

theorem check_of_refused (h : Refused c.known.toList s e) : c.check s = .error e := by
  cases h with
  | outOfOrder hnumber => exact check_of_id_ne fun hid => hnumber (id_eq_next_iff.mp hid)
  | danglingHint hnumber hfirst =>
    have hid : s.id = c.next := id_eq_next_iff.mpr hnumber
    rw [check, if_neg (not_not.mpr hid), find?_eq_some_iff_firstDangling.mpr hfirst]
  | notTwoHints hplace hkind hlength =>
    exact (check_of_derived hplace hkind).trans (checkSum_of_length_ne hlength)
  | notSummable hplace hkind hsummands hadd =>
    exact (check_of_derived hplace hkind).trans (checkSum_of_add_error hsummands hadd)
  | notTheSum hplace hkind hsummands hadd hne =>
    exact (check_of_derived hplace hkind).trans (checkSum_of_ne hsummands hadd hne)

theorem extends_of_check (h : c.check s = .ok d) :
    Continues c.known.toList s ∧ c.Extends s d := by
  obtain hcontinues | ⟨e, hrefused⟩ := continues_or_refused c.known.toList s
  · obtain ⟨d', hcheck, hextends⟩ := check_of_continues hcontinues
    rw [h] at hcheck
    cases hcheck
    exact ⟨hcontinues, hextends⟩
  · rw [check_of_refused hrefused] at h
    cases h

theorem check_eq_error_iff : c.check s = .error e ↔ Refused c.known.toList s e := by
  refine ⟨fun h => ?_, check_of_refused⟩
  obtain hcontinues | ⟨e', hrefused⟩ := continues_or_refused c.known.toList s
  · obtain ⟨d, hcheck, -⟩ := check_of_continues hcontinues
    rw [h] at hcheck
    cases hcheck
  · rw [check_of_refused hrefused] at h
    cases h
    exact hrefused

/-! ## Many steps -/

/-- The checker behind steps that are submitted one after the other, whatever becomes of
each. -/
def replay (c : Checker) (submitted : List Step) : Checker :=
  submitted.foldl (fun c s => (c.judge s).checker) c

theorem replay_of_ok (h : c.check s = .ok d) (ss : List Step) :
    c.replay (s :: ss) = d.replay ss := by
  rw [replay, List.foldl_cons, judge_of_ok h]
  rfl

theorem replay_of_error (h : c.check s = .error e) (ss : List Step) :
    c.replay (s :: ss) = c.replay ss := by
  rw [replay, List.foldl_cons, judge_of_error h]
  rfl

theorem replay_append (c : Checker) (ss ts : List Step) :
    c.replay (ss ++ ts) = (c.replay ss).replay ts := List.foldl_append

theorem accepted_of_ok (h : c.check s = .ok d) (ss : List Step) :
    c.accepted (s :: ss) = s :: d.accepted ss := by
  rw [accepted, h]

theorem accepted_of_error (h : c.check s = .error e) (ss : List Step) :
    c.accepted (s :: ss) = c.accepted ss := by
  rw [accepted, h]

theorem accepted_append (c : Checker) (ss ts : List Step) :
    c.accepted (ss ++ ts) = c.accepted ss ++ (c.replay ss).accepted ts := by
  induction ss generalizing c with
  | nil => rfl
  | cons s ss ih =>
    rw [List.cons_append]
    cases h : c.check s with
    | ok d => rw [accepted_of_ok h, accepted_of_ok h, replay_of_ok h, ih, List.cons_append]
    | error e => rw [accepted_of_error h, accepted_of_error h, replay_of_error h, ih]

theorem HasAccepted.replay (h : c.HasAccepted ss) (submitted : List Step) :
    (c.replay submitted).HasAccepted (ss ++ c.accepted submitted) := by
  induction submitted generalizing c ss with
  | nil =>
    rw [accepted, List.append_nil]
    exact h
  | cons s submitted ih =>
    cases hcheck : c.check s with
    | ok d =>
      have hrest := ih (hasAccepted_of_check h hcheck)
      rw [List.append_assoc] at hrest
      rw [accepted_of_ok hcheck, replay_of_ok hcheck]
      exact hrest
    | error e =>
      rw [accepted_of_error hcheck, replay_of_error hcheck]
      exact ih h

/-- What is refused might as well not have been submitted. -/
theorem replay_accepted (c : Checker) (submitted : List Step) :
    c.replay (c.accepted submitted) = c.replay submitted := by
  induction submitted generalizing c with
  | nil => rfl
  | cons s submitted ih =>
    cases h : c.check s with
    | ok d => rw [accepted_of_ok h, replay_of_ok h, replay_of_ok h, ih]
    | error e => rw [accepted_of_error h, replay_of_error h, ih]

/-- All of the steps are accepted exactly when they are a deduction. -/
theorem accepted_eq_self_iff : new.accepted ss = ss ↔ Deduction ss := by
  constructor
  · intro h
    have hdeduction := deduction_accepted hasAccepted_new ss
    rwa [List.nil_append, h] at hdeduction
  · intro h
    have hbehind : Deduction ([] ++ ss) := h
    obtain ⟨d, hd⟩ := exists_checkAll hasAccepted_new hbehind
    have haccepted := accepted_of_checkAll hd []
    rwa [List.append_nil, accepted, List.append_nil] at haccepted

/-- A checker that has accepted some steps knows their constraints and has counted each of
them once. -/
structure Knows (c : Checker) (ss : List Step) : Prop where
  known_eq : c.known.toList = ss.map Step.constraint
  inputs_eq : c.inputs = ss.countP (·.kind = .input)
  derived_eq : c.derived = ss.countP (·.kind = .derived)
  counts_eq : c.inputs + c.derived = c.known.size

theorem countP_kind_add (ss : List Step) :
    ss.countP (·.kind = .input) + ss.countP (·.kind = .derived) = ss.length := by
  rw [List.length_eq_countP_add_countP (fun s : Step => decide (s.kind = .input))]
  congr 1
  refine List.countP_congr fun s _ => ?_
  cases s.kind <;> simp

theorem HasAccepted.knows (h : c.HasAccepted ss) : c.Knows ss where
  known_eq := h.known
  inputs_eq := h.inputs
  derived_eq := h.derived
  counts_eq := by rw [h.inputs, h.derived, h.size_known, countP_kind_add]

/-- What a checker makes of any step. -/
structure StepLaw (c : Checker) (s : Step) : Prop where
  accepts_iff : (∃ d, c.check s = .ok d) ↔ Continues c.known.toList s
  refuses_iff : ∀ e, c.check s = .error e ↔ Refused c.known.toList s e
  extended : ∀ d, c.check s = .ok d → c.Extends s d ∧ c.replay [s] = d
  unchanged : ∀ e, c.check s = .error e → c.replay [s] = c
  in_range : InPlace c.known.toList s → ∀ hint ∈ s.hints, hint.index < c.known.size

theorem stepLaw (c : Checker) (s : Step) : c.StepLaw s where
  accepts_iff := by
    refine ⟨fun ⟨d, h⟩ => (extends_of_check h).1, fun h => ?_⟩
    obtain ⟨d, hd, -⟩ := check_of_continues h
    exact ⟨d, hd⟩
  refuses_iff e := check_eq_error_iff
  extended d h := ⟨(extends_of_check h).2, replay_of_ok h []⟩
  unchanged e h := replay_of_error h []
  in_range h hint hhint := h.index_lt hhint

/-- Whatever steps are submitted to a checker one after the other. It knows the constraints of
the accepted ones, which are a deduction, and it stands where these alone would have
brought it. The next step is accepted exactly when it continues what is known, and otherwise
changes nothing; no hint that is looked up is out of range. -/
theorem replay_law (submitted : List Step) :
    let c := new.replay submitted
    let ss := new.accepted submitted
    c.Knows ss ∧ Deduction ss ∧ (ss = submitted ↔ Deduction submitted) ∧ new.replay ss = c ∧
    ∀ s, c.StepLaw s ∧ new.replay (submitted ++ [s]) = c.replay [s] ∧
      new.accepted (submitted ++ [s]) = ss ++ c.accepted [s] := by
  have h := hasAccepted_new.replay submitted
  rw [List.nil_append] at h
  refine ⟨h.knows, h.deduction, accepted_eq_self_iff, replay_accepted new submitted, fun s => ?_⟩
  exact ⟨stepLaw _ s, replay_append new submitted [s], accepted_append new submitted [s]⟩

end Checker

end CuttingPlanes
