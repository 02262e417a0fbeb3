import CuttingPlanes.Proofs.Trace.Records

/-!
# Soundness of checking

Whatever is submitted to a checker, the accepted steps follow from the accepted
inputs. So the inputs of a trace that is verified and ends in a contradiction
cannot all be satisfied.
-/

namespace CuttingPlanes

/-- No assignment satisfies the inputs of a verified trace that concludes in a
contradiction. -/
theorem unsatisfiable_of_verify {r : Reader} {c : Checker}
    (h : Checker.new.verify r = .ok () c) (hc : c.concludesContradiction = true) :
    ¬∃ a : Variable → Int, ∀ s ∈ stepsOf r.records.1, s.kind = .input → s.constraint.Satisfied a := by
  rintro ⟨a, hin⟩
  obtain ⟨-, hall⟩ := Checker.verify_eq_ok_iff.mp h
  have hacc := Checker.hasAccepted_of_checkAll Checker.hasAccepted_new hall
  rw [List.nil_append] at hacc
  obtain ⟨s, hs, hcontra⟩ := hacc.concludesContradiction_iff.mp hc
  have hmem : s ∈ stepsOf r.records.1 := List.mem_of_getLast? hs
  have hnot := hacc.deduction.not_isContradiction hin hmem
  rw [hcontra] at hnot
  cases hnot

/-- Checking is sound: accepted steps follow from the accepted inputs, whatever else was
submitted, and no assignment satisfies the inputs of a trace that is verified and
concludes in a contradiction. -/
theorem checking_sound :
    (∀ (submitted : List Step) (a : Variable → Int),
      (∀ s ∈ Checker.new.accepted submitted, s.kind = .input → s.constraint.Satisfied a) →
        ∀ s ∈ Checker.new.accepted submitted, s.constraint.Satisfied a) ∧
    ∀ (format : Format) (bytes : List UInt8) (c : Checker),
      Checker.new.verify (Reader.new format (.ofBytes bytes)) = .ok () c →
      c.concludesContradiction = true →
        ¬∃ a : Variable → Int, ∀ s ∈ stepsOf (Reader.new format (.ofBytes bytes)).records.1,
          s.kind = .input → s.constraint.Satisfied a := by
  constructor
  · intro submitted a hin
    have hd := Checker.deduction_accepted Checker.hasAccepted_new submitted
    exact hd.satisfied hin
  · intro format bytes c h hc
    exact unsatisfiable_of_verify h hc

/-- Two inputs that contradict each other, and their sum. -/
def contradictoryTrace : List UInt8 :=
  Text.encode "i +1 x1 >= 1 ;\ni -1 x1 >= 0 ;\na >= 1 ; 1 2\n".toList

/-- An input, a step out of order and the sum of the input and itself. -/
def submittedSteps : List Step :=
  let unit : LinearForm := ⟨[⟨1, ⟨1, by decide, by decide⟩⟩], by decide⟩
  let double : LinearForm := ⟨[⟨2, ⟨1, by decide, by decide⟩⟩], by decide⟩
  [⟨⟨0⟩, .input, ⟨unit, .equal, 1⟩, []⟩, ⟨⟨5⟩, .derived, ⟨.zero, .atLeast, 1⟩, [⟨0⟩]⟩,
    ⟨⟨1⟩, .derived, ⟨double, .equal, 2⟩, [⟨0⟩, ⟨0⟩]⟩]

theorem checking_sound_contradictoryTrace :
    (Checker.new.accepted submittedSteps).length = 2 ∧
    (∀ s ∈ Checker.new.accepted submittedSteps, s.constraint.Satisfied fun _ => 1) ∧
    ∃ c, Checker.new.verify (Reader.new .text (.ofBytes contradictoryTrace)) = .ok () c ∧
      c.concludesContradiction = true ∧
        ¬∃ a : Variable → Int,
          ∀ s ∈ stepsOf (Reader.new .text (.ofBytes contradictoryTrace)).records.1,
            s.kind = .input → s.constraint.Satisfied a := by
  refine ⟨by decide +kernel,
    checking_sound.1 submittedSteps (fun _ => 1) (by decide +kernel), ?_⟩
  have hverdict : (match Checker.new.verify (Reader.new .text (.ofBytes contradictoryTrace)) with
      | .ok () c => c.concludesContradiction
      | .error _ _ => false) = true := by decide +kernel
  cases h : Checker.new.verify (Reader.new .text (.ofBytes contradictoryTrace)) with
  | ok u c =>
    rw [h] at hverdict
    exact ⟨c, rfl, hverdict, checking_sound.2 .text contradictoryTrace c h hverdict⟩
  | error e c =>
    rw [h] at hverdict
    cases hverdict

end CuttingPlanes
