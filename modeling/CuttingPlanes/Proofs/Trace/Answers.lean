import CuttingPlanes.Proofs.Trace.Numbering

/-!
# Calls that go on behind errors

A reader can be called again whatever it has answered. `behind` is the state behind a number
of such calls, and `answer` is what one of them answers. Each call takes something from the
source or leaves nothing in it (`rest_behind_nextRecord`).
-/

namespace CuttingPlanes

open Source

namespace Actions

variable {ε σ α : Type}

/-- What an action answers, without the state that it leaves. -/
def answerOf : EStateM.Result ε σ α → Except ε α
  | .ok a _ => .ok a
  | .error e _ => .error e

/-- The state behind a number of calls. -/
def behind (act : EStateM ε σ α) (s : σ) : Nat → σ
  | 0 => s
  | n + 1 => behind act (stateAfter (act s)) n

/-- The answer of a call. They are counted from zero. -/
def answer (act : EStateM ε σ α) (s : σ) (n : Nat) : Except ε α :=
  answerOf (act (behind act s n))

variable {act : EStateM ε σ α} {s : σ} {n : Nat}

theorem behind_add_one (act : EStateM ε σ α) (s : σ) (n : Nat) :
    behind act s (n + 1) = stateAfter (act (behind act s n)) := by
  induction n generalizing s with
  | zero => rfl
  | succ n ih => exact ih (stateAfter (act s))

theorem answer_eq_ok_iff {a : α} :
    answer act s n = .ok a ↔ act (behind act s n) = .ok a (behind act s (n + 1)) := by
  rw [behind_add_one, answer]
  cases act (behind act s n) <;> simp [answerOf, stateAfter]

theorem answer_eq_error_iff {e : ε} :
    answer act s n = .error e ↔ act (behind act s n) = .error e (behind act s (n + 1)) := by
  rw [behind_add_one, answer]
  cases act (behind act s n) <;> simp [answerOf, stateAfter]

/-- What every call keeps holds behind all calls. -/
theorem behind_induction {P : σ → Prop} (hs : P s) (hstep : ∀ s, P s → P (stateAfter (act s)))
    (n : Nat) : P (behind act s n) := by
  induction n generalizing s with
  | zero => exact hs
  | succ n ih => exact ih (hstep s hs)

/-- A call that answers and leaves the state as it was is answered so for ever. -/
theorem answer_of_stateAfter_eq (h : stateAfter (act s) = s) (n : Nat) :
    answer act s n = answerOf (act s) := by
  have hbehind : behind act s n = s := by
    refine behind_induction (P := (· = s)) rfl ?_ n
    rintro s' rfl
    exact h
  rw [answer, hbehind]

end Actions

namespace Reader

open Actions

variable {r r' : Reader}

/-- The trace ends where the source does. -/
theorem ended_of_nextText (h : nextText r = .ok none r') :
    r'.source.rest = [] ∧ r.source.failure = none := by
  fun_induction nextText r with
  | case1 => cases h
  | case2 r source hline =>
    cases h
    obtain ⟨hnil, hfailure⟩ := rest_eq_nil_of_line?_none hline
    exact ⟨(advancing_line?.ok hline).rest_eq_nil hnil, hfailure⟩
  | case3 => cases h
  | case4 => cases h
  | case5 r bytes source hline line _ _ ih =>
    obtain ⟨hnil, hfailure⟩ := ih h
    have hkept := (advancing_line?.ok hline).failure_eq
    exact ⟨hnil, hkept.symm.trans hfailure⟩
  | case6 r bytes source _ line _ entry _ => cases entry <;> cases h

theorem ended_of_nextBinary (h : nextBinary r = .ok none r') :
    r.source.rest = [] ∧ r'.source.rest = [] ∧ r.source.failure = none := by
  unfold nextBinary at h
  split at h
  · cases h
  · rename_i source hbyte
    cases h
    obtain ⟨hnil, hfailure⟩ := rest_eq_nil_of_byte?_none hbyte
    exact ⟨hnil, (advancing_byte?.ok hbyte).rest_eq_nil hnil, hfailure⟩
  · split at h
    · cases h
    · rename_i entry _ _
      cases entry <;> cases h

theorem ended_of_nextRecord (h : nextRecord r = .ok none r') :
    r'.source.rest = [] ∧ r.source.failure = none := by
  unfold nextRecord at h
  split at h
  · exact ended_of_nextText h
  · exact (ended_of_nextBinary h).2

theorem format_behind (r : Reader) (i : Nat) : (behind nextRecord r i).format = r.format :=
  behind_induction (P := fun q => q.format = r.format) rfl
    (fun q hq => (format_nextRecord q).trans hq) i

theorem advances_behind (r : Reader) (i : Nat) :
    r.source.Advances (behind nextRecord r i).source :=
  behind_induction (P := fun q => r.source.Advances q.source) (.refl r.source)
    (fun q hq => hq.trans (advances_nextRecord q)) i

/-- A call takes something from the source or leaves nothing in it. -/
theorem rest_behind_nextRecord (r : Reader) :
    (stateAfter (nextRecord r)).source.rest.length < r.source.rest.length ∨
      (stateAfter (nextRecord r)).source.rest = [] := by
  cases h : nextRecord r with
  | ok record? r' =>
    cases record? with
    | none => exact Or.inr (ended_of_nextRecord h).1
    | some record => exact Or.inl (length_rest_of_nextRecord h)
  | error e r' =>
    by_cases hnil : r'.source.rest = []
    · exact Or.inr hnil
    · exact Or.inl (length_rest_of_nextRecord_error h hnil)

end Reader

end CuttingPlanes
