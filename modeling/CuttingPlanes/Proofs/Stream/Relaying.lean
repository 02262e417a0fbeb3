import CuttingPlanes.Proofs.Actions
import CuttingPlanes.Stream.Source

/-!
# Sources that fail early

A source may fail where another one goes on to deliver bytes. An action relays the failure
when it does the same on both sources as long as it stays in front of that place, and ends
with the fault itself when it does not: it never takes the failure for the end of the bytes.
Actions in sequence relay when each of them does (`Relays.bind`), so it is enough to look at
the reads of which a parser is made.
-/

namespace CuttingPlanes

open Actions

namespace Source

variable {missing : List UInt8} {fault : Fault} {s t : Source}

/-- The second source fails where the first one delivers the missing bytes and ends. -/
structure CutShort (missing : List UInt8) (fault : Fault) (s t : Source) : Prop where
  rest_eq : s.rest = t.rest ++ missing
  position_eq : t.position = s.position
  failure_eq : s.failure = none
  fault_eq : t.failure = some fault

/-- The source has delivered one of the missing bytes, or come to its end. -/
def Beyond (missing : List UInt8) (s : Source) : Prop :=
  s.rest.length < missing.length ∨ s.rest = []

/-- The source fails with the next read. -/
structure AtFailure (fault : Fault) (s : Source) : Prop where
  rest_eq : s.rest = []
  fault_eq : s.failure = some fault

theorem Beyond.of_advances (h : s.Beyond missing) (hadvances : s.Advances t) :
    t.Beyond missing := by
  obtain hlt | hnil := h
  · exact Or.inl (Nat.lt_of_le_of_lt hadvances.length_le hlt)
  · exact Or.inr (hadvances.rest_eq_nil hnil)

theorem CutShort.exhausted (h : CutShort missing fault s t) : t.exhausted.AtFailure fault :=
  ⟨rfl, h.fault_eq⟩

theorem CutShort.length_eq (h : CutShort missing fault s t) :
    s.rest.length = t.rest.length + missing.length := by
  rw [h.rest_eq, List.length_append]

theorem beyond_exhausted (s : Source) : s.exhausted.Beyond missing := Or.inr rfl

end Source

open Source

section Relayed

variable {ε ε' σ α β : Type}

/-- How an action ends on two sources of which the second fails early: in the same way on both,
or on the second with the fault, if on the first it comes to the place of the failure and
looks beyond. -/
inductive Relayed (source : σ → Source) (Cut : σ → σ → Prop) (missing : List UInt8)
    (fault : Fault) (e : ε) : EStateM.Result ε σ α → EStateM.Result ε σ α → Prop
  | ok (a : α) {s t : σ} (hcut : Cut s t) :
    Relayed source Cut missing fault e (.ok a s) (.ok a t)
  | error (e' : ε) {s t : σ} (hcut : Cut s t) :
    Relayed source Cut missing fault e (.error e' s) (.error e' t)
  | fault {result : EStateM.Result ε σ α} {t : σ}
    (hbeyond : (source (stateAfter result)).Beyond missing) (hfails : (source t).AtFailure fault) :
    Relayed source Cut missing fault e result (.error e t)

namespace Source

/-- The action ends on a source that fails early as it ends on the complete one, or with the
fault. -/
structure Relays (wrap : Fault → ε) (act : EStateM ε Source α) : Prop where
  advancing : Advancing act
  relayed : ∀ {missing fault s t}, CutShort missing fault s t →
    Relayed id (CutShort missing fault) missing fault (wrap fault) (act s) (act t)

namespace Relays

variable {wrap : Fault → ε} {act : EStateM ε Source α} {next : α → EStateM ε Source β}

theorem pure (a : α) : Relays wrap (Pure.pure a : EStateM ε Source α) :=
  ⟨.pure a, fun hcut => .ok a hcut⟩

theorem throw (e : ε) : Relays wrap (MonadExcept.throw e : EStateM ε Source α) :=
  ⟨.throw e, fun hcut => .error e hcut⟩

/-- What comes behind an action only goes on in the source. -/
theorem advances_bind (act : EStateM ε Source α) (hnext : ∀ a, Advancing (next a)) (s : Source) :
    (stateAfter (act s)).Advances (stateAfter ((act >>= next) s)) := by
  cases hact : act s with
  | ok a t =>
    rw [bind_of_ok hact]
    exact hnext a t
  | error e t =>
    rw [bind_of_error hact]
    exact .refl t

theorem bind (h : Relays wrap act) (hnext : ∀ a, Relays wrap (next a)) :
    Relays wrap (act >>= next) where
  advancing := .bind h.advancing fun a => (hnext a).advancing
  relayed := by
    intro missing fault s t hcut
    have hrelayed := h.relayed hcut
    have hbehind := advances_bind act (fun a => (hnext a).advancing) s
    generalize hs : act s = x at hrelayed hbehind
    generalize ht : act t = y at hrelayed
    cases hrelayed with
    | ok a hcut' =>
      rw [bind_of_ok hs, bind_of_ok ht]
      exact (hnext a).relayed hcut'
    | error e' hcut' =>
      rw [bind_of_error hs, bind_of_error ht]
      exact .error e' hcut'
    | fault hbeyond hfails =>
      rw [bind_of_error ht]
      exact .fault (hbeyond.of_advances hbehind) hfails

theorem adaptExcept (f : ε → ε') (h : Relays wrap act) :
    Relays (f ∘ wrap) (EStateM.adaptExcept f act) where
  advancing := .adaptExcept f h.advancing
  relayed := by
    intro missing fault s t hcut
    have hrelayed := h.relayed hcut
    simp only [EStateM.adaptExcept]
    generalize act s = x at hrelayed
    generalize act t = y at hrelayed
    cases hrelayed with
    | ok a hcut' => exact .ok a hcut'
    | error e' hcut' => exact .error (f e') hcut'
    | fault hbeyond hfails =>
      refine .fault ?_ hfails
      cases x <;> exact hbeyond

end Relays

/-! ## Reads -/

theorem relays_byte? : Relays id byte? where
  advancing := advancing_byte?
  relayed := by
    intro missing fault s t hcut
    cases ht : t.rest with
    | nil =>
      have hfails : byte? t = .error fault t.exhausted := by
        simp only [byte?, ht, atEnd, hcut.fault_eq]
      rw [hfails]
      refine .fault ?_ hcut.exhausted
      cases hmissing : missing with
      | nil =>
        have hs : s.rest = [] := by rw [hcut.rest_eq, ht, hmissing]; rfl
        have hend : byte? s = .ok none s.exhausted := by
          simp only [byte?, hs, atEnd, hcut.failure_eq]
        rw [hend]
        exact beyond_exhausted s
      | cons b bytes =>
        have hs : s.rest = b :: bytes := by rw [hcut.rest_eq, ht, hmissing]; rfl
        have htaken : byte? s = .ok (some b) { s with rest := bytes, position := s.position + 1 } := by
          simp only [byte?, hs]
        rw [htaken]
        exact Or.inl (Nat.lt_succ_self _)
    | cons b bytes =>
      have hs : s.rest = b :: (bytes ++ missing) := by rw [hcut.rest_eq, ht]; rfl
      simp only [byte?, hs, ht]
      exact .ok (some b) ⟨rfl, congrArg (· + 1) hcut.position_eq, hcut.failure_eq, hcut.fault_eq⟩

theorem relays_byte : Relays id byte :=
  .bind relays_byte? fun b => match b with
    | some b => .pure b
    | none => .throw _

theorem relays_upTo (count : Nat) : Relays id (upTo count) where
  advancing := advancing_upTo count
  relayed := by
    intro missing fault s t hcut
    have hlength := hcut.length_eq
    by_cases hcount : count ≤ t.rest.length
    · -- all the bytes stand in front of the failure
      have htake : s.rest.take count = t.rest.take count := by
        rw [hcut.rest_eq, List.take_append_of_le_length hcount]
      have hdrop : s.rest.drop count = t.rest.drop count ++ missing := by
        rw [hcut.rest_eq, List.drop_append_of_le_length hcount]
      have hfull : (t.rest.take count).length = count := List.length_take_of_le hcount
      simp only [upTo, htake, hdrop, if_pos hfull]
      exact .ok _ ⟨rfl, congrArg (· + count) hcut.position_eq, hcut.failure_eq, hcut.fault_eq⟩
    · have hshort : ¬(t.rest.take count).length = count := by
        rw [List.length_take]
        omega
      have hfails : upTo count t = .error fault t.exhausted := by
        simp only [upTo, if_neg hshort, atEnd, hcut.fault_eq]
      rw [hfails]
      refine .fault ?_ hcut.exhausted
      by_cases hfull : (s.rest.take count).length = count
      · simp only [upTo, if_pos hfull]
        rw [List.length_take] at hfull
        refine Or.inl ?_
        show (s.rest.drop count).length < _
        rw [List.length_drop]
        omega
      · simp only [upTo, if_neg hfull, atEnd, hcut.failure_eq]
        exact beyond_exhausted s

theorem relays_line? : Relays id line? where
  advancing := advancing_line?
  relayed := by
    intro missing fault s t hcut
    cases ht : t.rest.dropWhile (· != 10) with
    | cons b bytes =>
      -- the line ends in front of the failure
      have hsdrop : s.rest.dropWhile (· != 10) = b :: (bytes ++ missing) := by
        rw [hcut.rest_eq, List.dropWhile_append, if_neg, ht, List.cons_append]
        rw [ht]
        simp
      have hstake : s.rest.takeWhile (· != 10) = t.rest.takeWhile (· != 10) := by
        have happend : s.rest.takeWhile (· != 10) ++ (b :: (bytes ++ missing)) =
            t.rest.takeWhile (· != 10) ++ (b :: (bytes ++ missing)) := by
          rw [← hsdrop, List.takeWhile_append_dropWhile, hsdrop, hcut.rest_eq, ← List.cons_append,
            ← ht, ← List.append_assoc, List.takeWhile_append_dropWhile]
        exact List.append_cancel_right happend
      simp only [line?, hsdrop, hstake, ht]
      refine .ok _ ⟨rfl, ?_, hcut.failure_eq, hcut.fault_eq⟩
      rw [hcut.position_eq]
    | nil =>
      have hfails : line? t = .error fault t.exhausted := by
        simp only [line?, ht, atEnd, hcut.fault_eq]
      rw [hfails]
      refine .fault ?_ hcut.exhausted
      have hsdrop : s.rest.dropWhile (· != 10) = missing.dropWhile (· != 10) := by
        rw [hcut.rest_eq, List.dropWhile_append, if_pos (by rw [ht]; rfl)]
      cases hmissing : missing.dropWhile (· != 10) with
      | nil =>
        simp only [line?, hsdrop, hmissing, atEnd, hcut.failure_eq]
        exact beyond_exhausted s
      | cons b bytes =>
        have hle := (List.dropWhile_sublist (l := missing) (· != 10)).length_le
        rw [hmissing, List.length_cons] at hle
        simp only [line?, hsdrop, hmissing]
        exact Or.inl hle

end Source

end Relayed

end CuttingPlanes
