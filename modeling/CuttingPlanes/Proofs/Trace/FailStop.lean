import CuttingPlanes.Proofs.CommandLine.Execution
import CuttingPlanes.Proofs.Trace.Auditing

/-!
# Verification stops at the first refusal

The steps that a reader delivers are numbered one after the other, so once a checker has
refused one, it refuses all behind it as out of order and stays as it is (`FailStop`). Thus
the accepted steps come first in the trace, and a trace is verified exactly when it is read
to its end, every step is accepted and the last one is a contradiction.
-/

namespace CuttingPlanes

/-- The verdicts on the steps of a trace of which the first `count` are accepted. The step
behind them is refused for a reason of its own, all later ones because that step is still
expected. From the first refusal on the checker is the one before the refused step. -/
structure FailStop (ss : List Step) (verdicts : List Verdict) (count : Nat) : Prop where
  length_eq : verdicts.length = ss.length
  accepted_eq : Checker.new.accepted ss = ss.take count
  accepted_iff : ∀ (k : Nat) (v : Verdict), verdicts[k]? = some v → (v.refusal = none ↔ k < count)
  outOfOrder : ∀ (k : Nat) (v : Verdict), verdicts[k]? = some v → count < k →
    v.refusal = some (.outOfOrder ⟨count⟩ ⟨k⟩)
  unchanged : ∀ (k : Nat) (v : Verdict), verdicts[k]? = some v → v.refusal ≠ none →
    ∀ (j : Nat) (later : Verdict), verdicts[j]? = some later → k ≤ j →
      (Checker.new :: verdicts.map Verdict.checker)[k]? = some later.checker

/-- The trace is read to its end, every step is accepted, and the last one is a
contradiction. -/
structure Reader.IsVerified (r : Reader) : Prop where
  ended : (Checker.new.audit r).2 = none
  accepted : ∀ v ∈ (Checker.new.audit r).1, v.refusal = none
  contradiction : ∃ s, r.delivered.getLast? = some s ∧ s.constraint.isContradiction = true

namespace Checker

variable {c d : Checker} {s : Step} {ss ts : List Step}

/-! ## Steps that are all accepted -/

theorem next_of_checkAll (h : c.checkAll ss = .ok () d) :
    d.next.index = c.next.index + ss.length := by
  induction ss generalizing c with
  | nil =>
    cases h
    rfl
  | cons s ss ih =>
    rw [checkAll] at h
    split at h
    · rename_i c' hcheck
      have hnext : c'.next.index = c.next.index + 1 := by rw [(next_of_check hcheck).2]; rfl
      rw [ih h, hnext, List.length_cons]
      omega
    · cases h

theorem next_of_checkAll_new (h : new.checkAll ss = .ok () d) : d.next = ⟨ss.length⟩ :=
  congrArg StepId.mk ((next_of_checkAll h).trans (Nat.zero_add _))

theorem accepted_of_checkAll (h : c.checkAll ss = .ok () d) (ts : List Step) :
    c.accepted (ss ++ ts) = ss ++ d.accepted ts := by
  induction ss generalizing c with
  | nil =>
    cases h
    rfl
  | cons s ss ih =>
    rw [checkAll] at h
    split at h
    · rename_i c' hcheck
      rw [List.cons_append, accepted, hcheck]
      exact congrArg (s :: ·) (ih h)
    · cases h

theorem checkAll_iff_judgeAll :
    (∃ d, c.checkAll ss = .ok () d) ↔ ∀ v ∈ c.judgeAll ss, v.refusal = none := by
  induction ss generalizing c with
  | nil => exact ⟨fun _ => nofun, fun _ => ⟨c, rfl⟩⟩
  | cons s ss ih =>
    rw [checkAll]
    cases hcheck : c.check s with
    | ok c' => rw [judgeAll_of_ok hcheck, List.forall_mem_cons, ← ih]; simp
    | error e => rw [judgeAll_of_error hcheck]; simp

/-- The checkers before and behind each step, of which the last is the one that is left. -/
theorem checkers_of_checkAll (h : c.checkAll ss = .ok () d) :
    ∃ before, before.length = ss.length ∧
      c :: (c.judgeAll ss).map Verdict.checker = before ++ [d] := by
  induction ss generalizing c with
  | nil =>
    cases h
    exact ⟨[], rfl, rfl⟩
  | cons s ss ih =>
    rw [checkAll] at h
    split at h
    · rename_i c' hcheck
      obtain ⟨before, hlength, hbefore⟩ := ih h
      refine ⟨c :: before, congrArg Nat.succ hlength, ?_⟩
      rw [judgeAll_of_ok hcheck, List.map_cons, hbefore, List.cons_append]
    · cases h

/-! ## The first refusal -/

theorem accepted_of_lt {n : Nat} (hlt : c.next.index < n) (hss : NumberedFrom n ss) :
    c.accepted ss = [] := by
  induction ss generalizing n with
  | nil => rfl
  | cons s ss ih =>
    obtain ⟨hid, hrest⟩ := numberedFrom_cons.mp hss
    have hne : s.id ≠ c.next := fun heq => by
      rw [heq] at hid
      omega
    rw [accepted, check_of_id_ne hne]
    exact ih (Nat.lt_succ_of_lt hlt) hrest

theorem failStop_of_checkAll (h : new.checkAll ss = .ok () d) :
    FailStop ss (new.judgeAll ss) ss.length where
  length_eq := length_judgeAll new ss
  accepted_eq := by
    have haccepted := accepted_of_checkAll h []
    rw [List.append_nil, accepted, List.append_nil] at haccepted
    exact haccepted.trans List.take_length.symm
  accepted_iff := by
    intro k v hv
    have hlt := (List.getElem?_eq_some_iff.mp hv).1
    rw [length_judgeAll] at hlt
    exact iff_of_true (checkAll_iff_judgeAll.mp ⟨d, h⟩ v (List.mem_of_getElem? hv)) hlt
  outOfOrder := by
    intro k v hv hlt
    have hlt' := (List.getElem?_eq_some_iff.mp hv).1
    rw [length_judgeAll] at hlt'
    omega
  unchanged := by
    intro k v hv hrefused
    exact absurd (checkAll_iff_judgeAll.mp ⟨d, h⟩ v (List.mem_of_getElem? hv)) hrefused

section Refused

variable {front back : List Step} {e : StepError}

/-- The verdicts when some first steps are accepted and the next is refused. -/
def verdictsUpTo (front : List Step) (d : Checker) (e : StepError) (back : List Step) :
    List Verdict :=
  new.judgeAll front ++ ⟨some e, d⟩ :: back.map fun t => ⟨some (.outOfOrder d.next t.id), d⟩

theorem verdict_cases {k : Nat} {v : Verdict} (s : Step)
    (hv : (verdictsUpTo front d e back)[k]? = some v) :
    (k < front.length ∧ v ∈ new.judgeAll front) ∨ (k = front.length ∧ v = ⟨some e, d⟩) ∨
      (front.length < k ∧ ∃ t, (front ++ s :: back)[k]? = some t ∧
        v = ⟨some (.outOfOrder d.next t.id), d⟩) := by
  rw [verdictsUpTo, List.getElem?_append, length_judgeAll] at hv
  split at hv
  · rename_i hlt
    exact Or.inl ⟨hlt, List.mem_of_getElem? hv⟩
  · rename_i hle
    refine Or.inr ?_
    rw [List.getElem?_append_right (Nat.le_of_not_lt hle)]
    cases hk : k - front.length with
    | zero =>
      rw [hk] at hv
      exact Or.inl ⟨by omega, (Option.some.inj hv).symm⟩
    | succ j =>
      rw [hk, List.getElem?_cons_succ, List.getElem?_map] at hv
      obtain ⟨t, ht, rfl⟩ := Option.map_eq_some_iff.mp hv
      exact Or.inr ⟨by omega, t, ht, rfl⟩

theorem checkers_verdictsUpTo (hfront : new.checkAll front = .ok () d) {k : Nat} {c : Checker}
    (hk : front.length ≤ k)
    (hc : (new :: (verdictsUpTo front d e back).map Verdict.checker)[k]? = some c) : c = d := by
  obtain ⟨before, hlength, hbefore⟩ := checkers_of_checkAll hfront
  have hsplit : new :: (verdictsUpTo front d e back).map Verdict.checker =
      before ++ List.replicate (back.length + 2) d := by
    rw [verdictsUpTo, List.map_append, ← List.cons_append, hbefore]
    simp [List.replicate_succ, Function.comp_def]
  rw [hsplit, List.getElem?_append_right (by omega)] at hc
  exact List.eq_of_mem_replicate (List.mem_of_getElem? hc)

theorem failStop_of_refused (hfront : new.checkAll front = .ok () d) (hs : d.check s = .error e)
    (hss : NumberedFrom 0 (front ++ s :: back)) :
    FailStop (front ++ s :: back) (verdictsUpTo front d e back) front.length where
  length_eq := by simp [verdictsUpTo, length_judgeAll]
  accepted_eq := by
    have hback : NumberedFrom (front.length + 1) back := by
      have hrest := (numberedFrom_cons.mp (numberedFrom_append.mp hss).2).2
      rwa [Nat.zero_add] at hrest
    have hlt : d.next.index < front.length + 1 := by
      rw [next_of_checkAll_new hfront]
      exact Nat.lt_succ_self _
    rw [accepted_of_checkAll hfront, accepted, hs, List.take_left' rfl]
    exact (congrArg (front ++ ·) (accepted_of_lt hlt hback)).trans (List.append_nil front)
  accepted_iff := by
    intro k v hv
    obtain ⟨hlt, hmem⟩ | ⟨rfl, rfl⟩ | ⟨hlt, t, -, rfl⟩ := verdict_cases s hv
    · exact iff_of_true (checkAll_iff_judgeAll.mp ⟨d, hfront⟩ v hmem) hlt
    · exact iff_of_false (Option.some_ne_none _) (Nat.lt_irrefl _)
    · exact iff_of_false (Option.some_ne_none _) (Nat.lt_asymm hlt)
  outOfOrder := by
    intro k v hv hlt
    obtain ⟨hlt', -⟩ | ⟨rfl, -⟩ | ⟨-, t, ht, rfl⟩ := verdict_cases s hv
    · exact absurd hlt' (Nat.lt_asymm hlt)
    · exact absurd hlt (Nat.lt_irrefl _)
    · rw [next_of_checkAll_new hfront, hss.id_eq ht, Nat.zero_add]
  unchanged := by
    intro k v hv hrefused j later hlater hle
    have hk : front.length ≤ k := by
      obtain ⟨-, hmem⟩ | ⟨rfl, -⟩ | ⟨hlt, -⟩ := verdict_cases s hv
      · exact absurd (checkAll_iff_judgeAll.mp ⟨d, hfront⟩ v hmem) hrefused
      · exact Nat.le_refl _
      · exact Nat.le_of_lt hlt
    have hbehind : (new :: (verdictsUpTo front d e back).map Verdict.checker)[j + 1]? =
        some later.checker := by
      rw [List.getElem?_cons_succ, List.getElem?_map, hlater, Option.map_some]
    have hlt : k < (new :: (verdictsUpTo front d e back).map Verdict.checker).length := by
      have hlt := (List.getElem?_eq_some_iff.mp hv).1
      rw [List.length_cons, List.length_map]
      exact Nat.lt_succ_of_lt hlt
    rw [checkers_verdictsUpTo hfront (Nat.le_trans hk (Nat.le_succ_of_le hle)) hbehind]
    have hbefore := List.getElem?_eq_getElem hlt
    rw [hbefore, checkers_verdictsUpTo hfront hk hbefore]

end Refused

/-- Steps that are numbered from the first on are judged up to the first refusal. -/
theorem exists_failStop (hss : NumberedFrom 0 ss) :
    ∃ count, FailStop ss (new.judgeAll ss) count := by
  obtain ⟨d, hd⟩ | ⟨front, s, back, d, e, rfl, hfront, hs, hverdicts⟩ := judgeAll_cases (c := new) hss
  · exact ⟨ss.length, failStop_of_checkAll hd⟩
  · rw [hverdicts]
    exact ⟨front.length, failStop_of_refused hfront hs hss⟩

end Checker

/-- The conditions on a trace are those under which the checker comes to its verdict. -/
theorem Reader.isVerified_iff {r : Reader} :
    r.IsVerified ↔ ∃ c, Checker.new.verify r = .ok () c ∧ c.concludesContradiction = true := by
  have hlast {c : Checker} (hend : r.records.2 = none)
      (hall : Checker.new.checkAll (stepsOf r.records.1) = .ok () c) :
      c.concludesContradiction = true ↔
        ∃ s, r.delivered.getLast? = some s ∧ s.constraint.isContradiction = true := by
    obtain ⟨later, hdelivered, hnil⟩ := r.exists_delivered_eq
    rw [hdelivered, hnil hend, List.append_nil]
    exact (Checker.hasAccepted_of_checkAll Checker.hasAccepted_new hall).concludesContradiction_iff
  constructor
  · rintro ⟨hend, haccepted, hcontra⟩
    rw [Checker.audit_eq] at hend haccepted
    obtain ⟨c, hall⟩ := Checker.checkAll_iff_judgeAll.mpr haccepted
    exact ⟨c, Checker.verify_eq_ok_iff.mpr ⟨hend, hall⟩, (hlast hend hall).mpr hcontra⟩
  · rintro ⟨c, hverify, hcontra⟩
    obtain ⟨hend, hall⟩ := Checker.verify_eq_ok_iff.mp hverify
    have haccepted := Checker.checkAll_iff_judgeAll.mp ⟨c, hall⟩
    refine ⟨?_, ?_, (hlast hend hall).mp hcontra⟩
    · rw [Checker.audit_eq]
      exact hend
    · rw [Checker.audit_eq]
      exact haccepted

/-- The first refused step of a trace is the one that all later steps are refused for, and
it leaves the checker as it was for good. This holds of all the steps that a reader delivers,
those behind its errors too, of which an audit sees the ones up to the first error. So the
command says that a trace is verified exactly when it is read to its end, no step is
refused and the last step is a contradiction. -/
theorem verification_failStop (format : Format) (source : Source) :
    let r := Reader.new format source
    (∃ count, FailStop r.delivered (Checker.new.judgeAll r.delivered) count) ∧
    (∃ later, Checker.new.judgeAll r.delivered = (Checker.new.audit r).1 ++ later ∧
      ((Checker.new.audit r).2 = none → later = [])) ∧
    ∀ (verbose : Bool) (path : Path) (file : Source),
      let trace := Reader.new format (Command.traceOfFile path file)
      let outcome := Invocation.run ⟨verbose, .verify path format⟩ (.ok file)
      (trace.IsVerified →
        outcome.status = 0 ∧ outcome.output = Text.encode "s VERIFIED\n".toList) ∧
      (¬trace.IsVerified → outcome.status = 1 ∧ outcome.output = []) := by
  intro r
  refine ⟨Checker.exists_failStop r.numberedFrom_delivered, ?_, ?_⟩
  · obtain ⟨later, hdelivered, hnil⟩ := r.exists_delivered_eq
    obtain ⟨d, hjudge⟩ := Checker.judgeAll_append .new (stepsOf r.records.1) later
    refine ⟨d.judgeAll later, ?_, fun hend => ?_⟩
    · rw [hdelivered, hjudge, Checker.audit_eq]
    · rw [Checker.audit_eq] at hend
      rw [hnil hend]
      rfl
  · intro verbose path file trace outcome
    constructor
    · intro hverified
      obtain ⟨c, hverify, hcontra⟩ := Reader.isVerified_iff.mp hverified
      exact Invocation.run_verify_of_ok verbose hverify hcontra
    · intro hnot
      refine Invocation.run_verify_of_not verbose fun c hverify => ?_
      by_contra hcontra
      rw [Bool.not_eq_false] at hcontra
      exact hnot (Reader.isVerified_iff.mpr ⟨c, hverify, hcontra⟩)

end CuttingPlanes
