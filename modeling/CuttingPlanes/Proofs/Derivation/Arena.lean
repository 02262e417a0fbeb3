import CuttingPlanes.Proofs.Derivation.Asking

/-!
# What a derivation knows

On any writer, and however its requests end, a derivation knows exactly the steps that have
been recorded since it was started, each under the number that the writer has given it
(`ArenaLaw`). A request that fails adds no step, but for a sum of many steps, which keeps
the merges before the one that fails, and no request is refused for a dangling hint
(`FailureLaw`).
-/

namespace CuttingPlanes.Derivation

open Actions Writer

variable {w : Writer} {ops : List Operation} {d d' d₁ : Derivation} {left right id : StepId}
  {e : DerivationError} {c : Constraint} {kind : StepKind} {hints queue rest : List StepId}
  {merged more : List Step}

/-- The second derivation is the first one with the given derived steps, as far as its
constraints, its numbers and its counts go. -/
structure AddsOnly (d : Derivation) (merged : List Step) (d' : Derivation) : Prop where
  first_eq : d'.first = d.first
  known_eq : d'.known.toList = d.known.toList ++ merged.map Step.constraint
  numbered : NumberedFrom d.writer.next.index merged
  next_eq : d'.writer.next.index = d.writer.next.index + merged.length
  counts_eq : d'.writer.counts =
    { d.writer.counts with derived := d.writer.counts.derived + merged.length }

theorem addsOnly_nil (hfirst : d'.first = d.first) (hknown : d'.known = d.known)
    (hnext : d'.writer.next = d.writer.next) (hcounts : d'.writer.counts = d.writer.counts) :
    AddsOnly d [] d' where
  first_eq := hfirst
  known_eq := by rw [hknown, List.map_nil, List.append_nil]
  numbered := rfl
  next_eq := congrArg StepId.index hnext
  counts_eq := hcounts

theorem AddsOnly.trans (h : AddsOnly d merged d₁) (h' : AddsOnly d₁ more d') :
    AddsOnly d (merged ++ more) d' where
  first_eq := h'.first_eq.trans h.first_eq
  known_eq := by rw [h'.known_eq, h.known_eq, List.map_append, List.append_assoc]
  numbered := by
    have hmore := h'.numbered
    rw [h.next_eq] at hmore
    exact numberedFrom_append.mpr ⟨h.numbered, hmore⟩
  next_eq := by rw [h'.next_eq, h.next_eq, List.length_append, Nat.add_assoc]
  counts_eq := by rw [h'.counts_eq, h.counts_eq, List.length_append, Nat.add_assoc]

/-! ## One step -/

theorem recordKnown_eq_ok (h : recordKnown kind c hints d = .ok id d') :
    ∃ o, id = d.writer.next ∧
      d' = ⟨(d.writer.withOutlet o).numberRecord (.step ⟨d.writer.next, kind, c, hints⟩),
        d.first, d.known.push c⟩ := by
  obtain ⟨o, hrecord⟩ | ⟨e, o, hrecord, -⟩ := record_cases d.writer kind c hints
  · rw [recordKnown_of_ok hrecord] at h
    cases h
    exact ⟨o, rfl, rfl⟩
  · rw [recordKnown_of_error hrecord] at h
    cases h

theorem recordKnown_eq_error (h : recordKnown kind c hints d = .error e d') :
    AddsOnly d [] d' ∧
      ∀ step hint, e = .write (.danglingHint step hint) → hint ∈ hints ∧ d.writer.next ≤ hint := by
  obtain ⟨o, hrecord⟩ | ⟨e', o, hrecord, hdangling⟩ := record_cases d.writer kind c hints
  · rw [recordKnown_of_ok hrecord] at h
    cases h
  · rw [recordKnown_of_error hrecord] at h
    cases h
    refine ⟨addsOnly_nil rfl rfl rfl rfl, fun step hint he => ?_⟩
    cases he
    exact hdangling step hint rfl

theorem add_eq_ok (h : add left right d = .ok id d') :
    ∃ c, d.sumOf left right = .ok c ∧ id = d.writer.next ∧
      AddsOnly d [⟨id, .derived, c, [left, right]⟩] d' := by
  cases hsumOf : d.sumOf left right with
  | error e =>
    rw [add_of_sumOf_error hsumOf] at h
    cases h
  | ok c =>
    rw [add_of_sumOf_ok hsumOf] at h
    obtain ⟨o, rfl, rfl⟩ := recordKnown_eq_ok h
    refine ⟨c, rfl, rfl, rfl, Array.toList_push, ?_, rfl, rfl⟩
    exact numberedFrom_cons.mpr ⟨rfl, numberedFrom_nil _⟩

theorem add_eq_error (h : add left right d = .error e d') : AddsOnly d [] d' := by
  cases hsumOf : d.sumOf left right with
  | error e' =>
    rw [add_of_sumOf_error hsumOf] at h
    cases h
    exact addsOnly_nil rfl rfl rfl rfl
  | ok c =>
    rw [add_of_sumOf_ok hsumOf] at h
    obtain ⟨hfirst, hknown, -, hnext, hcounts⟩ := (recordKnown_eq_error h).1
    exact ⟨hfirst, hknown, numberedFrom_nil _, hnext, hcounts⟩

theorem comment_eq_error {text : String} (h : comment text d = .error e d') :
    AddsOnly d [] d' ∧ ∀ step hint, e ≠ .write (.danglingHint step hint) := by
  obtain ⟨o, hcomment⟩ | ⟨e', o, hcomment, hdangling⟩ := comment_cases d.writer text
  · rw [comment, onWriter_of_ok hcomment] at h
    cases h
  · rw [comment, onWriter_of_error hcomment] at h
    cases h
    refine ⟨addsOnly_nil rfl rfl rfl rfl, fun step hint he => ?_⟩
    cases he
    exact hdangling step hint rfl

/-- The hints of a sum are known, so they come before it. -/
theorem HasAsked.not_dangling_add (h : HasAsked w ops d)
    (hadd : Derivation.add left right d = .error e d')
    (step hint : StepId) : e ≠ .write (.danglingHint step hint) := by
  cases hsumOf : d.sumOf left right with
  | error e' =>
    rw [add_of_sumOf_error hsumOf] at hadd
    cases hadd
    rintro rfl
    unfold sumOf at hsumOf
    split at hsumOf
    · cases hsumOf
    · cases hsumOf
    · split at hsumOf <;> cases hsumOf
  | ok c =>
    obtain ⟨l, r, hl, hr, -⟩ := sumOf_eq_ok hsumOf
    rw [add_of_sumOf_ok hsumOf] at hadd
    intro he
    obtain ⟨hmem, hle⟩ := (recordKnown_eq_error hadd).2 step hint he
    have hlt : hint.index < d.writer.next.index := by
      rcases List.mem_pair.mp hmem with rfl | rfl
      · exact (h.exists_constraint?_iff.mp ⟨l, hl⟩).2
      · exact (h.exists_constraint?_iff.mp ⟨r, hr⟩).2
    exact absurd hle (Nat.not_le.mpr hlt)

/-! ## Sums of many steps -/

/-- Merges at the front of a queue that have all been recorded: each takes two steps from
the queue, and their sum goes to its end. -/
inductive Merges : Derivation → List StepId → List Step → Derivation → List StepId → Prop
  | nil (d : Derivation) (queue : List StepId) : Merges d queue [] d queue
  | cons {d d₁ d' : Derivation} {left right id : StepId} {c : Constraint}
      {queue rest : List StepId} {merged : List Step} (hsum : d.sumOf left right = .ok c)
      (hadd : add left right d = .ok id d₁) (hmerges : Merges d₁ (queue ++ [id]) merged d' rest) :
      Merges d (left :: right :: queue) (⟨id, .derived, c, [left, right]⟩ :: merged) d' rest

theorem Merges.addsOnly (h : Merges d queue merged d' rest) : AddsOnly d merged d' := by
  induction h with
  | nil d queue => exact addsOnly_nil rfl rfl rfl rfl
  | @cons d d₁ d' left right id c queue rest merged hsum hadd _ ih =>
    obtain ⟨c', hsum', -, hfirst⟩ := add_eq_ok hadd
    rw [hsum] at hsum'
    cases hsum'
    exact hfirst.trans ih

theorem Merges.hasAsked (h : Merges d queue merged d' rest) (hasked : HasAsked w ops d) :
    ∃ ops', HasAsked w ops' d' := by
  induction h generalizing ops with
  | nil d queue => exact ⟨ops, hasked⟩
  | cons hsum hadd _ ih => exact ih ((leaves_of_ok hadd).mp (hasked.add _ _))

/-- A sum that fails has come to a merge that fails. -/
theorem exists_merges_of_sum_error (h : sum queue d = .error e d') :
    ∃ merged d₁ left right rest, Merges d queue merged d₁ (left :: right :: rest) ∧
      add left right d₁ = .error e d' := by
  fun_induction sum queue generalizing d with
  | case1 => cases h
  | case2 step => cases h
  | case3 left right queue ih =>
    cases hadd : add left right d with
    | ok step d₂ =>
      rw [bind_of_ok hadd] at h
      obtain ⟨merged, d₁, left', right', rest, hmerges, hfails⟩ := ih step h
      obtain ⟨c, hsum, -⟩ := add_eq_ok hadd
      exact ⟨_, d₁, left', right', rest, .cons hsum hadd hmerges, hfails⟩
    | error e' d₂ =>
      rw [bind_of_error hadd] at h
      cases h
      exact ⟨[], d, left, right, queue, .nil d _, hadd⟩

/-! ## The laws -/

/-- The steps that have been recorded since a derivation was started on a writer, and what
the derivation says about all numbers. -/
structure ArenaLaw (w : Writer) (steps : List Step) (d : Derivation) : Prop where
  numbered : NumberedFrom w.next.index steps
  next_eq : d.writer.next.index = w.next.index + steps.length
  known_iff : ∀ id, (∃ c, constraint id d = .ok c d) ↔
    w.next ≤ id ∧ id.index < d.writer.next.index
  recorded : ∀ s ∈ steps, constraint s.id d = .ok s.constraint d
  unknown : ∀ id, ¬(w.next ≤ id ∧ id.index < d.writer.next.index) →
    constraint id d = .error (.unknownStep id) d
  sums : ∀ s ∈ steps, s.kind = .derived → ∃ left right l r, s.hints = [left, right] ∧
    constraint left d = .ok l d ∧ constraint right d = .ok r d ∧ l.add r = .ok s.constraint

/-- What is left when a request fails. -/
structure FailureLaw (d : Derivation) : Prop where
  unchanged : ∀ request e d', perform request d = .error e d' →
    (∀ queue, request ≠ .sum queue) → AddsOnly d [] d'
  sum : ∀ queue e d', perform (.sum queue) d = .error e d' →
    ∃ merged d₁ left right rest, Merges d queue merged d₁ (left :: right :: rest) ∧
      add left right d₁ = .error e d' ∧ AddsOnly d merged d'
  not_dangling : ∀ request e d', perform request d = .error e d' →
    ∀ step hint, e ≠ .write (.danglingHint step hint)

theorem exists_constraint_iff {id : StepId} :
    (∃ c, constraint id d = .ok c d) ↔ ∃ c, d.constraint? id = some c := by
  unfold constraint
  cases d.constraint? id <;> simp

theorem HasAsked.arenaLaw (h : HasAsked w ops d) :
    ArenaLaw w (stepsOf (w.runAll ops).1) d where
  numbered := h.numbered
  next_eq := h.next_eq
  known_iff id := exists_constraint_iff.trans h.exists_constraint?_iff
  recorded s hs := constraint_of_some (h.constraint?_eq_some_iff.mpr ⟨s, hs, rfl, rfl⟩)
  unknown := by
    intro id hid
    cases hc : d.constraint? id with
    | none => exact constraint_of_none hc
    | some c => exact absurd (h.exists_constraint?_iff.mp ⟨c, hc⟩) hid
  sums := by
    intro s hs hkind
    obtain ⟨left, right, l, r, hhints, hl, hr, hsum⟩ := h.sums s hs hkind
    exact ⟨left, right, l, r, hhints, constraint_of_some hl, constraint_of_some hr, hsum⟩

theorem discard_eq_error {α : Type} {act : EStateM DerivationError Derivation α}
    (h : discard act d = .error e d') : act d = .error e d' := by
  have hdiscard : discard act = act >>= fun _ => pure () := rfl
  rw [hdiscard] at h
  cases hrun : act d with
  | ok a d₁ =>
    rw [bind_of_ok hrun] at h
    cases h
  | error e₁ d₁ =>
    rw [bind_of_error hrun] at h
    cases h
    rfl

theorem HasAsked.failureLaw (h : HasAsked w ops d) : FailureLaw d where
  unchanged := by
    intro request e d' hfails hne
    cases request with
    | input c => exact (recordKnown_eq_error (discard_eq_error hfails)).1
    | add left right => exact add_eq_error (discard_eq_error hfails)
    | sum queue => exact absurd rfl (hne queue)
    | comment text => exact (comment_eq_error hfails).1
  sum := by
    intro queue e d' hfails
    obtain ⟨merged, d₁, left, right, rest, hmerges, hadd⟩ :=
      exists_merges_of_sum_error (discard_eq_error hfails)
    have hadds := hmerges.addsOnly.trans (add_eq_error hadd)
    rw [List.append_nil] at hadds
    exact ⟨merged, d₁, left, right, rest, hmerges, hadd, hadds⟩
  not_dangling := by
    intro request e d' hfails step hint
    cases request with
    | input c =>
      intro he
      obtain ⟨hmem, -⟩ := (recordKnown_eq_error (discard_eq_error hfails)).2 step hint he
      cases hmem
    | add left right => exact h.not_dangling_add (discard_eq_error hfails) step hint
    | sum queue =>
      obtain ⟨merged, d₁, left, right, rest, hmerges, hadd⟩ :=
        exists_merges_of_sum_error (discard_eq_error hfails)
      obtain ⟨ops', h'⟩ := hmerges.hasAsked h
      exact h'.not_dangling_add hadd step hint
    | comment text => exact (comment_eq_error hfails).2 step hint

/-- Whatever the writer that a derivation is started on, and whatever is requested of it and
fails: its writer is where the operations that the requests come down to leave a writer,
and what it knows are the steps that were recorded on the way. -/
theorem arena_law (w : Writer) (requests : List Request) :
    let d := (start w).runAll requests
    let run := w.runAll ((start w).opsOfAll requests)
    d.writer.Agrees run.2 ∧ ArenaLaw w (stepsOf run.1) d ∧ FailureLaw d := by
  have h := hasAsked_runAll w requests
  exact ⟨h.writer_agrees, h.arenaLaw, h.failureLaw⟩

end CuttingPlanes.Derivation
