import CuttingPlanes.Proofs.Pigeonhole.Constraints

/-!
# The refutation of a pigeonhole instance

Recording an instance and summing its constraints succeeds on every sink that does
not fail, whatever the size of the instance: the inputs are lines of the table of
variables, the two sums exist because lines are light, and the last sum has no terms
left and the bound `pigeons - holes`.
-/

namespace CuttingPlanes

/-- All of the records are inputs, with the given constraints. -/
structure AllInputs (records : List Record) (cs : List Constraint) : Prop where
  inputsOf_eq : inputsOf records = cs
  countsOf_eq : countsOf records = ⟨cs.length, 0, 0⟩
  comment_notMem : ∀ text, .comment text ∉ records

namespace Pigeonhole

open Actions Writer Constraint CuttingPlanes.Derivation

variable {sink : Sink} {format : Format} {records : List Record} {d : Derivation}

theorem inputs_succeed {ι : Type} {xs : List ι} {cs : List Constraint}
    {f : ι → Except ConstraintError Constraint}
    (hf : List.Forall₂ (fun x c => f x = .ok c) xs cs) (h : HasDerived sink format records d) :
    Succeeds (xs.mapM fun x => Pigeonhole.input (f x)) d fun ids d' =>
      ∃ more, HasDerived sink format (records ++ more) d' ∧ AllInputs more cs ∧
        d'.Knows ids cs := by
  induction hf generalizing d records with
  | nil => exact .pure ⟨[], by simpa using h, ⟨rfl, rfl, by simp⟩, .nil⟩
  | @cons x c xs cs hx _ ih =>
    rw [List.mapM_cons]
    have hinput : Pigeonhole.input (f x) = Derivation.input c := by rw [hx]; rfl
    rw [hinput]
    refine (input_succeeds h c).bind fun id d₁ ⟨hid, h₁⟩ => ?_
    have hlast : d₁.constraint? id = some c := h₁.constraint?_last hid
    refine (ih h₁).bind fun ids d₂ ⟨more, h₂, hmore, hknows⟩ => .pure ?_
    refine ⟨.step ⟨id, .input, c, []⟩ :: more, by simpa using h₂, ⟨?_, ?_, ?_⟩, ?_⟩
    · simp [hmore.inputsOf_eq]
    · simp [hmore.countsOf_eq, Counts.addStep]
    · simp [hmore.comment_notMem]
    · exact .cons (h₁.constraint?_of_append h₂ hlast) hknows

theorem sumSome_succeeds {r : Relation} {queue : List StepId} {cs : List Constraint}
    (h : HasDerived sink format records d) (hknown : d.Knows queue cs) (hne : queue ≠ [])
    (hsum : Summable r cs) :
    Succeeds (sumSome queue) d fun id d' =>
      ∃ more c, HasSummed sink format records r cs id d' more c := by
  refine (sum_succeeds h hknown hne hsum).bind ?_
  rintro - d' ⟨id, more, c, rfl, hsummed⟩
  exact .pure ⟨more, c, hsummed⟩

/-- Sums of rows and of columns have a sum, in which nothing is left but the bound. -/
theorem exists_total {p : Pigeonhole} {rows columns : List Constraint} {c d : Constraint}
    (hrows : Lines 1 p.row (List.finRange p.pigeons) rows)
    (hcolumns : Lines (-1) p.column (List.finRange p.holes) columns)
    (hc : c.IsSumOf rows) (hd : d.IsSumOf columns) (hcr : c.relation = .atLeast)
    (hdr : d.relation = .atLeast) (hcred : c.form.Reduced) (hdred : d.form.Reduced) :
    ∃ s, c.add d = .ok s ∧ s.form.terms = [] ∧ s.relation = .atLeast ∧
      s.bound.toInt = p.pigeons - p.holes := by
  have hcoeff (v : Variable) : c.form.coeff v + d.form.coeff v = 0 := by
    rw [hc.coeff, hd.coeff]
    exact coeff_sum_add_coeff_sum hrows hcolumns v
  have hbound : c.bound.toInt + d.bound.toInt = p.pigeons - p.holes := by
    rw [hc.bound, hd.bound, hrows.sum_bound, hcolumns.sum_bound, toInt_one, toInt_neg_one]
    simp only [List.length_finRange]
    ring
  have hholes := p.holes_lt
  have hpigeons := p.pigeons_lt
  obtain ⟨s, hs⟩ := exists_add (c := c) (d := d) (hcr.trans hdr.symm)
    (fun v => by rw [hcoeff v]; omega) (by rw [hbound]; omega)
  obtain ⟨-, hsr, hform, hsb⟩ := add_eq_ok_iff.mp hs
  refine ⟨s, hs, ?_, hsr.trans hcr, hsb.trans hbound⟩
  apply LinearForm.terms_eq_nil (LinearForm.reduced_add hcred hdred hform)
  intro v
  rw [LinearForm.coeff_add hform, hcoeff]

theorem exists_rows (p : Pigeonhole) :
    ∃ rows, List.Forall₂ (fun j c => p.pigeonConstraint j = .ok c) (List.finRange p.pigeons) rows ∧
      Lines 1 p.row (List.finRange p.pigeons) rows := by
  choose f hf hline using p.exists_pigeonConstraint
  refine ⟨(List.finRange p.pigeons).map f, ?_, ?_⟩
  · exact List.forall₂_map_right_iff.mpr (List.forall₂_same.mpr fun j _ => hf j)
  · exact List.forall₂_map_right_iff.mpr (List.forall₂_same.mpr fun j _ => hline j)

theorem exists_columns (p : Pigeonhole) :
    ∃ columns,
      List.Forall₂ (fun i c => p.holeConstraint i = .ok c) (List.finRange p.holes) columns ∧
      Lines (-1) p.column (List.finRange p.holes) columns := by
  choose f hf hline using p.exists_holeConstraint
  refine ⟨(List.finRange p.holes).map f, ?_, ?_⟩
  · exact List.forall₂_map_right_iff.mpr (List.forall₂_same.mpr fun i _ => hf i)
  · exact List.forall₂_map_right_iff.mpr (List.forall₂_same.mpr fun i _ => hline i)

/-! ## The run -/

/-- The texts that stand before the instance. -/
def heading (p : Pigeonhole) : List String :=
  [s!"pigeonhole {p.holes} holes {p.pigeons} pigeons",
    "pigeon j in hole i is variable (j - 1) * holes + i"]

/-- Record the instance, and give the steps of the pigeons and of the holes. -/
def recordInstance (p : Pigeonhole) :
    EStateM DerivationError Derivation (List StepId × List StepId) := do
  Derivation.comment s!"pigeonhole {p.holes} holes {p.pigeons} pigeons"
  Derivation.comment "pigeon j in hole i is variable (j - 1) * holes + i"
  let pigeonSteps ← (List.finRange p.pigeons).mapM fun j => Pigeonhole.input (p.pigeonConstraint j)
  let holeSteps ← (List.finRange p.holes).mapM fun i => Pigeonhole.input (p.holeConstraint i)
  return (pigeonSteps, holeSteps)

/-- Sum the instance. -/
def sumInstance (steps : List StepId × List StepId) :
    EStateM DerivationError Derivation StepId := do
  let allPigeons ← sumSome steps.1
  Derivation.note (.summedPigeons allPigeons)
  let allHoles ← sumSome steps.2
  Derivation.note (.summedHoles allHoles)
  Derivation.add allPigeons allHoles

/-- Seal the trace behind its last step. -/
def conclude (last : StepId) : EStateM DerivationError Derivation Refutation := do
  let constraint ← Derivation.constraint last
  Derivation.finish
  Derivation.onWriter Writer.close
  return ⟨last, constraint, (← get).writer.counts⟩

theorem derive_eq (p : Pigeonhole) :
    p.derive =
      p.recordInstance >>= fun steps => sumInstance steps >>= fun last => conclude last := by
  simp only [derive, recordInstance, sumInstance, conclude, bind_assoc, pure_bind]

/-- The records are those of an instance, whose constraints are lines of the table. -/
structure HasInstance (p : Pigeonhole) (records : List Record) (rows columns : List Constraint) :
    Prop where
  rowLines : Lines 1 p.row (List.finRange p.pigeons) rows
  columnLines : Lines (-1) p.column (List.finRange p.holes) columns
  inputsOf_eq : inputsOf records = rows ++ columns
  countsOf_eq : countsOf records = ⟨p.pigeons + p.holes, 0, 2⟩
  comments : ∀ text, .comment text ∈ records → text ∈ p.heading

theorem recordInstance_succeeds (p : Pigeonhole) (format : Format) {sink : Sink}
    (h : sink.Reliable) :
    Succeeds p.recordInstance (start (new format sink)) fun steps d =>
      ∃ records rows columns, HasDerived sink format records d ∧
        p.HasInstance records rows columns ∧ d.Knows steps.1 rows ∧ d.Knows steps.2 columns := by
  obtain ⟨rows, hrows, hrowLines⟩ := p.exists_rows
  obtain ⟨columns, hcolumns, hcolumnLines⟩ := p.exists_columns
  refine (comment_succeeds (hasDerived_start format h) _).bind fun _ d₁ h₁ => ?_
  refine (comment_succeeds h₁ _).bind fun _ d₂ h₂ => ?_
  refine (inputs_succeed hrows h₂).bind fun ids d₃ ⟨more, h₃, hmore, hknows⟩ => ?_
  refine (inputs_succeed hcolumns h₃).bind fun ids' d₄ ⟨more', h₄, hmore', hknows'⟩ => ?_
  refine .pure ⟨_, rows, columns, h₄, ?_, Knows.of_append h₃ h₄ hknows, hknows'⟩
  have hrowCount : rows.length = p.pigeons := by simpa using hrowLines.length_eq.symm
  have hcolumnCount : columns.length = p.holes := by simpa using hcolumnLines.length_eq.symm
  refine ⟨hrowLines, hcolumnLines, ?_, ?_, ?_⟩
  · simp [hmore.inputsOf_eq, hmore'.inputsOf_eq]
  · simp [countsOf_append, hmore.countsOf_eq, hmore'.countsOf_eq, hrowCount, hcolumnCount,
      Counts.addComment]
  · intro text htext
    simpa [hmore.comment_notMem, hmore'.comment_notMem, heading] using htext

theorem HasInstance.rows_length {p : Pigeonhole} {rows columns : List Constraint}
    (h : p.HasInstance records rows columns) : rows.length = p.pigeons := by
  simpa using h.rowLines.length_eq.symm

theorem HasInstance.columns_length {p : Pigeonhole} {rows columns : List Constraint}
    (h : p.HasInstance records rows columns) : columns.length = p.holes := by
  simpa using h.columnLines.length_eq.symm

/-- The instance has been summed: the last step is derived, as are the steps between it
and the instance, and its constraint has only a bound left. -/
structure HasTotal (p : Pigeonhole) (records : List Record) (last : Step) : Prop where
  records_eq : ∃ before between, records = before ++ between ++ [.step last] ∧
    AllDerived between ∧ between.length + 2 = p.pigeons + p.holes ∧
    last.id.index = (stepsOf (before ++ between)).length ∧
    ∃ rows columns, p.HasInstance before rows columns
  kind_eq : last.kind = .derived
  terms_eq : last.constraint.form.terms = []
  relation_eq : last.constraint.relation = .atLeast
  bound_eq : last.constraint.bound.toInt = p.pigeons - p.holes

theorem sumInstance_succeeds {p : Pigeonhole} {rows columns : List Constraint}
    {steps : List StepId × List StepId} (h : HasDerived sink format records d)
    (hinst : p.HasInstance records rows columns) (hrows : d.Knows steps.1 rows)
    (hcolumns : d.Knows steps.2 columns) :
    Succeeds (sumInstance steps) d fun id d' => ∃ records last,
      HasDerived sink format records d' ∧ p.HasTotal records last ∧ id = last.id ∧
        d'.constraint? id = some last.constraint := by
  have hrowCount := hinst.rows_length
  have hcolumnCount := hinst.columns_length
  have hne : steps.1 ≠ [] := by
    apply List.ne_nil_of_length_pos
    have := p.pigeons_pos
    rwa [hrows.length_eq, hrowCount]
  have hne' : steps.2 ≠ [] := by
    apply List.ne_nil_of_length_pos
    have := p.holes_pos
    rwa [hcolumns.length_eq, hcolumnCount]
  have hlight := hinst.rowLines.summable (by decide) (by simpa using p.pigeons_lt)
  have hlight' := hinst.columnLines.summable (by decide) (by simpa using p.holes_lt)
  refine (sumSome_succeeds h hrows hne hlight).bind fun all d₁ ⟨more, c, h₁⟩ => ?_
  refine (note_succeeds h₁.derived _).bind fun _ d₂ h₂ => ?_
  have hcolumns₂ : d₂.Knows steps.2 columns := Knows.of_append h h₂ hcolumns
  refine (sumSome_succeeds h₂ hcolumns₂ hne' hlight').bind fun all' d₃ ⟨more', c', h₃⟩ => ?_
  refine (note_succeeds h₃.derived _).bind fun _ d₄ h₄ => ?_
  -- the two sums cancel
  obtain ⟨s, hs, hterms, hrelation, hbound⟩ := exists_total hinst.rowLines hinst.columnLines
    h₁.isSum h₃.isSum h₁.relation h₃.relation h₁.reduced h₃.reduced
  have hleft := h₁.derived.constraint?_of_append h₄ h₁.known
  have hright : d₄.constraint? all' = some c' := by
    rw [← List.append_nil (records ++ more ++ more')] at h₄
    exact h₃.derived.constraint?_of_append h₄ h₃.known
  refine (add_succeeds h₄ hleft hright hs).mono fun id d₅ ⟨hid, h₅⟩ => ?_
  refine ⟨_, ⟨id, .derived, s, [all, all']⟩, h₅, ?_, rfl, h₅.constraint?_last hid⟩
  refine ⟨⟨records, more ++ more', by simp, ?_, ?_, ?_, rows, columns, hinst⟩, rfl, hterms,
    hrelation, hbound⟩
  · intro r hr
    rcases List.mem_append.mp hr with hr | hr
    · exact h₁.allDerived r hr
    · exact h₃.allDerived r hr
  · have hfirst := h₁.length_eq
    have hsecond := h₃.length_eq
    rw [List.length_append]
    omega
  · rw [hid, List.append_assoc]

theorem HasTotal.countsOf_eq {p : Pigeonhole} {last : Step} (h : p.HasTotal records last) :
    countsOf records = ⟨p.pigeons + p.holes, p.pigeons + p.holes - 1, 2⟩ := by
  obtain ⟨before, between, rfl, hderived, hlength, -, rows, columns, hinst⟩ := h.records_eq
  have hsteps : between.length + 1 = p.pigeons + p.holes - 1 := by omega
  simp [countsOf_append, hinst.countsOf_eq, hderived.countsOf_eq, h.kind_eq, Counts.addStep,
    Counts.none, hsteps]

theorem HasTotal.inputs {p : Pigeonhole} {last : Step} (h : p.HasTotal records last) :
    ∃ rows columns, Lines 1 p.row (List.finRange p.pigeons) rows ∧
      Lines (-1) p.column (List.finRange p.holes) columns ∧
      inputsOf records = rows ++ columns := by
  obtain ⟨before, between, rfl, hderived, -, -, rows, columns, hinst⟩ := h.records_eq
  refine ⟨rows, columns, hinst.rowLines, hinst.columnLines, ?_⟩
  simp [hinst.inputsOf_eq, hderived.inputsOf_eq, h.kind_eq]

theorem HasTotal.comments {p : Pigeonhole} {last : Step} (h : p.HasTotal records last)
    {text : String} (htext : .comment text ∈ records) : text ∈ p.heading := by
  obtain ⟨before, between, rfl, hderived, -, -, rows, columns, hinst⟩ := h.records_eq
  simp only [List.mem_append, List.mem_singleton, reduceCtorEq, or_false,
    hderived.comment_notMem] at htext
  exact hinst.comments text htext

theorem HasTotal.getLast {p : Pigeonhole} {last : Step} (h : p.HasTotal records last) :
    (stepsOf records).getLast? = some last := by
  obtain ⟨before, between, rfl, -⟩ := h.records_eq
  simp

theorem HasTotal.index_last {p : Pigeonhole} {last : Step} (h : p.HasTotal records last) :
    last.id.index + 1 = (stepsOf records).length := by
  obtain ⟨before, between, rfl, -, -, hindex, -⟩ := h.records_eq
  simp [hindex, Nat.add_assoc]

/-- What a refutation leaves: the trace holds the instance and a deduction of the last
constraint from it, and has reached the sink. -/
structure HasRefuted (p : Pigeonhole) (sink : Sink) (format : Format) (records : List Record)
    (r : Refutation) (w : Writer) : Prop where
  recorded : HasRecorded sink format records w
  deduction : Deduction (stepsOf records)
  total : ∃ last, p.HasTotal records last ∧ r.last = last.id ∧ r.constraint = last.constraint
  counts_eq : r.counts = w.counts

theorem conclude_succeeds {p : Pigeonhole} {last : Step}
    (h : HasDerived sink format records d) (htotal : p.HasTotal records last)
    (hlast : d.constraint? last.id = some last.constraint) :
    Succeeds (conclude last.id) d fun r d' => p.HasRefuted sink format records r d'.writer := by
  refine (constraint_succeeds hlast).bind ?_
  rintro _ _ ⟨rfl, rfl⟩
  rw [← bind_assoc]
  refine (finish_succeeds h).bind fun _ d' hrec => ?_
  exact .of_eq (a := ⟨last.id, last.constraint, d'.writer.counts⟩) (t := d') rfl
    ⟨hrec, h.deduction, ⟨last, htotal, rfl, rfl⟩, rfl⟩

theorem derive_succeeds (p : Pigeonhole) (format : Format) {sink : Sink} (h : sink.Reliable) :
    Succeeds p.derive (start (new format sink)) fun r d =>
      ∃ records, p.HasRefuted sink format records r d.writer := by
  rw [derive_eq]
  refine (p.recordInstance_succeeds format h).bind ?_
  rintro steps d ⟨records, rows, columns, hd, hinst, hrows, hcolumns⟩
  refine (sumInstance_succeeds hd hinst hrows hcolumns).bind ?_
  rintro _ d' ⟨records', last, hd', htotal, rfl, hlast⟩
  exact (conclude_succeeds hd' htotal hlast).mono fun r d'' h => ⟨records', h⟩

theorem ofNumbers?_self (p : Pigeonhole) : ofNumbers? p.holes p.pigeons = some p :=
  dif_pos ⟨p.holes_pos, p.pigeons_pos, p.lt⟩

theorem refute_succeeds (p : Pigeonhole) (format : Format) {sink : Sink} (h : sink.Reliable) :
    Succeeds (refute p.holes p.pigeons) (new format sink) fun r w =>
      ∃ records, p.HasRefuted sink format records r w := by
  obtain ⟨r, d, hd, hrefuted⟩ := p.derive_succeeds format h
  exact ⟨r, d.writer, by simp only [refute, p.ofNumbers?_self, hd], hrefuted⟩

variable {p : Pigeonhole} {r : Refutation} {w : Writer}

theorem HasRefuted.counts_refutation (h : p.HasRefuted sink format records r w) :
    r.counts = ⟨p.pigeons + p.holes, p.pigeons + p.holes - 1, 2⟩ := by
  obtain ⟨last, htotal, -⟩ := h.total
  rw [h.counts_eq, h.recorded.counts_eq, htotal.countsOf_eq]

theorem HasRefuted.length_steps (h : p.HasRefuted sink format records r w) :
    (stepsOf records).length = 2 * (p.pigeons + p.holes) - 1 := by
  have hpigeons := p.pigeons_pos
  rw [length_stepsOf, ← h.recorded.counts_eq, ← h.counts_eq, h.counts_refutation]
  simp only [Counts.steps]
  omega

theorem HasRefuted.number_last (h : p.HasRefuted sink format records r w) :
    r.last.number = 2 * (p.pigeons + p.holes) - 1 := by
  obtain ⟨last, htotal, hlast, -⟩ := h.total
  rw [hlast, StepId.number, htotal.index_last, h.length_steps]

/-- Nothing is left but the bound. -/
theorem HasRefuted.constraint_eq (h : p.HasRefuted sink format records r w) :
    r.constraint.form.terms = [] ∧ r.constraint.relation = .atLeast ∧
      r.constraint.bound.toInt = p.pigeons - p.holes := by
  obtain ⟨last, htotal, -, hconstraint⟩ := h.total
  rw [hconstraint]
  exact ⟨htotal.terms_eq, htotal.relation_eq, htotal.bound_eq⟩

theorem HasRefuted.isContradiction_iff (h : p.HasRefuted sink format records r w) :
    r.constraint.isContradiction = true ↔ p.holes < p.pigeons := by
  obtain ⟨hterms, hrelation, hbound⟩ := h.constraint_eq
  simp only [isContradiction, hterms, hrelation, hbound, Relation.Holds]
  simp

/-- Every supported instance is refuted on every sink that does not fail: the last
constraint has no terms and the bound `pigeons - holes`. For other numbers nothing is
written. -/
theorem refute_spec (holes pigeons : Nat) :
    (0 < holes ∧ 0 < pigeons ∧ holes * pigeons < 0x100000000 →
      ∀ (format : Format) (sink : Sink), sink.Reliable →
        ∃ r w, refute holes pigeons (.new format sink) = .ok r w ∧
          r.constraint.form.terms = [] ∧ r.constraint.relation = .atLeast ∧
          r.constraint.bound.toInt = pigeons - holes ∧
          r.last.number = 2 * (pigeons + holes) - 1 ∧
          r.counts = ⟨pigeons + holes, pigeons + holes - 1, 2⟩ ∧ w.counts = r.counts ∧
          (r.constraint.isContradiction = true ↔ holes < pigeons)) ∧
    (¬(0 < holes ∧ 0 < pigeons ∧ holes * pigeons < 0x100000000) →
      ∀ w : Writer, refute holes pigeons w = .error (.unsupported holes pigeons) w) := by
  constructor
  · intro hsupported format sink hsink
    let p : Pigeonhole := ⟨holes, pigeons, hsupported.1, hsupported.2.1, hsupported.2.2⟩
    obtain ⟨r, w, hrun, records, h⟩ := p.refute_succeeds format hsink
    obtain ⟨hterms, hrelation, hbound⟩ := h.constraint_eq
    exact ⟨r, w, hrun, hterms, hrelation, hbound, h.number_last, h.counts_refutation,
      h.counts_eq.symm, h.isContradiction_iff⟩
  · intro hunsupported w
    have hnone : ofNumbers? holes pigeons = none := dif_neg hunsupported
    simp only [refute, hnone]

/-- Three pigeons do not fit two holes, and without holes there is no instance. -/
theorem refute_spec_three_pigeons :
    (∃ r w, refute 2 3 .null = .ok r w ∧ r.last.number = 9 ∧ r.counts = ⟨5, 4, 2⟩ ∧
      r.constraint.isContradiction = true) ∧
    refute 0 3 .null = .error (.unsupported 0 3) .null := by
  have hsupported : 0 < 2 ∧ 0 < 3 ∧ 2 * 3 < 0x100000000 := by decide
  have hunsupported : ¬(0 < 0 ∧ 0 < 3 ∧ 0 * 3 < 0x100000000) := by decide
  obtain ⟨r, w, hrun, -, -, -, hlast, hcounts, -, hcontra⟩ :=
    (refute_spec 2 3).1 hsupported .text .discard trivial
  exact ⟨⟨r, w, hrun, hlast, hcounts, hcontra.mpr (by decide)⟩,
    (refute_spec 0 3).2 hunsupported .null⟩

end Pigeonhole

end CuttingPlanes
