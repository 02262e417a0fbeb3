import CuttingPlanes.Proofs.Derivation.Asking
import CuttingPlanes.Proofs.Pigeonhole.Numbering
import CuttingPlanes.Proofs.Pigeonhole.Refutation

/-!
# The inputs that a refutation records

A refutation may be written on any writer: one that has recorded steps before, one that is
sealed, one whose sink fails. `Poses` says which inputs an action lets the writer record, if it
ends well, and that these are the first of them if it fails; it is composed along the binds of
`derive`. So the inputs of every refutation are the constraints of the pigeons and then those of
the holes (`poses_derive`), in which every variable of the instance stands once on each side
(`numbering_law`).
-/

namespace CuttingPlanes

theorem Sink.accept_empty (s : Sink) : s.accept #[] = (s, none) := by
  cases s with
  | discard => rfl
  | store held limit =>
    cases limit with
    | none => simp [Sink.accept]
    | some limit => simp [Sink.accept]

/-- What has been drained has nothing left to drain. -/
theorem Outlet.drain_of_drain {o o' : Outlet} (h : drain o = .ok () o') :
    drain o' = .ok () o' := by
  obtain ⟨sink, pending⟩ := o
  simp only [drain] at h
  split at h
  · cases h
    simp only [drain, Sink.accept_empty]
  · cases h

namespace Writer

variable {op : Operation} {ops : List Operation}

/-- Only inputs are recorded as inputs. -/
theorem inputsOf_call (h : ∀ c, op ≠ .input c) (w : Writer) :
    inputsOf (w.call op).record?.toList = [] := by
  have hrecord : inputsOf (op.record? w.next).toList = [] := by
    cases op with
    | input c => exact absurd rfl (h c)
    | derived c hints =>
      simp only [Operation.record?]
      split <;> rfl
    | comment text => rfl
    | finish => rfl
  obtain ⟨-, hcall⟩ | ⟨-, hint, -, hcall⟩ | ⟨-, -, ⟨o, -, hcall⟩ | ⟨fault, o, -, hcall⟩⟩ :=
    call_cases w op
  · rw [hcall]
    rfl
  · rw [hcall]
    rfl
  · rw [hcall]
    exact hrecord
  · rw [hcall]
    rfl

theorem inputsOf_runAll (h : ∀ c, .input c ∉ ops) (w : Writer) :
    inputsOf (w.runAll ops).1 = [] := by
  induction ops using List.reverseRecOn with
  | nil => rfl
  | append_singleton ops op ih =>
    have hops : ∀ c, .input c ∉ ops := fun c hc => h c (List.mem_append_left _ hc)
    have hop : ∀ c, op ≠ .input c := by
      rintro c rfl
      exact h c (List.mem_append_right _ (List.mem_singleton_self _))
    rw [runAll_concat, inputsOf_append, ih hops, inputsOf_call hop]
    rfl

end Writer

namespace Derivation

open Actions Writer

variable {w : Writer} {d : Derivation} {ops : List Operation} {cs ds : List Constraint}

/-! ## Requests that pose nothing -/

theorem input_notMem_addOps (d : Derivation) (left right : StepId) :
    ∀ c, .input c ∉ d.addOps left right := by
  intro c
  unfold addOps
  split <;> simp

theorem input_notMem_sumOps (d : Derivation) (queue : List StepId) :
    ∀ c, .input c ∉ d.sumOps queue := by
  intro c
  fun_induction sumOps d queue with
  | case1 => simp
  | case2 => simp
  | case3 d left right queue ih =>
    rw [List.mem_append, not_or]
    refine ⟨input_notMem_addOps d left right c, ?_⟩
    split
    · rename_i step d' hadd
      exact ih step d'
    · simp

/-- Sealing a trace and closing its writer is one operation: nothing is pending in between. -/
theorem HasAsked.finish (h : HasAsked w ops d) :
    Leaves (Derivation.finish >>= fun _ => onWriter Writer.close) d
      (HasAsked w (ops ++ [.finish])) := by
  rcases Bool.eq_false_or_eq_true d.writer.isSealed with hsealed | hopen
  · have hfinish : Derivation.finish d = .error (.write .sealedTrace) d :=
      onWriter_of_error (bind_of_error (ensureOpen_of_sealed hsealed))
    rw [leaves_of_error (bind_of_error hfinish)]
    exact h.skip_of_error (o := d.writer.outlet) (perform_of_sealed hsealed .finish)
  cases hdrain : Outlet.drain d.writer.outlet with
  | ok _ o =>
    have hfinish := finish_of_drain_ok hopen hdrain
    have hclose : Writer.close (d.writer.withOutlet o).sealTrace =
        .ok () (d.writer.withOutlet o).sealTrace :=
      onOutlet_of_ok (Outlet.drain_of_drain hdrain)
    have hperform : Operation.finish.perform d.writer =
        .ok none (d.writer.withOutlet o).sealTrace := bind_of_ok hfinish
    have hrun : (Derivation.finish >>= fun _ => onWriter Writer.close) d =
        .ok () { d with writer := (d.writer.withOutlet o).sealTrace } :=
      (bind_of_ok (onWriter_of_ok hfinish)).trans
        (onWriter_of_ok (d := { d with writer := (d.writer.withOutlet o).sealTrace }) hclose)
    rw [leaves_of_ok hrun]
    exact h.skip (by rw [call_of_ok hperform]; rfl) (by rw [call_of_ok hperform]) rfl
  | error fault o =>
    have hfinish := finish_of_drain_error hopen hdrain
    have hrun : (Derivation.finish >>= fun _ => onWriter Writer.close) d =
        .error (.write (.fault fault)) { d with writer := d.writer.withOutlet o } :=
      bind_of_error (onWriter_of_error hfinish)
    rw [leaves_of_error hrun]
    exact h.skip_of_error (bind_of_error hfinish)

/-! ## What an action poses -/

/-- Operations have been asked of the writer, and the given constraints are the inputs among
what it has recorded. -/
def HasPosed (w : Writer) (cs : List Constraint) (d : Derivation) : Prop :=
  ∃ ops, HasAsked w ops d ∧ inputsOf (w.runAll ops).1 = cs

theorem hasPosed_start (w : Writer) : HasPosed w [] (start w) := ⟨[], hasAsked_start w, rfl⟩

/-- An action that ends well lets the given constraints be recorded as inputs, in this order; if
it fails, the first of them have been. -/
structure Poses {α : Type} (act : EStateM DerivationError Derivation α) (cs : List Constraint) :
    Prop where
  ok : ∀ {w before d a d'}, HasPosed w before d → act d = .ok a d' → HasPosed w (before ++ cs) d'
  error : ∀ {w before d e d'}, HasPosed w before d → act d = .error e d' →
    ∃ first, first <+: cs ∧ HasPosed w (before ++ first) d'

section Rules

variable {α β : Type} {act : EStateM DerivationError Derivation α}
  {next : α → EStateM DerivationError Derivation β}

theorem Poses.bind (h : Poses act cs) (hnext : ∀ a, Poses (next a) ds) :
    Poses (act >>= next) (cs ++ ds) where
  ok hd hrun := by
    obtain ⟨a, t, hact, hrest⟩ := exists_of_run_bind_eq_ok hrun
    rw [← List.append_assoc]
    exact (hnext a).ok (h.ok hd hact) hrest
  error {w before d e d'} hd hrun := by
    cases hact : act d with
    | ok a t =>
      rw [bind_of_ok hact] at hrun
      obtain ⟨first, hfirst, hposed⟩ := (hnext a).error (h.ok hd hact) hrun
      rw [List.append_assoc] at hposed
      exact ⟨cs ++ first, (List.prefix_append_right_inj cs).mpr hfirst, hposed⟩
    | error e' t =>
      rw [bind_of_error hact] at hrun
      cases hrun
      obtain ⟨first, hfirst, hposed⟩ := h.error hd hact
      exact ⟨first, hfirst.trans (List.prefix_append cs ds), hposed⟩

/-- An action that asks only for operations other than inputs poses nothing. -/
theorem poses_nil (h : ∀ w ops d, HasAsked w ops d →
    ∃ more, (∀ c, .input c ∉ more) ∧ Leaves act d (HasAsked w (ops ++ more))) : Poses act [] := by
  have hleaves {w before d} (hd : HasPosed w before d) :
      Leaves act d (HasPosed w (before ++ [])) := by
    obtain ⟨ops, hasked, rfl⟩ := hd
    obtain ⟨more, hmore, hleft⟩ := h w ops d hasked
    have hinputs : inputsOf (w.runAll (ops ++ more)).1 = inputsOf (w.runAll ops).1 ++ [] := by
      rw [runAll_append, inputsOf_append, inputsOf_runAll hmore]
    cases hrun : act d with
    | ok a t => exact (leaves_of_ok hrun).mpr ⟨_, (leaves_of_ok hrun).mp hleft, hinputs⟩
    | error e t => exact (leaves_of_error hrun).mpr ⟨_, (leaves_of_error hrun).mp hleft, hinputs⟩
  constructor
  · intro w before d a d' hd hrun
    exact (leaves_of_ok hrun).mp (hleaves hd)
  · intro w before d e d' hd hrun
    exact ⟨[], List.prefix_rfl, (leaves_of_error hrun).mp (hleaves hd)⟩

/-- An action that only looks poses nothing. -/
theorem poses_of_same (h : ∀ d, Leaves act d (· = d)) : Poses act [] := by
  refine poses_nil fun w ops d hasked => ⟨[], nofun, ?_⟩
  have hsame := h d
  rw [List.append_nil]
  cases hrun : act d with
  | ok a t =>
    rw [leaves_of_ok hrun] at hsame ⊢
    rwa [hsame]
  | error e t =>
    rw [leaves_of_error hrun] at hsame ⊢
    rwa [hsame]

theorem poses_pure (a : α) : Poses (pure a) [] := poses_of_same fun _ => rfl

theorem poses_throw (e : DerivationError) :
    Poses (throw e : EStateM DerivationError Derivation α) [] := poses_of_same fun _ => rfl

end Rules

theorem poses_comment (text : String) : Poses (comment text) [] :=
  poses_nil fun _ _ _ h => ⟨[.comment text], by simp, h.comment text⟩

theorem poses_note (event : Event) : Poses (note event) [] :=
  poses_nil fun _ ops _ h => ⟨[], nofun, by rw [List.append_nil]; exact h.note event⟩

theorem poses_add (left right : StepId) : Poses (add left right) [] :=
  poses_nil fun _ _ d h => ⟨d.addOps left right, input_notMem_addOps d left right, h.add left right⟩

theorem poses_sum (queue : List StepId) : Poses (sum queue) [] :=
  poses_nil fun _ _ d h => ⟨d.sumOps queue, input_notMem_sumOps d queue, h.sum queue⟩

theorem poses_constraint (id : StepId) : Poses (constraint id) [] := by
  refine poses_of_same fun d => ?_
  unfold Leaves constraint
  cases d.constraint? id <;> rfl

theorem poses_finish : Poses (Derivation.finish >>= fun _ => onWriter Writer.close) [] :=
  poses_nil fun _ _ _ h => ⟨[.finish], by simp, h.finish⟩

theorem HasAsked.inputsOf_concat (h : HasAsked w ops d) (op : Operation) :
    inputsOf (w.runAll (ops ++ [op])).1 =
      inputsOf (w.runAll ops).1 ++ inputsOf (d.writer.call op).record?.toList := by
  have hanswer := (h.writer_agrees.call op).1
  rw [runAll_concat, inputsOf_append, Call.record?, ← hanswer, Call.record?]

/-- An input that is recorded poses its constraint. -/
theorem poses_input (c : Constraint) : Poses (input c) [c] := by
  have hcases (w ops) {d : Derivation} (h : HasAsked w ops d) :
      (∃ id d', input c d = .ok id d' ∧
        inputsOf (w.runAll (ops ++ [.input c])).1 = inputsOf (w.runAll ops).1 ++ [c]) ∨
      ∃ e d', input c d = .error e d' ∧
        inputsOf (w.runAll (ops ++ [.input c])).1 = inputsOf (w.runAll ops).1 ++ [] := by
    rw [h.inputsOf_concat]
    obtain ⟨o, hrecord⟩ | ⟨e, o, hrecord, -⟩ := record_cases d.writer .input c []
    · have hperform : (Operation.input c).perform d.writer = _ := bind_of_ok hrecord
      refine Or.inl ⟨_, _, recordKnown_of_ok hrecord, ?_⟩
      rw [call_of_ok hperform]
      rfl
    · have hperform : (Operation.input c).perform d.writer = _ := bind_of_error hrecord
      refine Or.inr ⟨_, _, recordKnown_of_error hrecord, ?_⟩
      rw [call_of_error hperform]
      rfl
  constructor
  · rintro w before d id d' ⟨ops, h, rfl⟩ hrun
    have hleft := h.input c
    obtain ⟨id', d₁, hrun', hinputs⟩ | ⟨e, d₁, hrun', -⟩ := hcases w ops h
    · cases hrun.symm.trans hrun'
      exact ⟨_, (leaves_of_ok hrun).mp hleft, hinputs⟩
    · cases hrun.symm.trans hrun'
  · rintro w before d e d' ⟨ops, h, rfl⟩ hrun
    have hleft := h.input c
    obtain ⟨id, d₁, hrun', -⟩ | ⟨e', d₁, hrun', hinputs⟩ := hcases w ops h
    · cases hrun.symm.trans hrun'
    · cases hrun.symm.trans hrun'
      exact ⟨[], List.nil_prefix, _, (leaves_of_error hrun).mp hleft, hinputs⟩

theorem poses_mapM {ι α : Type} {f : ι → EStateM DerivationError Derivation α} {xs : List ι}
    (h : List.Forall₂ (fun x c => Poses (f x) [c]) xs cs) : Poses (xs.mapM f) cs := by
  induction h with
  | nil => exact poses_pure []
  | cons hx _ ih =>
    rw [List.mapM_cons]
    refine hx.bind fun a => ?_
    have hrest := ih.bind fun as => poses_pure (a :: as)
    rwa [List.append_nil] at hrest

end Derivation

namespace Pigeonhole

open Actions CuttingPlanes.Derivation

variable {p : Pigeonhole} {rows columns : List Constraint}

theorem poses_inputs {ι : Type} {xs : List ι} {cs : List Constraint}
    {f : ι → Except ConstraintError Constraint}
    (h : List.Forall₂ (fun x c => f x = .ok c) xs cs) :
    Poses (xs.mapM fun x => Pigeonhole.input (f x)) cs := by
  refine poses_mapM (h.imp fun x c hx => ?_)
  rw [hx]
  exact poses_input c

theorem poses_sumSome (queue : List StepId) : Poses (sumSome queue) [] := by
  refine (poses_sum queue).bind fun result => ?_
  cases result with
  | some step => exact poses_pure step
  | none => exact poses_throw _

theorem poses_sumInstance (steps : List StepId × List StepId) : Poses (sumInstance steps) [] :=
  (poses_sumSome steps.1).bind fun allPigeons => (poses_note _).bind fun _ =>
    (poses_sumSome steps.2).bind fun allHoles => (poses_note _).bind fun _ =>
      poses_add allPigeons allHoles

theorem poses_conclude (last : StepId) : Poses (conclude last) [] := by
  have hget : Poses (get : EStateM DerivationError Derivation Derivation) [] :=
    poses_of_same fun _ => rfl
  refine (poses_constraint last).bind fun c => ?_
  rw [← bind_assoc]
  exact poses_finish.bind fun _ => hget.bind fun _ => poses_pure _

/-- A refutation poses the constraints of the pigeons and then those of the holes. -/
theorem poses_derive
    (hrows : List.Forall₂ (fun j c => p.pigeonConstraint j = .ok c) (List.finRange p.pigeons) rows)
    (hcolumns : List.Forall₂ (fun i c => p.holeConstraint i = .ok c) (List.finRange p.holes)
      columns) :
    Poses p.derive (rows ++ columns) := by
  have hinstance : Poses p.recordInstance (rows ++ columns) := by
    refine (poses_comment _).bind fun _ => (poses_comment _).bind fun _ => ?_
    refine (poses_inputs hrows).bind fun pigeonSteps => ?_
    have hholes := (poses_inputs hcolumns).bind fun holeSteps => poses_pure (pigeonSteps, holeSteps)
    rwa [List.append_nil] at hholes
  have hall := hinstance.bind fun steps => (poses_sumInstance steps).bind poses_conclude
  rwa [List.append_nil, List.append_nil, ← derive_eq] at hall

/-! ## The law -/

/-- The constraints that are formed for the pigeons and for the holes. Every variable of the
table stands in exactly one of either kind, no other variable does, and none stands twice in a
constraint or in what it is formed from. -/
structure Covers (p : Pigeonhole) (rows columns : List Constraint) : Prop where
  rows_eq : List.Forall₂ (fun j c => p.pigeonConstraint j = .ok c) (List.finRange p.pigeons) rows
  columns_eq : List.Forall₂ (fun i c => p.holeConstraint i = .ok c) (List.finRange p.holes) columns
  countP_rows : ∀ v, rows.countP (v ∈ ·.form.vars) = p.occurrences v
  countP_columns : ∀ v, columns.countP (v ∈ ·.form.vars) = p.occurrences v
  nodup_lines : (∀ j, (p.row j).Nodup) ∧ ∀ i, (p.column i).Nodup
  nodup_vars : ∀ c ∈ rows ++ columns, c.form.vars.Nodup

theorem exists_covers (p : Pigeonhole) : ∃ rows columns, p.Covers rows columns := by
  obtain ⟨rows, hrows, hrowLines⟩ := p.exists_rows
  obtain ⟨columns, hcolumns, hcolumnLines⟩ := p.exists_columns
  refine ⟨rows, columns, hrows, hcolumns, ?_, ?_, ⟨p.nodup_row, p.nodup_column⟩, ?_⟩
  · exact fun v => (hrowLines.countP_vars v).trans (p.countP_row v)
  · exact fun v => (hcolumnLines.countP_vars v).trans (p.countP_column v)
  · exact fun c _ => c.form.ascending.nodup_vars

/-- An instance whose numbers are not zero and have a product that is a word is supported. Its
variables are then formed in words without overflow and are not zero, and they go through all
numbers up to the product. What a refutation records as inputs, on whatever writer, are the
constraints of the pigeons and of the holes, or the first of them if it fails; and in these
every variable of the instance stands once on either side. -/
theorem numbering_law {holes pigeons : BitVec 32} (h : Word.supports holes pigeons = true) :
    ∃ p rows columns, ofNumbers? holes.toNat pigeons.toNat = some p ∧
      (∀ (i : Fin p.holes) (j : Fin p.pigeons),
        Word.var holes (.ofNat 32 (i + 1)) (.ofNat 32 (j + 1)) = .ok (p.var i j)) ∧
      Set.BijOn (fun place : Fin p.holes × Fin p.pigeons => p.var place.1 place.2) Set.univ
        {v | v.number ≤ p.holes * p.pigeons} ∧
      p.Covers rows columns ∧
      (∀ w r d, p.derive (.start w) = .ok r d →
        refute holes.toNat pigeons.toNat w = .ok r d.writer ∧ HasPosed w (rows ++ columns) d) ∧
      (∀ w e d, p.derive (.start w) = .error e d →
        refute holes.toNat pigeons.toNat w = .error (.derivation e) d.writer ∧
          ∃ first, first <+: rows ++ columns ∧ HasPosed w first d) ∧
      ∀ format sink, sink.Reliable → ∃ r d, p.derive (.start (.new format sink)) = .ok r d := by
  obtain ⟨p, hp, hholes, -⟩ := Word.exists_ofNumbers? h
  obtain ⟨rows, columns, hcovers⟩ := p.exists_covers
  have hposes := poses_derive hcovers.rows_eq hcovers.columns_eq
  refine ⟨p, rows, columns, hp, Word.var_eq hholes.symm, p.bijOn_var, hcovers, ?_, ?_, ?_⟩
  · intro w r d hrun
    have hposed := hposes.ok (hasPosed_start w) hrun
    exact ⟨by simp only [refute, hp, hrun], hposed⟩
  · intro w e d hrun
    have hposed := hposes.error (hasPosed_start w) hrun
    exact ⟨by simp only [refute, hp, hrun], hposed⟩
  · intro format sink hsink
    obtain ⟨r, d, hrun, -⟩ := p.derive_succeeds format hsink
    exact ⟨r, d, hrun⟩

/-- The last variable of the largest instances is the greatest that there is. -/
theorem numbering_law_largest :
    (∃ v, Word.var 65535 65535 65537 = .ok v ∧ v.number = 0xffffffff) ∧
    ∃ p r d rows columns, ofNumbers? 2 3 = some p ∧ p.derive (.start .null) = .ok r d ∧
      refute 2 3 .null = .ok r d.writer ∧ p.Covers rows columns ∧
      HasPosed .null (rows ++ columns) d := by
  constructor
  · have hsupported : Word.supports 65535 65537 = true := by decide
    obtain ⟨p, -, -, hp, hvar, -⟩ := numbering_law hsupported
    cases hp
    exact ⟨_, hvar ⟨65534, by decide⟩ ⟨65536, by decide⟩, by simp only [var]; rfl⟩
  · have hsupported : Word.supports 2 3 = true := by decide
    obtain ⟨p, rows, columns, hp, -, -, hcovers, hok, -, hruns⟩ := numbering_law hsupported
    obtain ⟨r, d, hrun⟩ := hruns .text .discard trivial
    obtain ⟨hrefute, hposed⟩ := hok .null r d hrun
    exact ⟨p, r, d, rows, columns, hp, hrun, hrefute, hcovers, hposed⟩

end Pigeonhole

end CuttingPlanes
