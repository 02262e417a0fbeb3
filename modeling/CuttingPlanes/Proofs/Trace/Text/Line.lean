import CuttingPlanes.Proofs.Actions
import CuttingPlanes.Proofs.Text.Lines
import CuttingPlanes.Proofs.Text.Trimming
import CuttingPlanes.Proofs.Trace.Reading
import CuttingPlanes.Trace.Text.Parser
import CuttingPlanes.Trace.Text.Printer

/-!
# Lines of steps and of comments

The line of a step is made of words with single blanks between them, and its words
spell the step. The line of a comment starts with a star, which no step does, and
gives back all but the carriage returns at its end.
-/

namespace CuttingPlanes.Trace.Text

open CuttingPlanes.Text Actions

/-! ## The words of a step -/

def stepBody (kind : StepKind) (c : Constraint) (hints : List StepId) : List Char :=
  kind.char :: ' ' :: (c.opb ++ ' ' :: ';' :: hints.flatMap fun h => ' ' :: digits h.number)

def termWords (t : Term) : List Word := [signed t.coeff.toInt, 'x' :: digits t.var.number]

def constraintWords (c : Constraint) : List Word :=
  c.form.terms.flatMap termWords ++ [c.relation.symbol.toList, plain c.bound.toInt]

theorem stepLine_eq (kind : StepKind) (c : Constraint) (hints : List StepId) :
    stepLine kind c hints = stepBody kind c hints ++ ['\n'] := by
  have hhints : (hints.flatMap fun h => [[' '], digits h.number]).flatten =
      hints.flatMap fun h => ' ' :: digits h.number := by
    rw [List.flatten_eq_flatMap, List.flatMap_assoc]
    simp
  simp [stepLine, stepPieces, stepBody, hhints]

theorem isWord_var (v : Variable) : IsWord ('x' :: digits v.number) :=
  isWord_cons (by decide) fun _ h => not_isBlank_of_mem_digits h

theorem isWord_symbol (r : Relation) : IsWord r.symbol.toList := by
  cases r
  · exact isWord_of_all (by decide) (by decide)
  · exact isWord_of_all (by decide) (by decide)

theorem isWord_kind (kind : StepKind) : IsWord [kind.char] := by
  cases kind
  · exact isWord_of_all (by decide) (by decide)
  · exact isWord_of_all (by decide) (by decide)

theorem not_isBlank_char (kind : StepKind) : isBlank kind.char = false := by
  cases kind <;> decide

theorem words_term_append (t : Term) (cs : List Char) :
    words (t.opb ++ cs) = termWords t ++ words cs := by
  have hsplit : t.opb ++ cs =
      signed t.coeff.toInt ++ ' ' :: (('x' :: digits t.var.number) ++ ' ' :: cs) := by
    simp [Term.opb]
  rw [hsplit, words_append_cons (isWord_signed _) (by decide),
    words_append_cons (isWord_var t.var) (by decide)]
  rfl

theorem words_terms_append (ts : List Term) (cs : List Char) :
    words (ts.flatMap Term.opb ++ cs) = ts.flatMap termWords ++ words cs := by
  induction ts with
  | nil => rfl
  | cons t ts ih =>
    rw [List.flatMap_cons, List.append_assoc, words_term_append, ih, List.flatMap_cons,
      List.append_assoc]

theorem words_opb_append (c : Constraint) (cs : List Char) :
    words (c.opb ++ ' ' :: cs) = constraintWords c ++ words cs := by
  have hsplit : c.opb ++ ' ' :: cs = c.form.terms.flatMap Term.opb ++
      (c.relation.symbol.toList ++ ' ' :: (plain c.bound.toInt ++ ' ' :: cs)) := by
    simp [Constraint.opb]
  rw [hsplit, words_terms_append, words_append_cons (isWord_symbol _) (by decide),
    words_append_cons (isWord_plain _) (by decide)]
  simp [constraintWords]

theorem words_hints {w : Word} (hw : IsWord w) (hints : List StepId) :
    words (w ++ hints.flatMap fun h => ' ' :: digits h.number) =
      w :: hints.map fun h => digits h.number := by
  induction hints generalizing w with
  | nil => simpa using words_of_isWord hw
  | cons h hints ih =>
    rw [List.flatMap_cons, List.cons_append, words_append_cons hw (by decide),
      ih (isWord_digits _), List.map_cons]

theorem words_stepBody (kind : StepKind) (c : Constraint) (hints : List StepId) :
    words (stepBody kind c hints) =
      [kind.char] :: (constraintWords c ++ [';'] :: hints.map fun h => digits h.number) := by
  have hsemicolon : IsWord [';'] := isWord_of_all (by decide) (by decide)
  have hsplit : stepBody kind c hints = [kind.char] ++ ' ' :: (c.opb ++ ' ' ::
      ([';'] ++ hints.flatMap fun h => ' ' :: digits h.number)) := rfl
  rw [hsplit, words_append_cons (isWord_kind kind) (by decide), words_opb_append,
    words_hints hsemicolon]

/-- The only blank in the line of a step is the space. -/
theorem notMem_stepBody {b : Char} (hb : isBlank b = true) (hne : b ≠ ' ') (kind : StepKind)
    (c : Constraint) (hints : List StepId) : b ∉ stepBody kind c hints := by
  have hword {w : Word} (hw : IsWord w) : b ∉ w := fun hmem => by
    rw [hw.notBlank b hmem] at hb
    cases hb
  have hkind := hword (isWord_kind kind)
  have hsemicolon : b ≠ ';' := by
    rintro rfl
    cases hb
  have hterm (t : Term) : b ∉ t.opb := by
    have := hword (isWord_var t.var)
    have := hword (isWord_signed t.coeff.toInt)
    simp_all [Term.opb]
  have hopb : b ∉ c.opb := by
    have := hword (isWord_symbol c.relation)
    have := hword (isWord_plain c.bound.toInt)
    simp_all [Constraint.opb]
  have hdigits (h : StepId) : b ∉ digits h.number := hword (isWord_digits h.number)
  simp_all [stepBody]

/-! ## Reading the words -/

theorem relation?_symbol (r : Relation) : relation? r.symbol.toList = some r := by
  cases r <;> decide

theorem relation?_signed (z : Int) : relation? (signed z) = none := by
  have hne (r : Relation) : (r.symbol.toList == signed z) = false := by
    rw [beq_eq_false_iff_ne]
    unfold signed
    intro heq
    have hhead := congrArg List.head? heq
    cases r <;> split at hhead <;> cases hhead
  simp [relation?, hne]

theorem number?_signed (v : Int64) : number? (signed v.toInt) = some v := by
  simp [number?]

theorem number?_plain (v : Int64) : number? (plain v.toInt) = some v := by
  simp [number?]

theorem var?_var (v : Variable) : var? ('x' :: digits v.number) = some v := by
  simp [var?]

theorem kind?_char (kind : StepKind) : kind? [kind.char] = some kind := by
  cases kind <;> decide

theorem stepId?_digits {h : StepId} (hh : h.number < 0x10000000000000000) :
    stepId? (digits h.number) = some h := by
  simp [stepId?, StepId.ofNumber?_eq_some_iff, hh]

theorem readTerms_termWords (ts : List Term) (r : Relation) (ws : List Word) :
    readTerms (ts.flatMap termWords ++ r.symbol.toList :: ws) = .ok (ts, r, ws) := by
  induction ts with
  | nil =>
    rw [List.flatMap_nil, List.nil_append, readTerms, relation?_symbol]
  | cons t ts ih =>
    rw [List.flatMap_cons, List.append_assoc]
    show readTerms (signed t.coeff.toInt :: ('x' :: digits t.var.number) ::
      (ts.flatMap termWords ++ r.symbol.toList :: ws)) = _
    simp only [readTerms, relation?_signed, number?_signed, var?_var, ih]

theorem readHints_digits {hints : List StepId}
    (h : ∀ hint ∈ hints, hint.number < 0x10000000000000000) :
    readHints (hints.map fun h => digits h.number) = .ok hints := by
  induction hints with
  | nil => rfl
  | cons hint hints ih =>
    rw [List.map_cons, readHints, stepId?_digits (h hint (by simp))]
    simp only [ih fun hint hmem => h hint (List.mem_cons_of_mem _ hmem)]
    rfl

theorem readLine_stepBody {kind : StepKind} {hints : List StepId} (c : Constraint)
    (hinput : kind = .input → hints = [])
    (hhints : ∀ hint ∈ hints, hint.number < 0x10000000000000000) :
    readLine (stepBody kind c hints) = .ok (some (.step kind c hints)) := by
  have hreturns : dropReturns (stepBody kind c hints) = stepBody kind c hints :=
    dropReturns_of_notMem (notMem_stepBody (by decide) (by decide) kind c hints)
  have htrim : trimStart (stepBody kind c hints) = stepBody kind c hints :=
    trimStart_of_not_blank ((isWord_kind kind).notBlank _ (by simp)) _
  have hstar : kind.char ≠ '*' := by cases kind <;> decide
  have hstep : readStep [kind.char]
      (constraintWords c ++ [';'] :: hints.map fun h => digits h.number) =
        .ok (.step kind c hints) := by
    simp only [readStep, kind?_char, constraintWords, List.append_assoc, List.cons_append,
      List.nil_append, readTerms_termWords, ok_bind, readBound, number?_plain, readSemicolon,
      if_true, readHints_digits hhints, Entry.ofParts_terms c hinput]
  have hwords := words_stepBody kind c hints
  unfold readLine
  rw [hreturns, htrim]
  split
  · rename_i heq
    exact absurd (List.cons.inj heq).1 hstar
  · rw [hwords]
    simp only [hstep]
    rfl

/-- A line that is not a comment is read through its words. -/
theorem readLine_eq_readStep {line : List Char} {w : Word} {ws : List Word}
    (hhead : line.find? (!isBlank ·) ≠ some '*') (hwords : words line = w :: ws) :
    readLine line = some <$> readStep w ws := by
  unfold readLine
  split
  · rename_i text heq
    rw [← head?_trimmed, heq] at hhead
    exact absurd rfl hhead
  · rw [words_trimmed, hwords]

/-! ## Comments -/

/-- A line that starts with a star is a comment, whatever else stands in it. -/
theorem readLine_star (line : List Char) :
    readLine ('*' :: line) = .ok (some (.comment (commentText (dropReturns line)))) := by
  have hreturns : dropReturns ('*' :: line) = '*' :: dropReturns line :=
    dropReturns_append_cons (by decide) [] line
  have htrim : trimStart ('*' :: dropReturns line) = '*' :: dropReturns line :=
    trimStart_of_not_blank (by decide) _
  rw [readLine, hreturns, htrim]
  rfl

theorem readLine_comment (line : List Char) :
    readLine ('*' :: ' ' :: line) =
      .ok (some (.comment (String.ofList (dropReturns line)))) := by
  have hreturns : dropReturns (' ' :: line) = ' ' :: dropReturns line :=
    dropReturns_append_cons (by decide) [] line
  rw [readLine_star, hreturns]
  rfl

end CuttingPlanes.Trace.Text
