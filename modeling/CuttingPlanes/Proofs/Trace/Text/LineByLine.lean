import CuttingPlanes.Proofs.Trace.Answers
import CuttingPlanes.Proofs.Trace.Text.Grammar

/-!
# A text trace is read line by line

What a reader of a text trace answers for a line depends on that line alone, and every line
that is not blank gets one answer (`line_by_line`). Only the number of a step tells what came
before: it counts the steps, whatever was rejected between them. A reader that is asked for
steps gives the same answers without the comments (`answers_nextStep`).
-/

namespace CuttingPlanes

open Source

namespace Actions

variable {ε σ α : Type} {act : EStateM ε σ α} {s t : σ}

/-- What the first calls answer. -/
def answers (act : EStateM ε σ α) (s : σ) (n : Nat) : List (Except ε α) :=
  (List.range n).map (answer act s)

theorem answers_add_one (act : EStateM ε σ α) (s : σ) (n : Nat) :
    answers act s (n + 1) = answerOf (act s) :: answers act (stateAfter (act s)) n := by
  rw [answers, List.range_succ_eq_map, List.map_cons, List.map_map]
  rfl

theorem answers_cons {as : List (Except ε α)} {a : Except ε α} (h : answerOf (act s) = a)
    (hstate : stateAfter (act s) = t) (hrest : answers act t as.length = as) :
    answers act s (a :: as).length = a :: as := by
  rw [List.length_cons, answers_add_one, h, hstate, hrest]

theorem answers_congr (h : act s = act t) (n : Nat) : answers act s n = answers act t n := by
  cases n with
  | zero => rfl
  | succ n => rw [answers_add_one, answers_add_one, h]

theorem answer_of_answers {as : List (Except ε α)} {a : Except ε α} {i : Nat}
    (h : answers act s as.length = as) (hi : as[i]? = some a) : answer act s i = a := by
  obtain ⟨hlt, -⟩ := List.getElem?_eq_some_iff.mp hi
  rw [← h, answers, List.getElem?_map, List.getElem?_range hlt, Option.map_some] at hi
  exact Option.some.inj hi

/-- Calls whose answer no longer changes. -/
theorem answers_add {a : Except ε α} {m : Nat} (h : ∀ i ≥ m, answer act s i = a) (n : Nat) :
    answers act s (m + n) = answers act s m ++ List.replicate n a := by
  rw [answers, List.range_add, List.map_append, List.map_map]
  congr 1
  refine List.eq_replicate_iff.mpr ⟨by rw [List.length_map, List.length_range], ?_⟩
  intro b hb
  obtain ⟨i, -, rfl⟩ := List.mem_map.mp hb
  exact h (m + i) (Nat.le_add_right m i)

end Actions

open Actions

namespace Reader

/-- The bytes are those of a text of blanks. -/
def isBlankLine (line : List UInt8) : Bool :=
  match Text.decode? line with
  | some text => text.all Text.isBlank
  | none => false

/-- The lines that are not blank. -/
def filledLines (bytes : List UInt8) : List (List UInt8) :=
  (linesOf bytes).filter (!isBlankLine ·)

/-- What is answered for a line, as far as the line decides it: all but the number of the line
and the number of the step. -/
inductive IsAnswerFor (line : List UInt8) : Except ReadError (Option Record) → Prop
  | notText (h : Text.decode? line = none) : IsAnswerFor line (.error (.fault .notText))
  | malformed {text : List Char} {reason : Trace.Malformation} (number : Nat)
    (htext : Text.decode? line = some text) (h : Trace.Text.readLine text = .error reason) :
    IsAnswerFor line (.error (.malformed number reason))
  | comment {text : List Char} {body : String} (htext : Text.decode? line = some text)
    (h : Trace.Text.readLine text = .ok (some (.comment body))) :
    IsAnswerFor line (.ok (some (.comment body)))
  | step {text : List Char} {kind : StepKind} {c : Constraint} {hints : List StepId}
    (id : StepId) (htext : Text.decode? line = some text)
    (h : Trace.Text.readLine text = .ok (some (.step kind c hints))) :
    IsAnswerFor line (.ok (some (.step ⟨id, kind, c, hints⟩)))

variable {line : List UInt8} {lines : List (List UInt8)} {text : List Char} {r : Reader}
  {source : Source}

/-! ## Blank lines -/

theorem isBlankLine_of_notText (h : Text.decode? line = none) : isBlankLine line = false := by
  rw [isBlankLine, h]

/-- A line of blanks is a line for which there is no answer. -/
theorem isBlankLine_iff (h : Text.decode? line = some text) :
    isBlankLine line = true ↔ Trace.Text.readLine text = .ok none := by
  rw [(Trace.Text.lineLaw text).blank_iff, isBlankLine, h]
  exact List.all_eq_true

theorem filledLines_of_blank (h : r.source.line? = .ok (some line) source)
    (hblank : isBlankLine line = true) :
    filledLines r.source.rest = filledLines source.rest := by
  rw [filledLines, linesOf_of_line?_some h, List.filter_cons_of_neg (by rw [hblank]; decide)]
  rfl

theorem filledLines_of_filled (h : r.source.line? = .ok (some line) source)
    (hblank : isBlankLine line = false) :
    filledLines r.source.rest = line :: filledLines source.rest := by
  rw [filledLines, linesOf_of_line?_some h, List.filter_cons_of_pos (by rw [hblank]; decide)]
  rfl

/-! ## One call -/

/-- The reader has the lines before it, blank ones apart. -/
structure Faces (lines : List (List UInt8)) (r : Reader) : Prop where
  format_eq : r.format = .text
  failure_eq : r.source.failure = none
  lines_eq : filledLines r.source.rest = lines

theorem faces_new (bytes : List UInt8) :
    Faces (filledLines bytes) (new .text (.ofBytes bytes)) := ⟨rfl, rfl, rfl⟩

/-- A call takes the first of the lines and answers for it, or answers with the end when there
is none. -/
structure AnswersFirst (lines : List (List UInt8))
    (result : EStateM.Result ReadError Reader (Option Record)) : Prop where
  faces : Faces lines.tail (stateAfter result)
  of_some : ∀ line, lines.head? = some line → IsAnswerFor line (answerOf result)
  of_none : lines.head? = none → answerOf result = .ok none

theorem AnswersFirst.cons {result : EStateM.Result ReadError Reader (Option Record)}
    (hfaces : Faces lines (stateAfter result)) (h : IsAnswerFor line (answerOf result)) :
    AnswersFirst (line :: lines) result := by
  refine ⟨hfaces, ?_, nofun⟩
  rintro line' ⟨⟩
  exact h

/-- Of a line that is taken nothing is left but that it is gone. -/
theorem Faces.behind_line {r' : Reader} (h : Faces lines r)
    (hline : r.source.line? = .ok (some line) source) (hformat : r'.format = r.format)
    (hsource : r'.source = source) : Faces (filledLines source.rest) r' := by
  have hfailure := (advancing_line?.ok hline).failure_eq
  refine ⟨hformat.trans h.format_eq, ?_, by rw [hsource]⟩
  rw [hsource]
  exact hfailure.trans h.failure_eq

theorem Faces.lines_eq_cons (h : Faces lines r) (hline : r.source.line? = .ok (some line) source)
    (hblank : isBlankLine line = false) : lines = line :: filledLines source.rest :=
  h.lines_eq.symm.trans (filledLines_of_filled hline hblank)

/-- A line that is text and has an answer is not blank. -/
theorem isBlankLine_of_read {x : Except Trace.Malformation (Option Trace.Entry)}
    (htext : Text.decode? line = some text) (hread : Trace.Text.readLine text = x)
    (hx : x ≠ .ok none) : isBlankLine line = false := by
  rw [← Bool.not_eq_true, isBlankLine_iff htext, hread]
  exact hx

theorem answersFirst_nextText (h : Faces lines r) : AnswersFirst lines (nextText r) := by
  fun_induction nextText r generalizing lines with
  | case1 r fault source hline =>
    exact absurd h.failure_eq (failure_ne_none_of_line?_error hline)
  | case2 r source hline =>
    obtain ⟨hnil, -⟩ := rest_eq_nil_of_line?_none hline
    have hadvances := advancing_line?.ok hline
    have hnil' := hadvances.rest_eq_nil hnil
    have hfailure := hadvances.failure_eq
    obtain rfl : lines = [] := by rw [← h.lines_eq, hnil]; rfl
    refine ⟨⟨h.format_eq, hfailure.trans h.failure_eq, ?_⟩, by simp, fun _ => rfl⟩
    show filledLines source.rest = []
    rw [hnil']
    rfl
  | case3 r line source hline htext =>
    rw [h.lines_eq_cons hline (isBlankLine_of_notText htext)]
    exact .cons (h.behind_line hline rfl rfl) (.notText htext)
  | case4 r line source hline text htext reason hread =>
    rw [h.lines_eq_cons hline (isBlankLine_of_read htext hread (by simp))]
    exact .cons (h.behind_line hline rfl rfl) (.malformed _ htext hread)
  | case5 r line source hline text htext hread ih =>
    have hskipped := filledLines_of_blank hline ((isBlankLine_iff htext).mpr hread)
    rw [← h.lines_eq, hskipped]
    exact ih (h.behind_line hline rfl rfl)
  | case6 r line source hline text htext entry hread =>
    rw [h.lines_eq_cons hline (isBlankLine_of_read htext hread (by simp))]
    cases entry with
    | comment body => exact .cons (h.behind_line hline rfl rfl) (.comment htext hread)
    | step kind c hints => exact .cons (h.behind_line hline rfl rfl) (.step _ htext hread)

theorem answersFirst_nextRecord (h : Faces lines r) : AnswersFirst lines (nextRecord r) := by
  unfold nextRecord
  rw [h.format_eq]
  exact answersFirst_nextText h

/-! ## All calls -/

/-- Every call takes one line. -/
theorem Faces.behind (h : Faces lines r) (i : Nat) :
    Faces (lines.drop i) (behind nextRecord r i) := by
  induction i with
  | zero => exact h
  | succ i ih =>
    rw [behind_add_one, ← List.tail_drop]
    exact (answersFirst_nextRecord ih).faces

theorem Faces.isAnswerFor (h : Faces lines r) {i : Nat} (hline : lines[i]? = some line) :
    IsAnswerFor line (answer nextRecord r i) :=
  (answersFirst_nextRecord (h.behind i)).of_some line (by rw [List.head?_drop, hline])

theorem Faces.answer_end (h : Faces lines r) {i : Nat} (hi : lines.length ≤ i) :
    answer nextRecord r i = .ok none :=
  (answersFirst_nextRecord (h.behind i)).of_none
    (by rw [List.head?_drop, List.getElem?_eq_none hi])

def step? : Except ReadError (Option Record) → Option Step
  | .ok (some (.step s)) => some s
  | _ => none

/-- The steps among the answers are numbered one after the other, whatever lies between. -/
theorem numberedFrom_answers (r : Reader) (n : Nat) :
    NumberedFrom r.next.index ((answers nextRecord r n).filterMap step?) := by
  induction n generalizing r with
  | zero => rfl
  | succ n ih =>
    have hrest := ih (stateAfter (nextRecord r))
    rw [answers_add_one]
    cases hnext : nextRecord r with
    | error e r' =>
      rw [hnext] at hrest
      rw [← next_of_error hnext]
      exact hrest
    | ok record? r' =>
      rw [hnext] at hrest
      cases record? with
      | none =>
        have hkept : r'.next = r.next := by
          have hnumbers := numbersFrom_nextRecord r
          rwa [hnext] at hnumbers
        rw [← hkept]
        exact hrest
      | some record =>
        obtain ⟨hid, hbehind⟩ := next_of_record hnext
        rw [stateAfter, hbehind] at hrest
        cases record with
        | comment body => exact hrest
        | step s => exact numberedFrom_cons.mpr ⟨congrArg StepId.index (hid s rfl), hrest⟩

/-! ## Steps -/

/-- What a reader answers that is asked for steps, unless the answer is a comment. -/
def withoutComment : Except ReadError (Option Record) → Option (Except ReadError (Option Step))
  | .error e => some (.error e)
  | .ok none => some (.ok none)
  | .ok (some (.comment _)) => none
  | .ok (some (.step s)) => some (.ok (some s))

theorem answers_nextStep (r : Reader) (n : Nat) :
    let expected := (answers nextRecord r n).filterMap withoutComment
    answers nextStep r expected.length = expected := by
  induction n generalizing r with
  | zero => rfl
  | succ n ih =>
    have hrest := ih (stateAfter (nextRecord r))
    rw [answers_add_one]
    cases hnext : nextRecord r with
    | error e r' =>
      rw [hnext] at hrest
      have hstep := nextStep_of_error hnext
      exact answers_cons (congrArg answerOf hstep) (congrArg stateAfter hstep) hrest
    | ok record? r' =>
      rw [hnext] at hrest
      cases record? with
      | none =>
        have hstep := nextStep_of_end hnext
        exact answers_cons (congrArg answerOf hstep) (congrArg stateAfter hstep) hrest
      | some record =>
        cases record with
        | comment body => exact (answers_congr (nextStep_of_comment hnext) _).trans hrest
        | step s =>
          have hstep := nextStep_of_step hnext
          exact answers_cons (congrArg answerOf hstep) (congrArg stateAfter hstep) hrest

/-- When all further records are the end, so are the steps. -/
theorem answer_nextStep_end {m i : Nat} (h : ∀ j ≥ m, answer nextRecord r j = .ok none)
    (hi : ((answers nextRecord r m).filterMap withoutComment).length ≤ i) :
    answer nextStep r i = .ok none := by
  have hsteps := answers_nextStep r (m + (i + 1))
  rw [answers_add h, List.filterMap_append, List.filterMap_replicate] at hsteps
  refine answer_of_answers hsteps ?_
  rw [List.getElem?_append_right hi]
  exact List.getElem?_replicate_of_lt (by omega)

/-! ## The law -/

/-- The answers to successive calls for a text trace, going on behind errors. The call number
`i` answers for the line number `i` of those that are not blank: that it is not UTF-8, or what
it is read as by itself. Behind the last of these lines comes the end, for ever. The steps are
numbered 1, 2, 3 and so on. Who asks for steps is answered alike, but for the comments. -/
theorem line_by_line (bytes : List UInt8) :
    let r := new .text (.ofBytes bytes)
    let lines := filledLines bytes
    let records := answers nextRecord r lines.length
    let steps := records.filterMap withoutComment
    (∀ i line, lines[i]? = some line → IsAnswerFor line (answer nextRecord r i)) ∧
    (∀ i ≥ lines.length, answer nextRecord r i = .ok none) ∧
    (records.filterMap step?).map (·.id.number) =
      List.range' 1 (records.filterMap step?).length ∧
    answers nextStep r steps.length = steps ∧
    ∀ i ≥ steps.length, answer nextStep r i = .ok none := by
  intro r lines records steps
  have hfaces : Faces lines r := faces_new bytes
  have hend : ∀ i ≥ lines.length, answer nextRecord r i = .ok none := fun i hi =>
    hfaces.answer_end hi
  refine ⟨fun i line => hfaces.isAnswerFor, hend, ?_, answers_nextStep r lines.length,
    fun i => answer_nextStep_end hend⟩
  exact (numberedFrom_answers r lines.length).numbers_eq

end Reader

end CuttingPlanes
