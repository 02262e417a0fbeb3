import CuttingPlanes.Proofs.Trace.Operation
import CuttingPlanes.Proofs.Trace.Reading
import CuttingPlanes.Proofs.Trace.Text.Line

/-!
# Text traces that are written and read

A text reader takes a trace line by line. Every line that a writer wrote is a step or
a comment on its own, so the reader delivers the steps as they were recorded and every
line of a comment as a comment (`text_round_trip`).
-/

namespace CuttingPlanes

open CuttingPlanes.Text

/-- What a record is when it has been written as text and read: a comment falls into
its lines, which have lost the carriage returns at their ends. -/
def Record.inText : Record → List Record
  | .comment text =>
    if text.toList.isEmpty then [.comment ""]
    else (lines text.toList).map fun line => .comment (String.ofList (dropReturns line))
  | .step s => [.step s]

theorem stepsOf_inText (records : List Record) :
    stepsOf (records.flatMap Record.inText) = stepsOf records := by
  have hcomments {α : Type} (f : α → String) (xs : List α) :
      stepsOf (xs.map fun x => .comment (f x)) = [] := by
    induction xs with
    | nil => rfl
    | cons x xs ih => exact ih
  induction records with
  | nil => rfl
  | cons record records ih =>
    rw [List.flatMap_cons, stepsOf_append, ih]
    cases record with
    | comment text =>
      rw [Record.inText]
      split
      · rfl
      · rw [hcomments]
        rfl
    | step s => rfl

namespace Reader

open Trace.Text

variable {r : Reader} {next : StepId} {rest : List UInt8}

/-! ## One line -/

theorem nextRecord_of_line {body : List Char} {entry : Trace.Entry} (hbody : '\n' ∉ body)
    (hr : r.StandsAt .text (encode body ++ 10 :: rest) next)
    (hread : readLine body = .ok (some entry)) :
    ∃ s : Reader, nextRecord r = s.deliver entry ∧ s.StandsAt .text rest next := by
  have hline := line?_line hbody hr.rest_eq
  have htext : nextRecord r = nextText r := by rw [nextRecord, hr.format_eq]
  refine ⟨r.took { r.source with rest, position := r.source.position + (encode body).length + 1 },
    ?_, hr.format_eq, rfl, hr.failure_eq, hr.next_eq⟩
  rw [htext, nextText]
  split <;> rename_i heq <;> rw [hline] at heq <;> cases heq
  simp only [decode?_encode, hread]

theorem delivers_comments {ls : List (List Char)} (hls : ∀ l ∈ ls, '\n' ∉ l)
    (hr : r.StandsAt .text ((ls.flatMap fun l => encode ('*' :: ' ' :: l) ++ [10]) ++ rest) next) :
    ∃ s, r.Delivers (ls.map fun l => .comment (String.ofList (dropReturns l))) s ∧
      s.StandsAt .text rest next := by
  induction ls generalizing r with
  | nil => exact ⟨r, .nil r, hr⟩
  | cons l ls ih =>
    simp only [List.flatMap_cons, List.append_assoc, List.cons_append, List.nil_append] at hr
    have hbody : '\n' ∉ '*' :: ' ' :: l := by simpa using hls l (by simp)
    obtain ⟨s, hnext, hs⟩ := nextRecord_of_line hbody hr (readLine_comment l)
    obtain ⟨t, ht, hstand⟩ := ih (fun l hl => hls l (by simp [hl])) hs
    exact ⟨t, .cons hnext ht, hstand⟩

/-! ## Records -/

theorem bytesOf_emptyComment : Writer.bytesOf .text (.comment "") = encode ['*'] ++ [10] := rfl

theorem bytesOf_comment {text : String} (h : text.toList.isEmpty = false) :
    Writer.bytesOf .text (.comment text) =
      (lines text.toList).flatMap fun l => encode ('*' :: ' ' :: l) ++ [10] := by
  have hpiece (l : List Char) : ([['*', ' '], l, ['\n']].map encode).flatten =
      encode ('*' :: ' ' :: l) ++ [10] := by
    have hlf : encode ['\n'] = [10] := rfl
    rw [show '*' :: ' ' :: l = ['*', ' '] ++ l from rfl, encode_append]
    simp [hlf]
  simp only [Writer.bytesOf, Writer.commentPieces, commentPieces, h, Bool.false_eq_true, if_false,
    List.map_flatMap, List.flatten_eq_flatMap, List.flatMap_assoc]
  simp only [← List.flatten_eq_flatMap, hpiece]

theorem bytesOf_step (s : Step) :
    Writer.bytesOf .text (.step s) = encode (stepBody s.kind s.constraint s.hints) ++ [10] := by
  have hflatten : ((stepPieces s.kind s.constraint s.hints).map encode).flatten =
      encode (stepLine s.kind s.constraint s.hints) := by
    simp only [encode, stepLine, List.flatten_eq_flatMap, List.flatMap_assoc, List.flatMap_map, id]
  rw [stepLine_eq, encode_append] at hflatten
  exact hflatten

theorem deliveredAs_comment (text : String) :
    DeliveredAs .text (.comment text) (Record.inText (.comment text)) := by
  intro r rest next _ hr
  cases hempty : text.toList.isEmpty with
  | true =>
    obtain rfl : text = "" := String.toList_inj.mp (List.isEmpty_iff.mp hempty)
    rw [bytesOf_emptyComment, List.append_assoc] at hr
    obtain ⟨s, hnext, hs⟩ := nextRecord_of_line (by decide) hr (rfl : readLine ['*'] = _)
    exact ⟨s, .singleton hnext, hs⟩
  | false =>
    rw [bytesOf_comment hempty] at hr
    simp only [Record.inText, hempty, Bool.false_eq_true, if_false]
    exact delivers_comments (fun l hl => lf_notMem_of_mem_lines hl) hr

theorem deliveredAs_step {s : Step} (hinput : s.kind = .input → s.hints = [])
    (hhints : ∀ hint ∈ s.hints, hint.number < 0x10000000000000000) :
    DeliveredAs .text (.step s) (Record.inText (.step s)) := by
  intro r rest next hid hr
  rw [bytesOf_step, List.append_assoc] at hr
  have hbody := notMem_stepBody (b := '\n') (by decide) (by decide) s.kind s.constraint s.hints
  obtain ⟨t, hnext, ht⟩ := nextRecord_of_line hbody hr
    (readLine_stepBody s.constraint hinput hhints)
  exact ht.delivers_step (hid s rfl) hnext

theorem records_text {records : List Record} (h : Consecutive 0 records)
    (hhints : ∀ s ∈ stepsOf records, ∀ hint ∈ s.hints, hint.number < 0x10000000000000000) :
    (new .text (.ofBytes (Writer.bytesOfAll .text records))).records =
      (records.flatMap Record.inText, none) := by
  apply records_of_bytesOfAll h
  intro record hrecord
  cases record with
  | comment text => exact deliveredAs_comment text
  | step s => exact deliveredAs_step (h.hints_eq_nil hrecord) (hhints s (mem_stepsOf.mpr hrecord))

end Reader

/-- What a writer is asked for is read from its output: the accepted steps as they were
accepted, and every comment line by line. The steps are those of the run without its
comments. Hints are given as numbers of 64 bits. -/
theorem text_round_trip (ops : List Operation)
    (h : ∀ op ∈ ops, ∀ hint ∈ op.hints, hint.number < 0x10000000000000000) :
    (Reader.new .text (.ofBytes (Writer.output .text ops))).records =
      ((Writer.accepts .text ops).flatMap Record.inText, none) ∧
    stepsOf (Reader.new .text (.ofBytes (Writer.output .text ops))).records.1 =
      stepsOf (Writer.accepts .text (ops.filter (!·.isComment))) := by
  have hhints : ∀ s ∈ stepsOf (Writer.accepts .text ops), ∀ hint ∈ s.hints,
      hint.number < 0x10000000000000000 := by
    intro s hs hint hhint
    rw [Writer.accepts_eq] at hs
    obtain ⟨op, hop, hmem⟩ := Operation.exists_hint_of_accepted hs hhint
    exact h op hop hint hmem
  have hrecords := Reader.records_text
    (Writer.hasRecorded_accepts .text ops).consecutive hhints
  rw [← Writer.output_eq] at hrecords
  refine ⟨hrecords, ?_⟩
  rw [hrecords, stepsOf_inText, Writer.accepts_eq, Writer.accepts_eq,
    Operation.stepsOf_accepted_filter]

/-- A comment of three lines, two steps of which the second is refused, an empty comment
and a step behind the end. -/
def commentedOperations : List Operation :=
  let c : Constraint := ⟨⟨[⟨0, ⟨3, by decide, by decide⟩⟩], by decide⟩, .equal, -5⟩
  [.comment "i +1 x1 >= 1 ;\n\na >= 1 ; 1\r\r", .derived c [], .derived c [⟨7⟩], .comment "",
    .finish, .input c]

theorem text_round_trip_commentedOperations :
    (Writer.accepts .text commentedOperations).length = 3 ∧
    (Reader.new .text (.ofBytes (Writer.output .text commentedOperations))).records =
      ((Writer.accepts .text commentedOperations).flatMap Record.inText, none) ∧
    ((Writer.accepts .text commentedOperations).flatMap Record.inText).length = 5 := by
  have hhints : ∀ op ∈ commentedOperations, ∀ hint ∈ op.hints,
      hint.number < 0x10000000000000000 := by decide
  exact ⟨by decide +kernel, (text_round_trip commentedOperations hhints).1, by decide +kernel⟩

end CuttingPlanes
