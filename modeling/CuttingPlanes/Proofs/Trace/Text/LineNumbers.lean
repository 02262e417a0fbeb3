import CuttingPlanes.Proofs.Trace.Answers

/-!
# The numbers of rejected lines

A reader of a text trace numbers the lines that it rejects. It counts every line that it
takes, be it blank, a comment, a step or rejected, unless the line is not UTF-8. So the
number of a rejected line is its place in the source less the lines before it that are not
UTF-8 (`line_number_law`), and it is the place itself exactly when there is no such line.
-/

namespace CuttingPlanes

open Source Actions

/-- How many of the lines are not UTF-8. -/
def undecodable (lines : List (List UInt8)) : Nat :=
  lines.countP fun line => (Text.decode? line).isNone

theorem undecodable_append_singleton (front : List (List UInt8)) (line : List UInt8) :
    undecodable (front ++ [line]) =
      undecodable front + if Text.decode? line = none then 1 else 0 := by
  cases h : Text.decode? line <;> simp [undecodable, List.countP_append, h]

theorem undecodable_eq_zero_iff {lines : List (List UInt8)} :
    undecodable lines = 0 ↔ ∀ line ∈ lines, Text.decode? line ≠ none := by
  simp [undecodable, List.countP_eq_zero]

namespace Reader

variable {lines front : List (List UInt8)} {line : List UInt8} {r r' : Reader} {source : Source}

/-- The reader has taken the lines of the front, and counted those that are UTF-8. -/
structure HasTaken (lines front : List (List UInt8)) (r : Reader) : Prop where
  format_eq : r.format = .text
  failure_eq : r.source.failure = none
  lines_eq : lines = front ++ linesOf r.source.rest
  taken_eq : r.taken + undecodable front = front.length

/-- The last line that the reader has taken is the one behind the front, and it is rejected
for the reason. -/
def HasRejected (lines front : List (List UInt8)) (reason : Trace.Malformation)
    (r : Reader) : Prop :=
  ∃ line text, lines = front ++ line :: linesOf r.source.rest ∧
    Text.decode? line = some text ∧ Trace.Text.readLine text = .error reason

theorem hasTaken_new (bytes : List UInt8) :
    HasTaken (linesOf bytes) [] (new .text (.ofBytes bytes)) := ⟨rfl, rfl, rfl, rfl⟩

/-! ## One line -/

theorem HasTaken.exhausted (h : HasTaken lines front r)
    (hline : r.source.line? = .ok none source) : HasTaken lines front (r.stopped source) := by
  obtain ⟨hnil, -⟩ := rest_eq_nil_of_line?_none hline
  have hadvances := advancing_line?.ok hline
  have hsource := hadvances.rest_eq_nil hnil
  have hfailure := hadvances.failure_eq
  refine ⟨h.format_eq, hfailure.trans h.failure_eq, ?_, h.taken_eq⟩
  rw [h.lines_eq, hnil, stopped, hsource]

theorem HasTaken.lines_eq_of_line (h : HasTaken lines front r)
    (hline : r.source.line? = .ok (some line) source) :
    lines = front ++ line :: linesOf source.rest := by
  rw [h.lines_eq, linesOf_of_line?_some hline]

theorem HasTaken.snoc (h : HasTaken lines front r)
    (hline : r.source.line? = .ok (some line) source) (hformat : r'.format = .text)
    (hsource : r'.source = source)
    (htaken : r'.taken = r.taken + if Text.decode? line = none then 0 else 1) :
    HasTaken lines (front ++ [line]) r' := by
  have hfailure := (advancing_line?.ok hline).failure_eq
  refine ⟨hformat, ?_, ?_, ?_⟩
  · rw [hsource]
    exact hfailure.trans h.failure_eq
  · rw [hsource, List.append_assoc]
    exact h.lines_eq_of_line hline
  · have hfront := h.taken_eq
    rw [htaken, undecodable_append_singleton, List.length_append, List.length_singleton]
    split <;> omega

/-- A line that is not UTF-8 is not counted. -/
theorem HasTaken.stopped (h : HasTaken lines front r)
    (hline : r.source.line? = .ok (some line) source) (hdecode : Text.decode? line = none) :
    HasTaken lines (front ++ [line]) (r.stopped source) := by
  refine h.snoc hline h.format_eq rfl ?_
  rw [if_pos hdecode]
  rfl

theorem HasTaken.took {text : List Char} (h : HasTaken lines front r)
    (hline : r.source.line? = .ok (some line) source) (hdecode : Text.decode? line = some text) :
    HasTaken lines (front ++ [line]) (r.took source) := by
  refine h.snoc hline h.format_eq rfl ?_
  rw [hdecode]
  rfl

/-! ## One call -/

/-- Behind a call the reader has taken some more lines. If a line was rejected it was the
last of them. -/
def TakesLines {α : Type} (lines : List (List UInt8)) :
    EStateM.Result ReadError Reader α → Prop
  | .ok _ r => ∃ front, HasTaken lines front r
  | .error e r => (∃ front, HasTaken lines front r) ∧
    ∀ number reason, e = .malformed number reason →
      ∃ front, HasRejected lines front reason r ∧ number + undecodable front = front.length + 1

theorem takesLines_deliver (h : HasTaken lines front r) (entry : Trace.Entry) :
    TakesLines lines (r.deliver entry) := by
  cases entry <;> exact ⟨front, h.format_eq, h.failure_eq, h.lines_eq, h.taken_eq⟩

theorem takesLines_nextText (h : HasTaken lines front r) : TakesLines lines (nextText r) := by
  fun_induction nextText r generalizing front with
  | case1 r fault source hline =>
    exact absurd h.failure_eq (failure_ne_none_of_line?_error hline)
  | case2 r source hline => exact ⟨front, h.exhausted hline⟩
  | case3 r line source hline hdecode =>
    refine ⟨⟨_, h.stopped hline hdecode⟩, ?_⟩
    intro number reason heq
    cases heq
  | case4 r line source hline text hdecode reason hread =>
    refine ⟨⟨_, h.took hline hdecode⟩, ?_⟩
    rintro number reason' ⟨⟩
    refine ⟨front, ⟨line, text, h.lines_eq_of_line hline, hdecode, hread⟩, ?_⟩
    rw [Nat.add_right_comm, h.taken_eq]
  | case5 r line source hline text hdecode _ ih => exact ih (h.took hline hdecode)
  | case6 r line source hline text hdecode entry _ =>
    exact takesLines_deliver (h.took hline hdecode) entry

theorem takesLines_nextRecord (h : HasTaken lines front r) : TakesLines lines (nextRecord r) := by
  unfold nextRecord
  rw [h.format_eq]
  exact takesLines_nextText h

theorem takesLines_nextStep (h : HasTaken lines front r) : TakesLines lines (nextStep r) := by
  fun_induction nextStep r generalizing front with
  | case1 r e r' hnext =>
    have hcall := takesLines_nextRecord h
    rwa [hnext] at hcall
  | case2 r r' hnext =>
    have hcall := takesLines_nextRecord h
    rwa [hnext] at hcall
  | case3 r text r' hnext ih =>
    have hcall := takesLines_nextRecord h
    rw [hnext] at hcall
    obtain ⟨front', hfront⟩ := hcall
    exact ih hfront
  | case4 r step r' hnext =>
    have hcall := takesLines_nextRecord h
    rwa [hnext] at hcall

/-! ## All calls -/

/-- Whatever the calls before have answered, a rejected line has the number that is behind
the count of the lines before it that are UTF-8. -/
def NumbersLines {α : Type} (act : EStateM ReadError Reader α) (bytes : List UInt8) : Prop :=
  ∀ i number reason,
    answer act (new .text (.ofBytes bytes)) i = .error (.malformed number reason) →
      ∃ front, HasRejected (linesOf bytes) front reason
          (behind act (new .text (.ofBytes bytes)) (i + 1)) ∧
        number + undecodable front = front.length + 1 ∧
        (number = front.length + 1 ↔ ∀ line ∈ front, Text.decode? line ≠ none)

theorem numbersLines_of_takesLines {α : Type} {act : EStateM ReadError Reader α}
    (hact : ∀ lines front r, HasTaken lines front r → TakesLines lines (act r))
    (bytes : List UInt8) : NumbersLines act bytes := by
  have hstep : ∀ r, (∃ front, HasTaken (linesOf bytes) front r) →
      ∃ front, HasTaken (linesOf bytes) front (stateAfter (act r)) := by
    rintro r ⟨front, hfront⟩
    have hcall := hact _ _ r hfront
    cases hr : act r with
    | ok a r' =>
      rw [hr] at hcall
      exact hcall
    | error e r' =>
      rw [hr] at hcall
      exact hcall.1
  intro i number reason hanswer
  obtain ⟨front, hfront⟩ := behind_induction ⟨[], hasTaken_new bytes⟩ hstep i
  have hcall := hact _ _ _ hfront
  rw [answer_eq_error_iff.mp hanswer] at hcall
  obtain ⟨front, hrejected, hnumber⟩ := hcall.2 number reason rfl
  refine ⟨front, hrejected, hnumber, ?_⟩
  rw [← undecodable_eq_zero_iff]
  omega

/-- The numbers of the lines that a reader rejects, whether it is asked for records or for
steps, and goes on behind errors. The place of the rejected line in the source is its number
and the lines before it that are not UTF-8. So the number is the place exactly when there is
no such line. -/
theorem line_number_law (bytes : List UInt8) :
    NumbersLines nextRecord bytes ∧ NumbersLines nextStep bytes :=
  ⟨numbersLines_of_takesLines (fun _ _ _ => takesLines_nextRecord) bytes,
    numbersLines_of_takesLines (fun _ _ _ => takesLines_nextStep) bytes⟩

/-- Behind a line that is not UTF-8 the second line of a source is rejected as the first. -/
theorem second_line_rejected_as_first :
    let bytes : List UInt8 := [0xff, 0x0a, 0x7a, 0x0a]
    let r := new .text (.ofBytes bytes)
    answer nextRecord r 1 = .error (.malformed 1 (.unknownKind "z")) ∧
    ∀ front, HasRejected (linesOf bytes) front (.unknownKind "z") (behind nextRecord r 2) ↔
      front = [[0xff]] := by
  intro bytes r
  have hlines : linesOf bytes = [[0xff], [0x7a]] := by decide +kernel
  have hrest : linesOf (behind nextRecord r 2).source.rest = [] := by decide +kernel
  refine ⟨by decide +kernel, fun front => ?_⟩
  rw [HasRejected, hlines, hrest]
  constructor
  · rintro ⟨line, text, hfront, -⟩
    have happend : [[0xff]] ++ [[0x7a]] = front ++ [line] := hfront
    exact (List.append_inj' happend rfl).1.symm
  · rintro rfl
    exact ⟨[0x7a], ['z'], rfl, by decide +kernel, by decide +kernel⟩

end Reader

end CuttingPlanes
