import CuttingPlanes.Proofs.Trace.Cuts
import CuttingPlanes.Proofs.Trace.RunLaw
import CuttingPlanes.Proofs.Trace.Text.RoundTrip
import CuttingPlanes.Proofs.Trace.Text.Torn

/-!
# Text traces that are cut off

The last line of a text trace needs no line feed, so a torn line is read like any other. What
is left of a comment is no step. What is left of a step is refused if its semicolon is missing,
and otherwise it is delivered with its number, its kind and its constraint. But the hints
have no end mark: behind the semicolon every cut except the one before the line feed loses
some of them, and the step is delivered with other hints than it has in the whole trace
(`cut_text_trace`).
-/

namespace CuttingPlanes

open CuttingPlanes.Text Trace.Text Writer

/-! ## Cuts -/

/-- The trace is cut within the step, behind `m` of its bytes. -/
def CutsStep (n : Nat) (records : List Record) (s : Step) (m : Nat) : Prop :=
  ∃ whole back, CutAt n .text records whole (.step s :: back) ∧
    n = (bytesOfAll .text whole).length + m

/-- The number of bytes of a step up to its semicolon. -/
def headLength (s : Step) : Nat := (encode (stepHead s.kind s.constraint)).length

/-- The trace is cut within a step that loses its semicolon. -/
def CutsHead (n : Nat) (records : List Record) : Prop :=
  ∃ s m, CutsStep n records s m ∧ 0 < m ∧ m < headLength s

/-- The trace is cut within a step that keeps its semicolon and loses more than its line feed. -/
def CutsHints (n : Nat) (records : List Record) : Prop :=
  ∃ s m, CutsStep n records s m ∧ headLength s ≤ m ∧ m + 1 < (bytesOf .text (.step s)).length

section CutsStep

variable {n m m' : Nat} {records whole rest : List Record} {s s' : Step}

theorem CutAt.cutsStep_iff (h : CutAt n .text records whole rest) :
    CutsStep n records s m ↔
      rest.head? = some (.step s) ∧ n = (bytesOfAll .text whole).length + m := by
  constructor
  · rintro ⟨whole', back, h', hn⟩
    obtain ⟨rfl, rfl⟩ := h.unique h'
    exact ⟨rfl, hn⟩
  · rintro ⟨hhead, hn⟩
    obtain ⟨back, rfl⟩ := List.head?_eq_some_iff.mp hhead
    exact ⟨whole, back, h, hn⟩

theorem CutsStep.unique (h : CutsStep n records s m) (h' : CutsStep n records s' m') :
    s = s' ∧ m = m' := by
  obtain ⟨whole, back, hcut, hn⟩ := h
  obtain ⟨hhead, hn'⟩ := hcut.cutsStep_iff.mp h'
  cases hhead
  exact ⟨rfl, by omega⟩

end CutsStep

namespace Reader

variable {r : Reader} {next : StepId} {bytes : List UInt8} {m : Nat}

/-! ## The last line -/

/-- What is delivered from a last line, given its number and what it is read as. -/
def lastRecords (line : Nat) (next : StepId) :
    Except Trace.Malformation (Option Trace.Entry) → List Record × Option ReadError
  | .error reason => ([], some (.malformed line reason))
  | .ok none => ([], none)
  | .ok (some (.comment text)) => ([.comment text], none)
  | .ok (some (.step kind c hints)) => ([.step ⟨next, kind, c, hints⟩], none)

/-- The last line is read without a line feed behind it. -/
theorem records_of_last (hne : bytes ≠ []) (hlf : 10 ∉ bytes) (hr : r.StandsAt .text bytes next) :
    r.records = match decode? bytes with
      | none => ([], some (.fault .notText))
      | some line => lastRecords (r.taken + 1) next (readLine line) := by
  have htext : nextRecord r = nextText r := by rw [nextRecord, hr.format_eq]
  have hline : r.source.line? = .ok (some bytes) r.source.exhausted := by
    obtain rfl := hr.rest_eq
    exact Source.line?_last hne hlf hr.failure_eq
  have hend : (r.took r.source.exhausted).StandsAt .text [] next :=
    ⟨hr.format_eq, rfl, hr.failure_eq, hr.next_eq⟩
  rw [nextText] at htext
  split at htext <;> rename_i heq <;> rw [hline] at heq <;> cases heq
  split <;> rename_i hdecode <;> simp only [hdecode] at htext
  · exact records_of_error htext
  · unfold lastRecords
    split <;> rename_i hread <;> rw [hread] at htext
    · exact records_of_error htext
    · have hnil := hend.nextRecord_nil
      rw [nextRecord, hend.format_eq] at hnil
      exact records_of_end (htext.trans hnil)
    · exact (Delivers.singleton htext).records_of_standsAt hend
    · rename_i kind c hints
      have hid : (⟨next, kind, c, hints⟩ : Step).id = next := rfl
      obtain ⟨t, ht, hstand⟩ := hend.delivers_step hid htext
      exact ht.records_of_standsAt hstand

theorem records_of_nil (hr : r.StandsAt .text [] next) : r.records = ([], none) :=
  records_of_end hr.nextRecord_nil

/-! ## Torn comments -/

/-- What starts like a comment is no step, even if it is no text any more. -/
theorem stepsOf_last_comment {line : List Char} (hlf : '\n' ∉ line)
    (hr : r.StandsAt .text ((encode ('*' :: line)).take m) next) :
    stepsOf r.records.1 = [] := by
  have hstar : encode ('*' :: line) = 42 :: encode line := rfl
  rw [hstar] at hr
  cases m with
  | zero => rw [records_of_nil hr, stepsOf_nil]
  | succ m =>
    rw [List.take_succ_cons] at hr
    have hnot : 10 ∉ (42 : UInt8) :: (encode line).take m := by
      intro hmem
      rcases List.mem_cons.mp hmem with heq | hmem
      · cases heq
      · exact lf_notMem_encode hlf (List.mem_of_mem_take hmem)
    rw [records_of_last (List.cons_ne_nil _ _) hnot hr]
    cases hdecode : decode? ((42 : UInt8) :: (encode line).take m) with
    | none => rfl
    | some cs =>
      have hcs := (eq_encode_of_decode? hdecode).symm
      obtain ⟨text, rfl⟩ := exists_cons_of_encode_eq (d := '*') (by decide) (by decide) hcs
      simp only [readLine_star, lastRecords, stepsOf_comment, stepsOf_nil]

theorem stepsOf_torn_comments {ls : List (List Char)} (hls : ∀ l ∈ ls, '\n' ∉ l)
    (hr : r.StandsAt .text ((ls.flatMap fun l => encode ('*' :: l) ++ [10]).take m) next) :
    stepsOf r.records.1 = [] := by
  induction ls generalizing r m with
  | nil =>
    rw [List.flatMap_nil, List.take_nil] at hr
    rw [records_of_nil hr, stepsOf_nil]
  | cons l ls ih =>
    obtain ⟨hl, hrest⟩ := List.forall_mem_cons.mp hls
    rw [List.flatMap_cons, List.append_assoc, List.take_append] at hr
    by_cases hle : m ≤ (encode ('*' :: l)).length
    · rw [Nat.sub_eq_zero_of_le hle, List.take_zero, List.append_nil] at hr
      exact stepsOf_last_comment hl hr
    · -- the first line is complete
      obtain ⟨k, hk⟩ := Nat.exists_eq_add_of_lt (Nat.lt_of_not_le hle)
      have hlater : m - (encode ('*' :: l)).length = k + 1 := by omega
      rw [List.take_of_length_le (Nat.le_of_not_le hle), hlater, List.singleton_append,
        List.take_succ_cons] at hr
      have hbody : '\n' ∉ '*' :: l := by simpa using hl
      obtain ⟨t, hnext, ht⟩ := nextRecord_of_line hbody hr (readLine_star l)
      rw [records_of_record hnext, stepsOf_comment]
      exact ih hrest ht

theorem stepsOf_torn_comment {text : String}
    (hr : r.StandsAt .text ((bytesOf .text (.comment text)).take m) next) :
    stepsOf r.records.1 = [] := by
  cases hempty : text.toList.isEmpty with
  | true =>
    obtain rfl : text = "" := String.toList_inj.mp (List.isEmpty_iff.mp hempty)
    have hls : ∀ l ∈ [([] : List Char)], '\n' ∉ l := by simp
    exact stepsOf_torn_comments hls hr
  | false =>
    have hls : ∀ l ∈ (lines text.toList).map (' ' :: ·), '\n' ∉ l := by
      intro l hl
      obtain ⟨line, hline, rfl⟩ := List.mem_map.mp hl
      simpa using lf_notMem_of_mem_lines hline
    have hbytes : bytesOf .text (.comment text) =
        ((lines text.toList).map (' ' :: ·)).flatMap fun l => encode ('*' :: l) ++ [10] := by
      rw [bytesOf_comment hempty, List.flatMap_map]
    rw [hbytes] at hr
    exact stepsOf_torn_comments hls hr

/-! ## Torn steps -/

section Step

variable {s : Step}

theorem headLength_eq (s : Step) : headLength s = (stepHead s.kind s.constraint).length := by
  refine length_encode_of_isAscii fun b hb => ?_
  have hbody : b ∈ stepBody s.kind s.constraint s.hints := by
    rw [stepBody_eq]
    exact List.mem_append_left _ hb
  exact isAscii_of_mem_stepBody hbody

theorem length_bytesOf_step (s : Step) :
    (bytesOf .text (.step s)).length = (stepBody s.kind s.constraint s.hints).length + 1 := by
  have hbody := length_encode_of_isAscii fun b (hb : b ∈ stepBody s.kind s.constraint s.hints) =>
    isAscii_of_mem_stepBody hb
  rw [bytesOf_step, List.length_append, hbody]
  rfl

/-- Without its line feed the line of a step is a last line. -/
theorem records_of_torn_step (hpos : 0 < m) (hm : m < (bytesOf .text (.step s)).length)
    (hr : r.StandsAt .text ((bytesOf .text (.step s)).take m) next) :
    r.records = lastRecords (r.taken + 1) next
      (readLine ((stepBody s.kind s.constraint s.hints).take m)) := by
  have hascii : ∀ b ∈ stepBody s.kind s.constraint s.hints, IsAscii b :=
    fun b hb => isAscii_of_mem_stepBody hb
  have hle : m ≤ (encode (stepBody s.kind s.constraint s.hints)).length := by
    rw [length_encode_of_isAscii hascii]
    rw [length_bytesOf_step] at hm
    exact Nat.le_of_lt_succ hm
  rw [bytesOf_step, List.take_append_of_le_length hle, take_encode_of_isAscii hascii] at hr
  have hbody := notMem_stepBody (b := '\n') (by decide) (by decide) s.kind s.constraint s.hints
  have hlf : '\n' ∉ (stepBody s.kind s.constraint s.hints).take m :=
    fun hmem => hbody (List.mem_of_mem_take hmem)
  have hne : encode ((stepBody s.kind s.constraint s.hints).take m) ≠ [] := by
    obtain ⟨k, rfl⟩ := Nat.exists_eq_succ_of_ne_zero (Nat.ne_of_gt hpos)
    rw [stepBody, List.take_succ_cons]
    cases s.kind <;> exact List.cons_ne_nil _ _
  rw [records_of_last hne (lf_notMem_encode hlf) hr, decode?_encode]

/-- A step without its semicolon is refused, unless nothing is left of it. -/
theorem records_of_torn_head (hm : m < headLength s)
    (hr : r.StandsAt .text ((bytesOf .text (.step s)).take m) next) :
    stepsOf r.records.1 = [] ∧
      (0 < m → ∃ line reason, r.records.2 = some (.malformed line reason)) := by
  rcases Nat.eq_zero_or_pos m with rfl | hpos
  · rw [List.take_zero] at hr
    rw [records_of_nil hr]
    exact ⟨rfl, fun hlt => absurd hlt (Nat.lt_irrefl 0)⟩
  · rw [headLength_eq] at hm
    have hlt : m < (bytesOf .text (.step s)).length := by
      rw [length_bytesOf_step, stepBody_eq, List.length_append]
      omega
    obtain ⟨reason, hread⟩ :
        ∃ reason, readLine ((stepBody s.kind s.constraint s.hints).take m) = .error reason :=
      readLine_torn_head hpos hm
    rw [records_of_torn_step hpos hlt hr, hread]
    exact ⟨rfl, fun _ => ⟨_, reason, rfl⟩⟩

/-- With its semicolon it is delivered, but only with the hints that are left. -/
theorem records_of_torn_hints (hinput : s.kind = .input → s.hints = [])
    (hhints : ∀ hint ∈ s.hints, hint.number < 0x10000000000000000)
    (hle : headLength s ≤ m) (hm : m < (bytesOf .text (.step s)).length)
    (hr : r.StandsAt .text ((bytesOf .text (.step s)).take m) s.id) :
    ∃ hints, r.records = ([.step { s with hints }], none) ∧
      (hints = s.hints ↔ (bytesOf .text (.step s)).length ≤ m + 1) := by
  rw [headLength_eq] at hle
  have hpos : 0 < m := Nat.lt_of_lt_of_le (by simp [stepHead]) hle
  obtain ⟨hints, hread, hiff⟩ := readLine_torn_hints hinput hhints hle
  refine ⟨hints, ?_, ?_⟩
  · rw [records_of_torn_step hpos hm hr, hread, lastRecords]
  · rw [hiff, length_bytesOf_step, Nat.add_le_add_iff_right]

end Step

end Reader

/-! ## Traces -/

section Traces

variable {n : Nat} {records whole rest : List Record}

/-- Each step stands in the trace at the place that its number says. -/
theorem Consecutive.getElem?_stepsOf (h : Consecutive 0 records) {s : Step}
    (hs : s ∈ stepsOf records) : (stepsOf records)[s.id.index]? = some s := by
  obtain ⟨k, hk⟩ := List.mem_iff_getElem?.mp hs
  have hlt : k < (stepsOf records).length := (List.getElem?_eq_some_iff.mp hk).1
  have hnumber := congrArg (·[k]?) (numbers_of_consecutive h)
  simp only [List.getElem?_map, hk, Option.map_some, List.getElem?_range' hlt, Option.some.injEq,
    StepId.number] at hnumber
  have hindex : s.id.index = k := by omega
  rw [hindex, hk]

/-- The reader delivers the whole records, and then stands before what is left of the next. -/
theorem CutAt.exists_reader (h : CutAt n .text records whole rest)
    (hconsecutive : Consecutive 0 records)
    (hhints : ∀ s ∈ stepsOf records, ∀ hint ∈ s.hints, hint.number < 0x10000000000000000) :
    ∃ t : Reader, (Reader.new .text (.ofBytes ((bytesOfAll .text records).take n))).records =
        (whole.flatMap Record.inText ++ t.records.1, t.records.2) ∧
      t.StandsAt .text ((bytesOfAll .text rest).take (n - (bytesOfAll .text whole).length))
        ⟨(stepsOf whole).length⟩ := by
  have hmem {record : Record} (hrecord : record ∈ whole) : record ∈ records := by
    rw [← h.append_eq]
    exact List.mem_append_left rest hrecord
  have hwhole : Consecutive 0 whole := by
    rw [← h.append_eq] at hconsecutive
    exact (consecutive_append.mp hconsecutive).1
  have hdelivered : ∀ record ∈ whole, Reader.DeliveredAs .text record record.inText := by
    intro record hrecord
    cases record with
    | comment text => exact Reader.deliveredAs_comment text
    | step s =>
      exact Reader.deliveredAs_step (hwhole.hints_eq_nil hrecord)
        (hhints s (mem_stepsOf.mpr (hmem hrecord)))
  obtain ⟨t, ht, hstand⟩ :=
    Reader.delivers_bytesOfAll hwhole hdelivered (Reader.standsAt_new .text _)
  rw [Nat.zero_add] at hstand
  rw [h.take_eq]
  exact ⟨t, ht.records_eq, hstand⟩

section Torn

variable {t : Reader}

theorem CutAt.stepsOf_torn (h : CutAt n .text records whole rest)
    (hno : ∀ s, rest.head? ≠ some (.step s))
    (ht : t.StandsAt .text ((bytesOfAll .text rest).take (n - (bytesOfAll .text whole).length))
      ⟨(stepsOf whole).length⟩) :
    stepsOf t.records.1 = [] := by
  cases rest with
  | nil =>
    have hnone : bytesOfAll .text [] = [] := rfl
    rw [hnone, List.take_nil] at ht
    rw [Reader.records_of_nil ht, stepsOf_nil]
  | cons record back =>
    cases record with
    | comment text =>
      rw [h.take_rest_eq] at ht
      exact Reader.stepsOf_torn_comment ht
    | step s => exact absurd rfl (hno s)

theorem CutAt.id_eq {s : Step} {back : List Record}
    (h : CutAt n .text records whole (.step s :: back)) (hconsecutive : Consecutive 0 records) :
    s.id = ⟨(stepsOf whole).length⟩ := by
  rw [← h.append_eq] at hconsecutive
  have hindex := (consecutive_append.mp hconsecutive).2.1
  rw [Nat.zero_add] at hindex
  exact congrArg StepId.mk hindex

/-- What is left behind the whole records is no step, or a step that may have lost hints. -/
theorem CutAt.torn_cases (h : CutAt n .text records whole rest)
    (hconsecutive : Consecutive 0 records)
    (hhints : ∀ s ∈ stepsOf records, ∀ hint ∈ s.hints, hint.number < 0x10000000000000000)
    (ht : t.StandsAt .text ((bytesOfAll .text rest).take (n - (bytesOfAll .text whole).length))
      ⟨(stepsOf whole).length⟩) :
    (stepsOf t.records.1 = [] ∧ ∀ s m, CutsStep n records s m →
      m < headLength s ∧ (0 < m → ∃ line reason, t.records.2 = some (.malformed line reason))) ∨
    (∃ s m hints, CutsStep n records s m ∧ headLength s ≤ m ∧
      stepsOf t.records.1 = [{ s with hints }] ∧
      (hints = s.hints ↔ (bytesOf .text (.step s)).length ≤ m + 1)) := by
  by_cases hstep : ∃ s m, CutsStep n records s m
  · obtain ⟨s, m, hcuts⟩ := hstep
    obtain ⟨hhead, hn⟩ := h.cutsStep_iff.mp hcuts
    obtain ⟨back, rfl⟩ := List.head?_eq_some_iff.mp hhead
    have hm : n - (bytesOfAll .text whole).length = m := by omega
    have hlt := h.lt_length_bytesOf
    rw [h.take_rest_eq, hm] at ht
    rw [hm] at hlt
    by_cases hsemicolon : m < headLength s
    · obtain ⟨hnone, herror⟩ := Reader.records_of_torn_head hsemicolon ht
      refine Or.inl ⟨hnone, fun s' m' hcuts' => ?_⟩
      obtain ⟨rfl, rfl⟩ := hcuts.unique hcuts'
      exact ⟨hsemicolon, herror⟩
    · have hle := Nat.le_of_not_lt hsemicolon
      have hmem : Record.step s ∈ records := by
        rw [← h.append_eq]
        exact List.mem_append_right _ List.mem_cons_self
      rw [← h.id_eq hconsecutive] at ht
      obtain ⟨hints, hrecords, hiff⟩ := Reader.records_of_torn_hints
        (hconsecutive.hints_eq_nil hmem) (hhints s (mem_stepsOf.mpr hmem)) hle hlt ht
      exact Or.inr ⟨s, m, hints, hcuts, hle, by rw [hrecords, stepsOf_step, stepsOf_nil], hiff⟩
  · refine Or.inl ⟨h.stepsOf_torn (fun s hhead => hstep ?_) ht, fun s m hcuts => ?_⟩
    · exact ⟨s, _, h.cutsStep_iff.mpr ⟨hhead, (Nat.add_sub_cancel' h.le).symm⟩⟩
    · exact absurd ⟨s, m, hcuts⟩ hstep

end Torn

/-- What is read of the first `n` bytes of a text trace, compared with the whole trace. -/
structure TextCutLaw (n : Nat) (records : List Record)
    (whole cut : List Record × Option ReadError) : Prop where
  /-- All steps whose bytes are there are delivered. -/
  complete : ∀ front back, CutAt n .text records front back → stepsOf front <+: stepsOf cut.1
  /-- A step that has lost its semicolon is refused. -/
  refused : CutsHead n records → ∃ line reason, cut.2 = some (.malformed line reason)
  /-- A step that is delivered has the kind and the constraint of the step of its number. -/
  agrees : ∀ s ∈ stepsOf cut.1, ∃ hints, (stepsOf whole.1)[s.id.index]? = some { s with hints }
  /-- Only the last step that is delivered may differ from the step of its number. -/
  earlier : ∀ s ∈ (stepsOf cut.1).dropLast, (stepsOf whole.1)[s.id.index]? = some s
  /-- All steps that are delivered are the steps of their numbers unless hints are cut. -/
  identical_iff : (∀ s ∈ stepsOf cut.1, (stepsOf whole.1)[s.id.index]? = some s) ↔
    ¬CutsHints n records

section TextCutLaw

variable {read cut : List Record × Option ReadError}

theorem TextCutLaw.of_complete (h : CutAt n .text records whole rest)
    (hcut : stepsOf cut.1 = stepsOf whole)
    (hwhole : ∀ s ∈ stepsOf whole, (stepsOf read.1)[s.id.index]? = some s)
    (hhead : ∀ s m, CutsStep n records s m →
      m < headLength s ∧ (0 < m → ∃ line reason, cut.2 = some (.malformed line reason))) :
    TextCutLaw n records read cut where
  complete := by
    intro front back h'
    obtain ⟨rfl, rfl⟩ := h.unique h'
    rw [hcut]
  refused := by
    rintro ⟨s, m, hcuts, hpos, -⟩
    exact (hhead s m hcuts).2 hpos
  agrees := by
    intro s hs
    rw [hcut] at hs
    exact ⟨s.hints, hwhole s hs⟩
  earlier := by
    intro s hs
    rw [hcut] at hs
    exact hwhole s (List.mem_of_mem_dropLast hs)
  identical_iff := by
    rw [hcut]
    refine iff_of_true hwhole ?_
    rintro ⟨s, m, hcuts, hle, -⟩
    exact absurd (hhead s m hcuts).1 (Nat.not_lt_of_le hle)

theorem TextCutLaw.of_torn {s : Step} {m : Nat} {hints : List StepId}
    (h : CutAt n .text records whole rest)
    (hcut : stepsOf cut.1 = stepsOf whole ++ [{ s with hints }])
    (hwhole : ∀ s ∈ stepsOf whole, (stepsOf read.1)[s.id.index]? = some s)
    (hs : (stepsOf read.1)[s.id.index]? = some s) (hcuts : CutsStep n records s m)
    (hle : headLength s ≤ m)
    (hiff : hints = s.hints ↔ (bytesOf .text (.step s)).length ≤ m + 1) :
    TextCutLaw n records read cut where
  complete := by
    intro front back h'
    obtain ⟨rfl, rfl⟩ := h.unique h'
    rw [hcut]
    exact List.prefix_append _ _
  refused := by
    rintro ⟨s', m', hcuts', -, hlt⟩
    obtain ⟨rfl, rfl⟩ := hcuts.unique hcuts'
    exact absurd hlt (Nat.not_lt_of_le hle)
  agrees := by
    rw [hcut]
    intro s' hs'
    rcases List.mem_append.mp hs' with hmem | hmem
    · exact ⟨s'.hints, hwhole s' hmem⟩
    · obtain rfl := List.mem_singleton.mp hmem
      exact ⟨s.hints, hs⟩
  earlier := by
    rw [hcut, List.dropLast_concat]
    exact hwhole
  identical_iff := by
    rw [hcut, List.forall_mem_append, List.forall_mem_singleton, and_iff_right hwhole, hs,
      Option.some.injEq]
    constructor
    · rintro heq ⟨s', m', hcuts', -, hlt⟩
      obtain ⟨rfl, rfl⟩ := hcuts.unique hcuts'
      have hsame : hints = s.hints := (congrArg Step.hints heq).symm
      exact absurd (hiff.mp hsame) (Nat.not_le_of_lt hlt)
    · intro hnot
      have hsame : hints = s.hints := by
        refine hiff.mpr (Nat.le_of_not_lt fun hlt => hnot ?_)
        exact ⟨s, m, hcuts, hle, hlt⟩
      rw [hsame]

end TextCutLaw

theorem textCutLaw_of_consecutive (hconsecutive : Consecutive 0 records)
    (hhints : ∀ s ∈ stepsOf records, ∀ hint ∈ s.hints, hint.number < 0x10000000000000000)
    (n : Nat) :
    TextCutLaw n records (Reader.new .text (.ofBytes (bytesOfAll .text records))).records
      (Reader.new .text (.ofBytes ((bytesOfAll .text records).take n))).records := by
  obtain ⟨whole, rest, h⟩ := CutAt.exists_cutAt n .text records
  obtain ⟨t, hcut, ht⟩ := h.exists_reader hconsecutive hhints
  have hread := congrArg (stepsOf ·.1) (Reader.records_text hconsecutive hhints)
  rw [stepsOf_inText] at hread
  have hwhole : ∀ s ∈ stepsOf whole, (stepsOf records)[s.id.index]? = some s := by
    intro s hs
    refine hconsecutive.getElem?_stepsOf ?_
    rw [← h.append_eq, stepsOf_append]
    exact List.mem_append_left _ hs
  have hsteps : stepsOf (whole.flatMap Record.inText ++ t.records.1) =
      stepsOf whole ++ stepsOf t.records.1 := by rw [stepsOf_append, stepsOf_inText]
  rw [← hread] at hwhole
  rw [hcut]
  obtain ⟨hnone, hhead⟩ | ⟨s, m, hints, hcuts, hle, hsome, hiff⟩ :=
    h.torn_cases hconsecutive hhints ht
  · rw [hnone, List.append_nil] at hsteps
    exact .of_complete h hsteps hwhole hhead
  · rw [hsome] at hsteps
    have hs : (stepsOf records)[s.id.index]? = some s := by
      obtain ⟨whole', back, hcut', -⟩ := hcuts
      refine hconsecutive.getElem?_stepsOf (mem_stepsOf.mpr ?_)
      rw [← hcut'.append_eq]
      exact List.mem_append_right _ List.mem_cons_self
    rw [← hread] at hs
    exact .of_torn h hsteps hwhole hs hcuts hle hiff

end Traces

/-- What a reader does with the first `n` bytes of the output of a text writer. It delivers the
steps that are complete, and all that it delivers have the numbers, kinds and constraints of the
steps that were accepted. A step that has lost its semicolon is refused. But a step that has
lost some of its hints is delivered all the same, so the steps are those that were accepted
exactly if no hints are cut. -/
theorem cut_text_trace (ops : List Operation)
    (h : ∀ op ∈ ops, ∀ hint ∈ op.hints, hint.number < 0x10000000000000000) (n : Nat) :
    TextCutLaw n (Writer.accepts .text ops)
      (Reader.new .text (.ofBytes (Writer.output .text ops))).records
      (Reader.new .text (.ofBytes ((Writer.output .text ops).take n))).records := by
  have hhints := Operation.forall_hint_of_accepted h .first
  rw [← Writer.accepts_eq .text] at hhints
  rw [Writer.output_eq]
  exact textCutLaw_of_consecutive (Writer.hasRecorded_accepts .text ops).consecutive hhints n

/-! ## A step that loses a hint -/

/-- A multiple of one variable is at least that multiple. -/
def multiple (k : Int64) : Constraint :=
  ⟨⟨[⟨k, ⟨5, by decide, by decide⟩⟩], List.pairwise_singleton _ _⟩, .atLeast, k⟩

def singleStep : Step := ⟨⟨0⟩, .input, multiple 1, []⟩

/-- The sum of the single step with itself. -/
def doubledStep : Step := ⟨⟨1⟩, .derived, multiple 2, [⟨0⟩, ⟨0⟩]⟩

def doublingOperations : List Operation :=
  [.input singleStep.constraint, .derived doubledStep.constraint doubledStep.hints]

theorem accepts_doublingOperations :
    accepts .text doublingOperations = [.step singleStep, .step doubledStep] := by
  rw [accepts_eq]
  rfl

theorem hint_number_lt_of_doublingOperations :
    ∀ op ∈ doublingOperations, ∀ hint ∈ op.hints, hint.number < 0x10000000000000000 := by decide

/-- The first step has 15 bytes and the second 19. -/
theorem cutsStep_doublingOperations (m : Nat) (hm : m < 19) :
    CutsStep (15 + m) (accepts .text doublingOperations) doubledStep m := by
  have hsingle : (bytesOfAll .text [.step singleStep]).length = 15 := by decide +kernel
  have hdoubled : (bytesOf .text (.step doubledStep)).length = 19 := by decide +kernel
  refine ⟨[.step singleStep], [], ⟨accepts_doublingOperations.symm, ?_, ?_⟩, ?_⟩
  · rw [hsingle]
    omega
  · rintro record ⟨⟩
    rw [bytesOfAll_append, List.length_append, hsingle, bytesOfAll_singleton, hdoubled]
    omega
  · rw [hsingle]

/-- A cut before the semicolon of the second step. -/
theorem cut_text_trace_doublingOperations :
    (∀ op ∈ doublingOperations, ∀ hint ∈ op.hints, hint.number < 0x10000000000000000) ∧
    ∃ line reason,
      (Reader.new .text (.ofBytes ((Writer.output .text doublingOperations).take 28))).records.2 =
        some (.malformed line reason) := by
  have hlaw := cut_text_trace doublingOperations hint_number_lt_of_doublingOperations 28
  refine ⟨hint_number_lt_of_doublingOperations, hlaw.refused ⟨doubledStep, 13, ?_⟩⟩
  exact ⟨cutsStep_doublingOperations 13 (by decide), by decide, by decide +kernel⟩

/-- A cut behind the first hint of the second step, which is delivered with that hint only. -/
theorem exists_step_with_other_hints :
    ¬∀ s ∈ stepsOf
        (Reader.new .text (.ofBytes ((Writer.output .text doublingOperations).take 31))).records.1,
      (stepsOf (Reader.new .text
        (.ofBytes (Writer.output .text doublingOperations))).records.1)[s.id.index]? = some s := by
  have hhints := Operation.forall_hint_of_accepted hint_number_lt_of_doublingOperations .first
  rw [← Writer.accepts_eq .text] at hhints
  have hlaw := textCutLaw_of_consecutive
    (hasRecorded_accepts .text doublingOperations).consecutive hhints 31
  rw [output_eq, hlaw.identical_iff, not_not]
  refine ⟨doubledStep, 16, cutsStep_doublingOperations 16 (by decide), ?_, ?_⟩
  · decide +kernel
  · decide +kernel

end CuttingPlanes
