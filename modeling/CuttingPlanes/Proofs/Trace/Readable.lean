import CuttingPlanes.Proofs.Text.Lines
import CuttingPlanes.Proofs.Trace.Binary.Spelling
import CuttingPlanes.Proofs.Trace.Numbering
import CuttingPlanes.Proofs.Trace.Replaying
import CuttingPlanes.Proofs.Trace.Text.Grammar

/-!
# What is delivered can be written again

Whatever the bytes of a trace, the records that a reader delivers from it fit into a trace
in either format: inputs have no hints, and a count or a length is at most that of the
bytes (`fitsBinary_of_records`). A comment that was read from a line of text is one line
without carriage returns at its end, so it is read from text as it was (`inText_of_records`).
-/

namespace CuttingPlanes

open Actions

/-- The lengths in the record are less than 2 ^ 63. -/
def Record.LengthsFit : Record → Prop
  | .comment text => (Text.encode text.toList).length < 0x8000000000000000
  | .step s => s.hints.length < 0x8000000000000000

/-! ## Lines -/

namespace Text

theorem length_le_length_encode (cs : List Char) : cs.length ≤ (encode cs).length := by
  induction cs with
  | nil => exact Nat.le_refl _
  | cons c cs ih =>
    have hpos : 0 < (String.utf8EncodeChar c).length := by
      rw [String.length_utf8EncodeChar]
      exact Char.utf8Size_pos c
    rw [encode, List.flatMap_cons, List.length_append, List.length_cons]
    exact (Nat.add_comm _ _).trans_le (Nat.add_le_add hpos ih)

theorem length_words_le (cs : List Char) : (words cs).length ≤ cs.length := by
  have h := splitsInto_words cs
  generalize words cs = ws at h ⊢
  induction h with
  | nil => exact Nat.le_refl _
  | blank _ _ ih => exact Nat.le_succ_of_le ih
  | last hw => exact List.length_pos_iff.mpr hw.ne_nil
  | word hw _ _ ih =>
    have hpos := List.length_pos_iff.mpr hw.ne_nil
    rw [List.length_append, List.length_cons, Nat.add_comm]
    exact Nat.add_le_add hpos ih

end Text

namespace Trace.Text

open CuttingPlanes.Text

variable {line : List Char}

theorem readLine_eq_step {kind : StepKind} {c : Constraint} {hints : List StepId}
    (h : readLine line = .ok (some (.step kind c hints))) :
    (kind = .input → hints = []) ∧ hints.length ≤ line.length := by
  obtain ⟨ws, hsplit, hspells⟩ := ((lineLaw line).step_iff kind c hints).mp h
  have hline := length_words_le line
  rw [hsplit.words_eq] at hline
  cases hspells with
  | intro _ _ _ _ _ hhints hinput =>
    refine ⟨hinput, ?_⟩
    rw [← hhints.length_eq]
    simp only [List.length_cons, List.length_append] at hline
    omega

/-- The text of a comment is a part of its line and does not end in a carriage return. -/
theorem exists_of_readLine_eq_comment {text : String}
    (h : readLine line = .ok (some (.comment text))) :
    (∃ front back, line = front ++ (text.toList ++ back)) ∧ text.toList.getLast? ≠ some '\r' := by
  obtain ⟨bs, body, n, rfl, -, hlast, rfl⟩ := ((lineLaw line).text_iff text).mp h
  unfold commentText
  split
  · rename_i text
    rw [String.toList_ofList]
    refine ⟨⟨bs ++ ['*', ' '], List.replicate n '\r', by simp⟩, ?_⟩
    exact (getLast?_append_cons_ne (by decide) [] text).mp hlast
  · rw [String.toList_ofList]
    exact ⟨⟨bs ++ ['*'], List.replicate n '\r', by simp⟩, hlast⟩

end Trace.Text

/-! ## Binary records -/

namespace Trace.Binary

theorem entry_eq_ok {code : UInt8} {e : Entry} {s s' : Source} (h : entry code s = .ok e s') :
    (∃ text : String, e = .comment text ∧
      (Text.encode text.toList).length < 0x8000000000000000) ∨
    ∃ kind c hints, e = .step kind c hints ∧ (kind = .input → hints = []) ∧
      hints.length < 0x8000000000000000 := by
  obtain ⟨x, hfits, -, hx, hallowed⟩ := exists_spelling_of_entry h
  have hwritten := hx.fits hfits
  cases e with
  | comment text => exact Or.inl ⟨text, rfl, hwritten⟩
  | step kind c hints => exact Or.inr ⟨kind, c, hints, rfl, hallowed, hwritten.2.length_lt⟩

end Trace.Binary

/-! ## Records -/

namespace Reader

variable {r r' : Reader} {record : Record} {records : List Record}

/-- A record of a text trace comes from one of its lines. -/
theorem exists_line_of_nextText (h : nextText r = .ok (some record) r') :
    ∃ line entry, (Text.encode line).length ≤ r.source.rest.length ∧ '\n' ∉ line ∧
      Trace.Text.readLine line = .ok (some entry) ∧
      ∃ q : Reader, q.deliver entry = .ok (some record) r' := by
  fun_induction nextText r with
  | case1 => cases h
  | case2 => cases h
  | case3 => cases h
  | case4 => cases h
  | case5 r bytes source hline line _ _ ih =>
    obtain ⟨line, entry, hlength, hlf, hread, q, hq⟩ := ih h
    have hlt := Source.length_rest_of_line?_some hline
    exact ⟨line, entry, Nat.le_trans hlength (Nat.le_of_lt hlt), hlf, hread, q, hq⟩
  | case6 r bytes source hline line hdecode entry hread =>
    have hbytes := Text.eq_encode_of_decode? hdecode
    have hlength := Source.length_le_of_line?_some hline
    have hlf := Source.lf_notMem_of_line?_some hline
    rw [hbytes] at hlength hlf
    refine ⟨line, entry, hlength, fun hmem => hlf ?_, hread, _, h⟩
    exact List.mem_flatMap.mpr ⟨'\n', hmem, by decide⟩

theorem exists_entry_of_nextBinary (h : nextBinary r = .ok (some record) r') :
    ∃ code source entry source', Trace.Binary.entry code source = .ok entry source' ∧
      ∃ q : Reader, q.deliver entry = .ok (some record) r' := by
  unfold nextBinary at h
  split at h
  · cases h
  · cases h
  · rename_i code source _
    split at h
    · cases h
    · rename_i entry source' hentry
      exact ⟨code, source, entry, source', hentry, _, h⟩

/-- Neither format gives hints to an input. -/
theorem hints_eq_nil_of_nextRecord {s : Step} (h : nextRecord r = .ok (some (.step s)) r')
    (hkind : s.kind = .input) : s.hints = [] := by
  unfold nextRecord at h
  split at h
  · obtain ⟨line, entry, -, -, hread, q, hq⟩ := exists_line_of_nextText h
    cases entry <;> cases hq
    exact (Trace.Text.readLine_eq_step hread).1 hkind
  · obtain ⟨code, source, entry, source', hentry, q, hq⟩ := exists_entry_of_nextBinary h
    obtain ⟨text, rfl, -⟩ | ⟨kind, c, hints, rfl, hinput, -⟩ := Trace.Binary.entry_eq_ok hentry
    · cases hq
    · cases hq
      exact hinput hkind

theorem lengthsFit_of_nextRecord (h : nextRecord r = .ok (some record) r')
    (hr : r.source.rest.length < 0x8000000000000000) : record.LengthsFit := by
  unfold nextRecord at h
  split at h
  · obtain ⟨line, entry, hline, -, hread, q, hq⟩ := exists_line_of_nextText h
    cases entry with
    | comment text =>
      cases hq
      obtain ⟨⟨front, back, rfl⟩, -⟩ := Trace.Text.exists_of_readLine_eq_comment hread
      rw [Text.encode_append, Text.encode_append, List.length_append, List.length_append] at hline
      show (Text.encode text.toList).length < _
      omega
    | step kind c hints =>
      cases hq
      have hchars := Text.length_le_length_encode line
      have hhints := (Trace.Text.readLine_eq_step hread).2
      show hints.length < _
      omega
  · obtain ⟨code, source, entry, source', hentry, q, hq⟩ := exists_entry_of_nextBinary h
    obtain ⟨text, rfl, hlength⟩ | ⟨kind, c, hints, rfl, -, hlength⟩ :=
      Trace.Binary.entry_eq_ok hentry
    · cases hq
      exact hlength
    · cases hq
      exact hlength

/-- Every record takes at least one byte. -/
theorem length_records_le (r : Reader) : r.records.1.length ≤ r.source.rest.length := by
  fun_induction Reader.records r with
  | case1 => exact Nat.zero_le _
  | case2 => exact Nat.zero_le _
  | case3 r record r' h ih =>
    exact Nat.le_trans (Nat.succ_le_succ ih) (length_rest_of_nextRecord h)

theorem lengthsFit_of_records (hr : r.source.rest.length < 0x8000000000000000) :
    ∀ record ∈ r.records.1, record.LengthsFit := by
  fun_induction Reader.records r with
  | case1 => exact List.forall_mem_nil _
  | case2 => exact List.forall_mem_nil _
  | case3 r record r' h ih =>
    intro record' hmem
    rcases List.mem_cons.mp hmem with rfl | hmem
    · exact lengthsFit_of_nextRecord h hr
    · exact ih (Nat.lt_trans (length_rest_of_nextRecord h) hr) record' hmem

/-- If hints come before their steps, then what is delivered can be written in either
format. -/
theorem fitsBinary_of_records (hr : r.source.rest.length < 0x8000000000000000)
    (h : Consecutive 0 r.records.1) : ∀ record ∈ r.records.1, record.FitsBinary := by
  intro record hrecord
  have hfit := lengthsFit_of_records hr record hrecord
  cases record with
  | comment text => exact hfit
  | step s =>
    refine ⟨hfit, fun hint hhint => ?_⟩
    have hlt := h.hint_lt hrecord hhint
    have hsteps : (stepsOf r.records.1).length ≤ r.records.1.length :=
      List.length_filterMap_le _ _
    have hlength := r.length_records_le
    rw [StepId.number]
    omega

/-! ## Comments in text -/

theorem inText_comment {text : String} (hlf : '\n' ∉ text.toList)
    (hlast : text.toList.getLast? ≠ some '\r') :
    (Record.comment text).inText = [.comment text] := by
  cases hempty : text.toList.isEmpty with
  | true =>
    obtain rfl : text = "" := String.toList_inj.mp (List.isEmpty_iff.mp hempty)
    rfl
  | false =>
    have hne : text.toList ≠ [] := by
      rwa [← List.isEmpty_eq_false_iff]
    have hreturns : Text.dropReturns text.toList = text.toList :=
      Text.dropReturns_eq_iff.mpr ⟨⟨0, (List.append_nil _).symm⟩, hlast⟩
    simp only [Record.inText, hempty, Bool.false_eq_true, if_false,
      Text.lines_of_lf_notMem hne hlf, List.map_cons, List.map_nil, hreturns, String.ofList_toList]

theorem inText_of_nextText (h : nextText r = .ok (some record) r') : record.inText = [record] := by
  obtain ⟨line, entry, -, hlf, hread, q, hq⟩ := exists_line_of_nextText h
  cases entry with
  | comment text =>
    cases hq
    obtain ⟨⟨front, back, rfl⟩, hlast⟩ := Trace.Text.exists_of_readLine_eq_comment hread
    exact inText_comment
      (fun hmem => hlf (List.mem_append_right _ (List.mem_append_left _ hmem))) hlast
  | step kind c hints =>
    cases hq
    rfl

/-- What was read from text is read from text again. -/
theorem inText_of_records (hformat : r.format = .text) :
    r.records.1.flatMap Record.inText = r.records.1 := by
  fun_induction Reader.records r with
  | case1 => rfl
  | case2 => rfl
  | case3 r record r' h ih =>
    have htext : nextText r = .ok (some record) r' := by
      rw [nextRecord, hformat] at h
      exact h
    have hformat' : r'.format = .text := (format_of_record h).trans hformat
    rw [List.flatMap_cons, ih hformat', inText_of_nextText htext]
    rfl

end Reader

end CuttingPlanes
