import CuttingPlanes.Proofs.LinearForm.Forming
import CuttingPlanes.Proofs.Trace.Recording

/-!
# Reading records one after the other

`Delivers` says which records a reader delivers on its way to another state, and
`StandsAt` what is left to be read in a state. A reader that stands at the end of
its bytes has come to the end of the trace.
-/

namespace CuttingPlanes

/-- The terms of a constraint are put together to that constraint again, in any order. -/
theorem Trace.Entry.ofParts_of_perm {kind : StepKind} {terms : List Term} {hints : List StepId}
    {c : Constraint} (hterms : c.form.terms.Perm terms) (h : kind = .input → hints = []) :
    ofParts kind terms c.relation c.bound hints = .ok (.step kind c hints) := by
  have hno : ¬(kind = .input ∧ hints ≠ []) := fun ⟨hkind, hne⟩ => hne (h hkind)
  simp [ofParts, hno, Constraint.ofTerms, LinearForm.ofTerms_of_perm hterms]

/-- A step holds the parts that it is made of, and is no input with hints. -/
theorem Trace.Entry.ofParts_eq_ok {kind : StepKind} {terms : List Term} {relation : Relation}
    {bound : Int64} {hints : List StepId} {entry : Trace.Entry}
    (h : ofParts kind terms relation bound hints = .ok entry) :
    ∃ c, entry = .step kind c hints ∧ (kind = .input → hints = []) ∧
      c.form.terms.Perm terms ∧ c.relation = relation ∧ c.bound = bound := by
  unfold ofParts Constraint.ofTerms at h
  split at h
  · cases h
  · rename_i hno
    split at h
    · rename_i c hc
      split at hc <;> cases hc
      cases h
      exact ⟨_, rfl, fun hkind => by_contra fun hne => hno ⟨hkind, hne⟩,
        LinearForm.perm_of_ofTerms ‹_›, rfl, rfl⟩
    · cases h

theorem Trace.Entry.ofParts_terms {kind : StepKind} {hints : List StepId} (c : Constraint)
    (h : kind = .input → hints = []) :
    ofParts kind c.form.terms c.relation c.bound hints = .ok (.step kind c hints) :=
  ofParts_of_perm (.refl _) h

namespace Reader

/-- The first reader delivers the records and is the second reader behind them. -/
inductive Delivers : Reader → List Record → Reader → Prop
  | nil (r : Reader) : Delivers r [] r
  | cons {r s t : Reader} {record : Record} {records : List Record}
      (h : nextRecord r = .ok (some record) s) (hs : Delivers s records t) :
      Delivers r (record :: records) t

/-- The reader has the given bytes before it, and the number of the next step. -/
structure StandsAt (r : Reader) (format : Format) (bytes : List UInt8) (next : StepId) : Prop where
  format_eq : r.format = format
  rest_eq : r.source.rest = bytes
  failure_eq : r.source.failure = none
  next_eq : r.next = next

theorem standsAt_new (format : Format) (bytes : List UInt8) :
    (new format (.ofBytes bytes)).StandsAt format bytes .first := ⟨rfl, rfl, rfl, rfl⟩

variable {r s t : Reader} {records more : List Record}

/-- What is made of a line that has been taken. -/
theorem nextText_of_line {bytes : List UInt8} {source : Source}
    (h : r.source.line? = .ok (some bytes) source) :
    nextText r = match Text.decode? bytes with
      | none => .error (.fault .notText) (r.stopped source)
      | some line =>
        match Trace.Text.readLine line with
        | .error reason => .error (.malformed (r.taken + 1) reason) (r.took source)
        | .ok none => nextText (r.took source)
        | .ok (some entry) => (r.took source).deliver entry := by
  rw [nextText]
  split <;> rename_i heq <;> rw [h] at heq <;> cases heq
  rfl

/-- What is made of a code that has been taken. -/
theorem nextBinary_of_code {code : UInt8} {source : Source}
    (h : r.source.byte? = .ok (some code) source) :
    nextBinary r = match Trace.Binary.entry code source with
      | .error e source => .error (binaryError (r.taken + 1) e) (r.took source)
      | .ok entry source => (r.took source).deliver entry := by
  unfold nextBinary
  cases hentry : Trace.Binary.entry code source <;> simp only [h, hentry]

theorem Delivers.singleton {record : Record} (h : nextRecord r = .ok (some record) s) :
    r.Delivers [record] s := .cons h (.nil s)

theorem Delivers.append (h : r.Delivers records s) (h' : s.Delivers more t) :
    r.Delivers (records ++ more) t := by
  induction h with
  | nil => exact h'
  | cons hnext _ ih => exact .cons hnext (ih h')

theorem Delivers.records_eq (h : r.Delivers records s) :
    r.records = (records ++ s.records.1, s.records.2) := by
  induction h with
  | nil => rfl
  | cons hnext _ ih => rw [records_of_record hnext, ih]; rfl

theorem StandsAt.nextRecord_nil {format : Format} {next : StepId}
    (h : r.StandsAt format [] next) : nextRecord r = .ok none (r.stopped r.source.exhausted) := by
  unfold nextRecord
  split
  · rw [nextText]
    have hline : r.source.line? = .ok none r.source.exhausted := by
      simp [Source.line?, h.rest_eq, Source.atEnd, h.failure_eq]
    split <;> simp_all
  · have hbyte : r.source.byte? = .ok none r.source.exhausted := by
      simp [Source.byte?, h.rest_eq, Source.atEnd, h.failure_eq]
    rw [nextBinary, hbyte]

/-- The reader has come to the end of the trace, and stays there. -/
def AtEnd (r : Reader) : Prop := nextRecord r = .ok none r

theorem StandsAt.atEnd {format : Format} {next : StepId} (h : r.StandsAt format [] next) :
    r.AtEnd := by
  have hnext := h.nextRecord_nil
  obtain ⟨format', ⟨bytes, position, failure⟩, taken, number⟩ := r
  obtain rfl : bytes = [] := h.rest_eq
  exact hnext

theorem Delivers.records_of_standsAt {format : Format} {next : StepId}
    (h : r.Delivers records s) (hs : s.StandsAt format [] next) : r.records = (records, none) := by
  rw [h.records_eq, records_of_end hs.nextRecord_nil, List.append_nil]

/-! ## Progress -/

open Source in
theorem advances_deliver (r : Reader) (entry : Trace.Entry) :
    r.source.Advances (stateAfter (r.deliver entry)).source := by
  cases entry <;> exact .refl _

open Source in
theorem advances_nextText (r : Reader) :
    r.source.Advances (stateAfter (nextText r)).source := by
  fun_induction nextText r with
  | case1 r fault source h => exact advancing_line?.error h
  | case2 r source h => exact advancing_line?.ok h
  | case3 r bytes source h _ => exact advancing_line?.ok h
  | case4 r bytes source h line _ reason _ => exact advancing_line?.ok h
  | case5 r bytes source h line _ _ ih => exact (advancing_line?.ok h).trans ih
  | case6 r bytes source h line _ entry _ =>
    exact (advancing_line?.ok h).trans (advances_deliver (r.took source) entry)

open Source in
theorem advances_nextBinary (r : Reader) :
    r.source.Advances (stateAfter (nextBinary r)).source := by
  unfold nextBinary
  split
  · rename_i hbyte
    exact advancing_byte?.error hbyte
  · rename_i hbyte
    exact advancing_byte?.ok hbyte
  · rename_i code source hbyte
    have hfirst := advancing_byte?.ok hbyte
    have hentry := Trace.Binary.advancing_entry code
    split
    · rename_i herror
      exact hfirst.trans (hentry.error herror)
    · rename_i entry source' hok
      exact (hfirst.trans (hentry.ok hok)).trans (advances_deliver (r.took source') entry)

/-- Whatever comes of it, reading a record only goes on in the source. -/
theorem advances_nextRecord (r : Reader) :
    r.source.Advances (Source.stateAfter (nextRecord r)).source := by
  unfold nextRecord
  split
  · exact advances_nextText r
  · exact advances_nextBinary r

open Source in
theorem format_deliver (r : Reader) (entry : Trace.Entry) :
    (stateAfter (r.deliver entry)).format = r.format := by
  cases entry <;> rfl

open Source in
theorem format_nextText (r : Reader) : (stateAfter (nextText r)).format = r.format := by
  fun_induction nextText r with
  | case1 => rfl
  | case2 => rfl
  | case3 => rfl
  | case4 => rfl
  | case5 r bytes source _ line _ _ ih => exact ih
  | case6 r bytes source _ line _ entry _ => exact format_deliver (r.took source) entry

open Source in
theorem format_nextBinary (r : Reader) : (stateAfter (nextBinary r)).format = r.format := by
  unfold nextBinary
  split
  · rfl
  · rfl
  · split
    · rfl
    · rename_i entry source' _
      exact format_deliver (r.took source') entry

/-- A reader does not change to another format. -/
theorem format_nextRecord (r : Reader) :
    (Source.stateAfter (nextRecord r)).format = r.format := by
  unfold nextRecord
  split
  · exact format_nextText r
  · exact format_nextBinary r

theorem format_of_record {record : Record} (h : nextRecord r = .ok (some record) s) :
    s.format = r.format := by
  rw [← format_nextRecord r, h]
  rfl

theorem Delivers.advances (h : r.Delivers records s) : r.source.Advances s.source := by
  induction h with
  | nil r => exact .refl r.source
  | @cons r s t record records hnext _ ih =>
    have hstep := advances_nextRecord r
    rw [hnext] at hstep
    exact hstep.trans ih

/-- A reader that has come to the bytes behind some others stands right behind these. -/
theorem Delivers.source_eq {format : Format} {bytes rest : List UInt8} {next : StepId}
    (h : (new format (.ofBytes (bytes ++ rest))).Delivers records s)
    (hs : s.StandsAt format rest next) : s.source = ⟨rest, bytes.length, none⟩ := by
  obtain ⟨taken, htaken, hposition, hfailure⟩ := h.advances
  rw [hs.rest_eq] at htaken
  obtain rfl : bytes = taken := List.append_cancel_right htaken
  obtain ⟨format', ⟨rest', position, failure⟩, count, number⟩ := s
  obtain rfl : rest' = rest := hs.rest_eq
  obtain rfl : position = 0 + bytes.length := hposition
  obtain rfl : failure = none := hfailure
  rw [Nat.zero_add]

/-! ## Entries -/

/-- A step gets its number from where the reader stands. -/
theorem StandsAt.delivers_step {format : Format} {rest : List UInt8} {next : StepId}
    (hs : s.StandsAt format rest next) {step : Step} (hid : step.id = next)
    (h : nextRecord r = s.deliver (.step step.kind step.constraint step.hints)) :
    ∃ t, r.Delivers [.step step] t ∧ t.StandsAt format rest next.next := by
  have hstep : (⟨s.next, step.kind, step.constraint, step.hints⟩ : Step) = step := by
    rw [hs.next_eq, ← hid]
  rw [deliver, hstep] at h
  exact ⟨_, .singleton h, hs.format_eq, hs.rest_eq, hs.failure_eq,
    congrArg StepId.next hs.next_eq⟩

/-! ## Written records -/

/-- The bytes of the record are delivered as the given records, whatever follows. -/
def DeliveredAs (format : Format) (record : Record) (records : List Record) : Prop :=
  ∀ (r : Reader) (rest : List UInt8) (next : StepId), (∀ s, record = .step s → s.id = next) →
    r.StandsAt format (Writer.bytesOf format record ++ rest) next →
      ∃ s, r.Delivers records s ∧ s.StandsAt format rest (record.nextBehind next)

/-- A trace is delivered as what its records are delivered as. -/
theorem delivers_bytesOfAll {format : Format} {f : Record → List Record} {next : StepId}
    {rest : List UInt8} (h : Consecutive next.index records)
    (hf : ∀ record ∈ records, DeliveredAs format record (f record))
    (hr : r.StandsAt format (Writer.bytesOfAll format records ++ rest) next) :
    ∃ s, r.Delivers (records.flatMap f) s ∧
      s.StandsAt format rest ⟨next.index + (stepsOf records).length⟩ := by
  induction records generalizing r next with
  | nil => exact ⟨r, .nil r, hr⟩
  | cons record records ih =>
    rw [Writer.bytesOfAll, List.flatMap_cons, List.append_assoc] at hr
    have hid : ∀ s, record = .step s → s.id = next := by
      rintro s rfl
      exact congrArg StepId.mk h.1
    obtain ⟨s, hs, hstand⟩ := hf record List.mem_cons_self r _ next hid hr
    have hrest : Consecutive (record.nextBehind next).index records := by
      cases record with
      | comment text => exact h
      | step s => exact h.2.2.2
    obtain ⟨t, ht, hstand'⟩ := ih hrest (fun q hq => hf q (List.mem_cons_of_mem _ hq)) hstand
    have hlength : (record.nextBehind next).index + (stepsOf records).length =
        next.index + (stepsOf (record :: records)).length := by
      cases record with
      | comment text => rfl
      | step s =>
        simp only [Record.nextBehind, StepId.next, stepsOf_step, List.length_cons]
        omega
    rw [hlength] at hstand'
    exact ⟨t, hs.append ht, hstand'⟩

theorem records_of_bytesOfAll {format : Format} {f : Record → List Record}
    (h : Consecutive 0 records) (hf : ∀ record ∈ records, DeliveredAs format record (f record)) :
    (new format (.ofBytes (Writer.bytesOfAll format records))).records =
      (records.flatMap f, none) := by
  have hr := standsAt_new format (Writer.bytesOfAll format records)
  rw [← List.append_nil (Writer.bytesOfAll format records)] at hr
  obtain ⟨s, hs, hstand⟩ := delivers_bytesOfAll h hf hr
  rw [List.append_nil] at hs
  exact hs.records_of_standsAt hstand

end Reader

end CuttingPlanes
