import CuttingPlanes.Proofs.Trace.Answers
import CuttingPlanes.Proofs.Trace.Auditing
import CuttingPlanes.Proofs.Trace.Binary.Spelling
import CuttingPlanes.Proofs.Trace.Readable

/-!
# Binary traces are canonical up to the order of terms

A binary trace that is read to its end without an error consists of spellings of its
records, in one way only. Writing the records again leaves the same bytes, except that the
terms of each step are put into ascending order. So the bytes of a trace are determined by
its records up to the order of terms (`canonical_up_to_order`).
-/

namespace CuttingPlanes

open Trace.Binary

/-- The bytes are those of the spellings, one behind the other. -/
structure SpelledAs (bytes : List UInt8) (xs : List Spelling) : Prop where
  fits : ∀ x ∈ xs, x.Fits
  bytes_eq : bytes = xs.flatMap Spelling.bytes

section SpelledAs

variable {bytes bytes' : List UInt8} {xs ys : List Spelling} {x : Spelling}

theorem spelledAs_nil : SpelledAs [] [] := ⟨List.forall_mem_nil _, rfl⟩

theorem SpelledAs.cons (hx : x.Fits) (h : SpelledAs bytes xs) :
    SpelledAs (x.bytes ++ bytes) (x :: xs) :=
  ⟨List.forall_mem_cons.mpr ⟨hx, h.fits⟩, by rw [h.bytes_eq, List.flatMap_cons]⟩

theorem Trace.Binary.Spelling.bytes_ne_nil (x : Spelling) : x.bytes ≠ [] := by
  cases x <;> exact List.cons_ne_nil _ _

/-- There is at most one way to spell something in some bytes. -/
theorem SpelledAs.unique (h : SpelledAs bytes xs) (h' : SpelledAs bytes ys) : xs = ys := by
  obtain ⟨hxs, rfl⟩ := h
  obtain ⟨hys, heq⟩ := h'
  induction xs generalizing ys with
  | nil =>
    cases ys with
    | nil => rfl
    | cons y ys => exact absurd (List.append_eq_nil_iff.mp heq.symm).1 y.bytes_ne_nil
  | cons x xs ih =>
    cases ys with
    | nil => exact absurd (List.append_eq_nil_iff.mp heq).1 x.bytes_ne_nil
    | cons y ys =>
      obtain ⟨hx, hxs⟩ := List.forall_mem_cons.mp hxs
      obtain ⟨hy, hys⟩ := List.forall_mem_cons.mp hys
      obtain ⟨hxy, hrest⟩ := Spelling.bytes_append_inj hx hy heq
      rw [hxy, ih hxs hys hrest]

/-- Spellings that differ in the order of terms take equally many bytes. -/
theorem length_of_reorders (h : List.Forall₂ Spelling.Reorders xs ys) :
    (xs.flatMap Spelling.bytes).length = (ys.flatMap Spelling.bytes).length := by
  induction h with
  | nil => rfl
  | cons hxy _ ih =>
    rw [List.flatMap_cons, List.length_append, ih, hxy.length_bytes, List.flatMap_cons,
      List.length_append]

theorem fits_of_reorders (h : List.Forall₂ Spelling.Reorders xs ys) (hxs : ∀ x ∈ xs, x.Fits) :
    ∀ y ∈ ys, y.Fits := by
  induction h with
  | nil => exact hxs
  | cons hxy _ ih =>
    obtain ⟨hx, hxs⟩ := List.forall_mem_cons.mp hxs
    exact List.forall_mem_cons.mpr ⟨hxy.fits hx, ih hxs⟩

theorem eq_of_reorders (h : List.Forall₂ Spelling.Reorders xs ys)
    (hxs : ∀ x ∈ xs, x.IsAscending) (hys : ∀ y ∈ ys, y.IsAscending) : xs = ys := by
  induction h with
  | nil => rfl
  | cons hxy _ ih =>
    obtain ⟨hx, hxs⟩ := List.forall_mem_cons.mp hxs
    obtain ⟨hy, hys⟩ := List.forall_mem_cons.mp hys
    rw [hxy.eq hx hy, ih hxs hys]

theorem reorders_symm (h : List.Forall₂ Spelling.Reorders xs ys) :
    List.Forall₂ Spelling.Reorders ys xs := by
  induction h with
  | nil => exact .nil
  | cons hxy _ ih => exact .cons hxy.symm ih

theorem reorders_trans {zs : List Spelling} (h : List.Forall₂ Spelling.Reorders xs ys)
    (h' : List.Forall₂ Spelling.Reorders ys zs) : List.Forall₂ Spelling.Reorders xs zs := by
  induction h generalizing zs with
  | nil => exact h'
  | cons hxy _ ih =>
    cases h' with
    | cons hyz hys => exact .cons (hxy.trans hyz) (ih hys)

end SpelledAs

/-! ## Written records -/

theorem flatMap_bytes_ofRecord (records : List Record) :
    (records.map Spelling.ofRecord).flatMap Spelling.bytes = Writer.bytesOfAll .binary records := by
  rw [List.flatMap_map, Writer.bytesOfAll]
  exact List.flatMap_congr fun record _ => Spelling.bytes_ofRecord record

theorem isAscending_of_mem_map_ofRecord (records : List Record) :
    ∀ x ∈ records.map Spelling.ofRecord, x.IsAscending :=
  List.forall_mem_map.mpr fun record _ => Spelling.isAscending_ofRecord record

/-! ## Records that are read -/

namespace Reader

variable {r r' : Reader} {record : Record}

theorem ofRecord_of_deliver {entry : Trace.Entry} (h : r.deliver entry = .ok (some record) r') :
    Spelling.ofRecord record = Spelling.ofEntry entry := by
  cases entry <;> cases h <;> rfl

/-- A record takes the bytes of one of its spellings. -/
theorem exists_spelling_of_nextBinary (h : nextBinary r = .ok (some record) r') :
    ∃ x : Spelling, x.Fits ∧ r.source.rest = x.bytes ++ r'.source.rest ∧
      x.Reorders (.ofRecord record) := by
  unfold nextBinary at h
  split at h
  · cases h
  · cases h
  · rename_i code source hbyte
    split at h
    · cases h
    · rename_i entry source' hentry
      obtain ⟨x, hfits, hrest, hx, -⟩ := exists_spelling_of_entry hentry
      refine ⟨x, hfits, ?_, ?_⟩
      · rw [Source.rest_of_byte?_some hbyte, hrest, source_of_deliver h, took]
      · rw [ofRecord_of_deliver h]
        exact hx

theorem exists_spelledAs (hformat : r.format = .binary) (hend : r.records.2 = none) :
    ∃ xs, SpelledAs r.source.rest xs ∧
      List.Forall₂ Spelling.Reorders xs (r.records.1.map Spelling.ofRecord) := by
  fun_induction records r with
  | case1 => cases hend
  | case2 r r' h =>
    rw [nextRecord, hformat] at h
    rw [(ended_of_nextBinary h).1]
    exact ⟨[], spelledAs_nil, .nil⟩
  | case3 r record r' h ih =>
    obtain ⟨xs, hspelled, hxs⟩ := ih ((format_of_record h).trans hformat) hend
    rw [nextRecord, hformat] at h
    obtain ⟨x, hfits, hrest, hx⟩ := exists_spelling_of_nextBinary h
    rw [hrest]
    exact ⟨x :: xs, hspelled.cons hfits, .cons hx hxs⟩

/-! ## Records that are spelled -/

/-- Any spelling of the next record is read as that record. -/
theorem delivers_of_reorders {x : Spelling} {next : StepId} {rest : List UInt8} (hx : x.Fits)
    (h : x.Reorders (.ofRecord record)) (hid : ∀ s, record = .step s → s.id = next)
    (hinput : ∀ s, record = .step s → s.kind = .input → s.hints = [])
    (hr : r.StandsAt .binary (x.bytes ++ rest) next) :
    ∃ s, r.Delivers [record] s ∧ s.StandsAt .binary rest (record.nextBehind next) := by
  cases record with
  | comment text =>
    have hentry : x.Reorders (.ofEntry (.comment text)) := h
    obtain ⟨code, body, hbytes, htakes⟩ := takes_of_reorders hx hentry trivial
    rw [hbytes] at hr
    obtain ⟨s, hnext, hs⟩ := nextRecord_of_entry htakes hr
    exact ⟨s, .singleton hnext, hs⟩
  | step step =>
    have hentry : x.Reorders (.ofEntry (.step step.kind step.constraint step.hints)) := h
    obtain ⟨code, body, hbytes, htakes⟩ := takes_of_reorders hx hentry (hinput step rfl)
    rw [hbytes] at hr
    obtain ⟨s, hnext, hs⟩ := nextRecord_of_entry htakes hr
    exact hs.delivers_step (hid step rfl) hnext

/-- Spellings of numbered records are read as these records. -/
theorem records_of_reorders {xs : List Spelling} {records : List Record} {next : StepId}
    (hxs : ∀ x ∈ xs, x.Fits)
    (h : List.Forall₂ Spelling.Reorders xs (records.map Spelling.ofRecord))
    (hnumbered : NumberedFrom next.index (stepsOf records))
    (hinput : ∀ s, .step s ∈ records → s.kind = .input → s.hints = [])
    (hr : r.StandsAt .binary (xs.flatMap Spelling.bytes) next) : r.records = (records, none) := by
  induction records generalizing r xs next with
  | nil =>
    cases h
    exact (Delivers.nil r).records_of_standsAt hr
  | cons record records ih =>
    cases h with
    | @cons x _ xs _ hx hrest =>
      obtain ⟨hfits, hxs⟩ := List.forall_mem_cons.mp hxs
      have hid : ∀ s, record = .step s → s.id = next := by
        rintro s rfl
        exact congrArg StepId.mk (numberedFrom_cons.mp hnumbered).1
      have hbehind : NumberedFrom (record.nextBehind next).index (stepsOf records) := by
        cases record with
        | comment text => exact hnumbered
        | step s => exact (numberedFrom_cons.mp hnumbered).2
      obtain ⟨s, hs, hstand⟩ := delivers_of_reorders hfits hx hid
        (fun s hs => hinput s (hs ▸ List.mem_cons_self)) hr
      rw [hs.records_eq,
        ih hxs hrest hbehind (fun s hs => hinput s (List.mem_cons_of_mem _ hs)) hstand]
      rfl

theorem numberedFrom_records (r : Reader) : NumberedFrom r.next.index (stepsOf r.records.1) := by
  obtain ⟨later, hdelivered, -⟩ := r.exists_delivered_eq
  have hnumbered := r.numberedFrom_delivered
  rw [hdelivered] at hnumbered
  exact (numberedFrom_append.mp hnumbered).1

theorem hints_eq_nil_of_records (r : Reader) :
    ∀ s, .step s ∈ r.records.1 → s.kind = .input → s.hints = [] := by
  fun_induction records r with
  | case1 => exact fun s hs => absurd hs List.not_mem_nil
  | case2 => exact fun s hs => absurd hs List.not_mem_nil
  | case3 r record r' h ih =>
    intro s hs hkind
    rcases List.mem_cons.mp hs with rfl | hs
    · exact hints_eq_nil_of_nextRecord h hkind
    · exact ih s hs hkind

end Reader

/-- What the bytes of a binary trace are that is read to its end without an error: those of
one list of spellings, of which each is a spelling of its record with the terms in some
order. Writing the records again puts the terms of each step into ascending order and
changes nothing else. It leaves the same bytes exactly when all terms were in order. The
same records are read exactly from the bytes that differ from these in the order of terms. -/
theorem canonical_up_to_order {bytes : List UInt8} {records : List Record}
    (h : (Reader.new .binary (.ofBytes bytes)).records = (records, none)) :
    let again := Writer.bytesOfAll .binary records
    let written := records.map Spelling.ofRecord
    ∃ xs, (SpelledAs bytes xs ∧ ∀ ys, SpelledAs bytes ys → ys = xs) ∧
      SpelledAs again written ∧ List.Forall₂ Spelling.Reorders xs written ∧
      (∀ y ∈ written, y.IsAscending) ∧
      again.length = bytes.length ∧
      (again = bytes ↔ ∀ x ∈ xs, x.IsAscending) ∧
      ∀ bytes', (Reader.new .binary (.ofBytes bytes')).records = (records, none) ↔
        ∃ ys, SpelledAs bytes' ys ∧ List.Forall₂ Spelling.Reorders ys xs := by
  intro again written
  have hread {bytes : List UInt8}
      (h : (Reader.new .binary (.ofBytes bytes)).records = (records, none)) :
      ∃ xs, SpelledAs bytes xs ∧ List.Forall₂ Spelling.Reorders xs written := by
    have hspelled := (Reader.new .binary (.ofBytes bytes)).exists_spelledAs rfl (by rw [h])
    rwa [h] at hspelled
  obtain ⟨xs, hxs, hreorders⟩ := hread h
  have hascending := isAscending_of_mem_map_ofRecord records
  have hwritten : SpelledAs again written :=
    ⟨fits_of_reorders hreorders hxs.fits, (flatMap_bytes_ofRecord records).symm⟩
  refine ⟨xs, ⟨hxs, fun ys hys => hys.unique hxs⟩, hwritten, hreorders, hascending, ?_, ?_, ?_⟩
  · rw [hwritten.bytes_eq, hxs.bytes_eq, length_of_reorders hreorders]
  · constructor
    · intro heq
      rw [hxs.unique (heq ▸ hwritten)]
      exact hascending
    · intro hall
      rw [hwritten.bytes_eq, hxs.bytes_eq, eq_of_reorders hreorders hall hascending]
  · intro bytes'
    constructor
    · intro h'
      obtain ⟨ys, hys, hreorders'⟩ := hread h'
      exact ⟨ys, hys, reorders_trans hreorders' (reorders_symm hreorders)⟩
    · rintro ⟨ys, hys, hreorders'⟩
      have hnumbered := (Reader.new .binary (.ofBytes bytes)).numberedFrom_records
      have hinput := (Reader.new .binary (.ofBytes bytes)).hints_eq_nil_of_records
      rw [h] at hnumbered hinput
      have hstand := Reader.standsAt_new .binary bytes'
      rw [hys.bytes_eq] at hstand ⊢
      exact Reader.records_of_reorders hys.fits (reorders_trans hreorders' hreorders) hnumbered
        hinput hstand

/-- An input of which the terms stand in descending order, and a comment. -/
def descendingTrace : List UInt8 :=
  [0x69, 0x3e, 0x04, 0x02, 0x0e, 0x02, 0x0c, 0x02, 0x00, 0x2a, 0x02, 0x63]

/-- The terms of the input as they stand in the trace. -/
def descendingTerms : List Term :=
  [⟨1, ⟨7, by decide, by decide⟩⟩, ⟨1, ⟨6, by decide, by decide⟩⟩]

def descendingRecords : List Record :=
  let c : Constraint := ⟨⟨descendingTerms.reverse, by decide⟩, .atLeast, 1⟩
  [.step ⟨.first, .input, c, []⟩, .comment "c"]

theorem records_descendingTrace :
    (Reader.new .binary (.ofBytes descendingTrace)).records = (descendingRecords, none) := by
  let xs : List Spelling := [.step .input .atLeast descendingTerms 1 [], .comment "c"]
  have hstep : (Spelling.step .input .atLeast descendingTerms 1 []).Fits :=
    ⟨by decide, by decide, List.forall_mem_nil _⟩
  have hcomment : (Spelling.comment "c").Fits := by
    show (Text.encode "c".toList).length < _
    decide
  have hxs : ∀ x ∈ xs, x.Fits :=
    List.forall_mem_cons.mpr ⟨hstep, List.forall_mem_singleton.mpr hcomment⟩
  have hreorders : List.Forall₂ Spelling.Reorders xs (descendingRecords.map Spelling.ofRecord) :=
    .cons (.step _ _ _ _ (List.reverse_perm _).symm) (.cons (.comment _) .nil)
  have hbytes : descendingTrace = xs.flatMap Spelling.bytes := by decide +kernel
  have hstand := Reader.standsAt_new .binary descendingTrace
  refine Reader.records_of_reorders hxs hreorders rfl ?_ (hbytes ▸ hstand)
  intro s hs
  obtain rfl : s = _ := Record.step.inj ((List.mem_cons.mp hs).resolve_right (by simp))
  exact fun _ => rfl

theorem canonical_up_to_order_descendingTrace :
    (Reader.new .binary (.ofBytes descendingTrace)).records = (descendingRecords, none) ∧
    Writer.bytesOfAll .binary descendingRecords =
      [0x69, 0x3e, 0x04, 0x02, 0x0c, 0x02, 0x0e, 0x02, 0x00, 0x2a, 0x02, 0x63] ∧
    ∃ xs, SpelledAs descendingTrace xs ∧
      List.Forall₂ Spelling.Reorders xs (descendingRecords.map Spelling.ofRecord) ∧
      ¬∀ x ∈ xs, x.IsAscending := by
  have hbytes : Writer.bytesOfAll .binary descendingRecords =
      [0x69, 0x3e, 0x04, 0x02, 0x0c, 0x02, 0x0e, 0x02, 0x00, 0x2a, 0x02, 0x63] := by
    decide +kernel
  obtain ⟨xs, ⟨hxs, -⟩, -, hreorders, -, -, hiff, -⟩ :=
    canonical_up_to_order records_descendingTrace
  refine ⟨records_descendingTrace, hbytes, xs, hxs, hreorders, ?_⟩
  rw [← hiff, hbytes]
  decide

end CuttingPlanes
