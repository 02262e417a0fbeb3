import CuttingPlanes.Proofs.Trace.Answers
import CuttingPlanes.Proofs.Trace.Binary.Script

/-!
# Reading on comes to an end

Every call that answers with a record or an error takes a byte, and behind an answer with the
end there are only such answers. So all but a few of the calls for the records of a trace answer
with its end: the others are no more than its bytes (`exists_answer_end_iff`). What a binary
record declares makes no difference. A call reads no more integers than it takes bytes
(`integerReads_add_le`), and fails when a declared length is more than there is
(`nextBinary_of_overdraws`).
-/

namespace CuttingPlanes

open Actions Source Varint

/-! ## Declared lengths -/

namespace Trace.Binary

variable {bytes rest rest' : List UInt8} {n : Nat}

/-- The bytes begin with so many integers. -/
def StartsWithIntegers (n : Nat) (bytes : List UInt8) : Prop :=
  ∃ vs rest, vs.length = n ∧ bytes = encodeAll vs ++ rest

/-- The record at the front of the bytes declares more than there is behind its declaration:
a text that is longer than the rest, or terms or hints whose integers are not all there. -/
inductive Overdraws : List UInt8 → Prop
  | text (count : Int64) (rest : List UInt8) (h : (rest.length : Int) < count.toInt) :
    Overdraws (commentCode :: (encode count ++ rest))
  | terms (kind : StepKind) (relation : UInt8) (count : Int64) (rest : List UInt8)
    (h : ¬StartsWithIntegers (2 * count.toInt.toNat) rest) :
    Overdraws (kind.code :: relation :: (encode count ++ rest))
  | hints (kind : StepKind) (relation : UInt8) (termCount : Int64) (terms : List Int64)
    (bound count : Int64) (rest : List UInt8) (hterms : terms.length = 2 * termCount.toInt.toNat)
    (h : ¬StartsWithIntegers count.toInt.toNat rest) :
    Overdraws (kind.code :: relation :: (encode termCount ++ (encodeAll terms ++
      (encode bound ++ (encode count ++ rest)))))

/-- The integers of which the terms are made. -/
def termIntegers (terms : List Term) : List Int64 :=
  terms.flatMap fun t => [t.coeff, Int64.ofNat t.var.number]

def hintIntegers (hints : List StepId) : List Int64 := hints.map fun h => Int64.ofNat h.number

theorem length_termIntegers (terms : List Term) :
    (termIntegers terms).length = 2 * terms.length := by
  simp [termIntegers, List.length_flatMap, Nat.mul_comm]

theorem length_hintIntegers (hints : List StepId) :
    (hintIntegers hints).length = hints.length := List.length_map _

/-- A step is spelled in integers, except for its codes. -/
theorem bytes_step_append (kind : StepKind) (relation : Relation) (terms : List Term)
    (bound : Int64) (hints : List StepId) (rest : List UInt8) :
    (Spelling.step kind relation terms bound hints).bytes ++ rest =
      kind.code :: relation.code :: (encodeNat terms.length ++
        (encodeAll (termIntegers terms) ++ (encode bound ++ (encodeNat hints.length ++
          (encodeAll (hintIntegers hints) ++ rest))))) := by
  have hterms : encodeAll (termIntegers terms) = terms.flatMap termBytes := by
    rw [encodeAll, termIntegers, List.flatMap_assoc]
    refine List.flatMap_congr fun t _ => ?_
    simp [termBytes, encodeNat]
  have hhints : encodeAll (hintIntegers hints) = hints.flatMap fun h => encodeNat h.number := by
    rw [encodeAll, hintIntegers, List.flatMap_map]
    rfl
  simp only [hterms, hhints, Spelling.bytes, partsBody, List.cons_append, List.nil_append,
    List.append_assoc]

theorem encode_append_encodeNat_inj {v : Int64} (hn : n < 0x8000000000000000)
    (h : encode v ++ rest = encodeNat n ++ rest') : v.toInt.toNat = n ∧ rest = rest' := by
  obtain ⟨rfl, hrest⟩ := encode_append_inj h
  rw [toInt_ofNat hn]
  exact ⟨Int.toNat_natCast n, hrest⟩

theorem encodeAll_append_inj {vs ws : List Int64} (hlength : vs.length = ws.length)
    (h : encodeAll vs ++ rest = encodeAll ws ++ rest') : vs = ws ∧ rest = rest' :=
  flatMap_append_inj (fun _ _ _ _ => encode_append_inj) hlength h

/-- No record is spelled with a length that is more than there is. -/
theorem Overdraws.ne_append {x : Spelling} (h : Overdraws bytes) (hx : x.Fits) :
    bytes ≠ x.bytes ++ rest := by
  intro heq
  cases x with
  | comment body =>
    cases h with
    | text count tail hshort =>
      rw [Spelling.bytes, commentBody, List.cons_append, List.append_assoc] at heq
      obtain ⟨hcount, rfl⟩ := encode_append_encodeNat_inj hx (List.cons.inj heq).2
      rw [List.length_append] at hshort
      omega
    | terms kind => exact absurd (List.cons.inj heq).1.symm (commentCode_ne_code kind)
    | hints kind => exact absurd (List.cons.inj heq).1.symm (commentCode_ne_code kind)
  | step kind' relation' terms bound' hints =>
    rw [bytes_step_append] at heq
    cases h with
    | text => exact absurd (List.cons.inj heq).1 (commentCode_ne_code kind')
    | terms kind relation count tail hmissing =>
      simp only [List.cons.injEq] at heq
      obtain ⟨hcount, hterms⟩ := encode_append_encodeNat_inj hx.1 heq.2.2
      rw [hcount] at hmissing
      exact hmissing ⟨_, _, length_termIntegers terms, hterms⟩
    | hints kind relation termCount integers bound count tail hlength hmissing =>
      simp only [List.cons.injEq] at heq
      obtain ⟨htermCount, hbody⟩ := encode_append_encodeNat_inj hx.1 heq.2.2
      rw [htermCount, ← length_termIntegers] at hlength
      obtain ⟨-, hbody⟩ := encodeAll_append_inj hlength hbody
      obtain ⟨-, hbody⟩ := encode_append_inj hbody
      obtain ⟨hcount, hhints⟩ := encode_append_encodeNat_inj hx.2.length_lt hbody
      rw [hcount] at hmissing
      exact hmissing ⟨_, _, length_hintIntegers hints, hhints⟩

theorem entry_of_overdraws {code : UInt8} {s : Source} (h : Overdraws (code :: s.rest)) :
    ∃ e t, entry code s = .error e t := by
  cases hentry : entry code s with
  | error e t => exact ⟨e, t, rfl⟩
  | ok entry t =>
    obtain ⟨x, hfits, hbytes, -, -⟩ := exists_spelling_of_entry hentry
    exact absurd hbytes (h.ne_append hfits)

end Trace.Binary

namespace Reader

variable {r r' : Reader}

theorem nextBinary_of_overdraws (h : Trace.Binary.Overdraws r.source.rest) :
    ∃ e r', nextBinary r = .error e r' := by
  unfold nextBinary
  split
  · exact ⟨_, _, rfl⟩
  · rename_i source hbyte
    rw [(rest_eq_nil_of_byte?_none hbyte).1] at h
    cases h
  · rename_i code source hbyte
    rw [rest_of_byte?_some hbyte] at h
    obtain ⟨e, t, hentry⟩ := Trace.Binary.entry_of_overdraws h
    split
    · exact ⟨_, _, rfl⟩
    · rename_i hread
      cases hentry.symm.trans hread

/-! ## The number of integers -/

/-- How often the next call begins to read an integer. -/
def integerReads (r : Reader) : Nat :=
  match r.format, r.source.byte? with
  | .binary, .ok (some code) source =>
    (Trace.Binary.Scripted.entry code).script.integerReads source
  | _, _ => 0

theorem source_nextBinary {code : UInt8} {source : Source}
    (h : r.source.byte? = .ok (some code) source) :
    (stateAfter (nextBinary r)).source = stateAfter (Trace.Binary.entry code source) := by
  rw [nextBinary_of_code h]
  cases Trace.Binary.entry code source with
  | error e source' => rfl
  | ok entry source' => cases entry <;> rfl

/-- There are no more reads than bytes that the call takes. -/
theorem integerReads_add_le (r : Reader) :
    r.integerReads + (stateAfter (nextRecord r)).source.rest.length ≤ r.source.rest.length := by
  unfold integerReads
  split
  · rename_i code source hformat hbyte
    have hpaid := ((Trace.Binary.Scripted.entry code).script.paidFor source).add_le
    rw [(Trace.Binary.Scripted.entry code).run_eq, ← source_nextBinary hbyte] at hpaid
    rw [nextRecord, hformat]
    exact hpaid.trans (length_rest_of_byte?_some hbyte)
  · rw [Nat.zero_add]
    exact (advances_nextRecord r).length_le

/-! ## All calls -/

/-- An answer that is not the end takes something from the source. -/
theorem length_rest_of_answer_ne (hfailure : r.source.failure = none)
    (h : answerOf (nextRecord r) ≠ .ok none) :
    (stateAfter (nextRecord r)).source.rest.length < r.source.rest.length := by
  rcases rest_behind_nextRecord r with hlt | hnil
  · exact hlt
  · rw [hnil, List.length_nil, List.length_pos_iff]
    intro hrest
    have hstand : r.StandsAt r.format [] r.next := ⟨rfl, hrest, hfailure, rfl⟩
    exact h (congrArg answerOf hstand.nextRecord_nil)

/-- The end is answered for ever. -/
theorem answer_of_end (h : answerOf (nextRecord r) = .ok none) (i : Nat) :
    answer nextRecord r i = .ok none := by
  cases i with
  | zero => exact h
  | succ i =>
    have hfirst : answer nextRecord r 0 = .ok none := h
    have hnext : nextRecord r = .ok none (stateAfter (nextRecord r)) :=
      answer_eq_ok_iff.mp hfirst
    obtain ⟨hnil, hfailure⟩ := ended_of_nextRecord hnext
    have hend : (stateAfter (nextRecord r)).AtEnd :=
      StandsAt.atEnd ⟨rfl, hnil, (advances_nextRecord r).failure_eq.trans hfailure, rfl⟩
    have hstays := congrArg stateAfter hend
    exact (answer_of_stateAfter_eq hstays i).trans (congrArg answerOf hend)

/-- The end is reached with the bytes at the latest. -/
theorem exists_answer_end_iff (hfailure : r.source.failure = none) :
    ∃ k ≤ r.source.rest.length, ∀ i, answer nextRecord r i = .ok none ↔ k ≤ i := by
  induction hlength : r.source.rest.length using Nat.strongRecOn generalizing r with
  | _ length ih =>
    by_cases hend : answerOf (nextRecord r) = .ok none
    · exact ⟨0, Nat.zero_le _, fun i => iff_of_true (answer_of_end hend i) (Nat.zero_le i)⟩
    · have hlt := length_rest_of_answer_ne hfailure hend
      have hkept := (advances_nextRecord r).failure_eq.trans hfailure
      obtain ⟨k, hk, hiff⟩ := ih _ (hlength ▸ hlt) hkept rfl
      refine ⟨k + 1, by omega, fun i => ?_⟩
      cases i with
      | zero => exact iff_of_false hend (Nat.not_succ_le_zero k)
      | succ i => exact (hiff i).trans Nat.succ_le_succ_iff.symm

/-- Calls for the records of a trace, going on behind errors. A call that does not answer with
the end takes a byte. Those that do are the calls from some number on, which is at most the
number of bytes. No call reads more integers than it takes bytes, and one that comes to a binary
record that declares more than there is fails. -/
theorem progress_law (format : Format) (bytes : List UInt8) :
    let r := new format (.ofBytes bytes)
    let left := fun i => (behind nextRecord r i).source.rest
    (∀ i, answer nextRecord r i ≠ .ok none → (left (i + 1)).length < (left i).length) ∧
    (∃ k ≤ bytes.length, ∀ i, answer nextRecord r i = .ok none ↔ k ≤ i) ∧
    (∀ i, (behind nextRecord r i).integerReads + (left (i + 1)).length ≤ (left i).length) ∧
    (format = .binary → ∀ i, Trace.Binary.Overdraws (left i) →
      ∃ e, answer nextRecord r i = .error e) := by
  intro r left
  have hfailure (i : Nat) : (behind nextRecord r i).source.failure = none :=
    (advances_behind r i).failure_eq
  have hleft (i : Nat) :
      left (i + 1) = (stateAfter (nextRecord (behind nextRecord r i))).source.rest := by
    simp only [left, behind_add_one]
  refine ⟨fun i hanswer => ?_, exists_answer_end_iff (r := r) rfl, fun i => ?_, ?_⟩
  · rw [hleft]
    exact length_rest_of_answer_ne (hfailure i) hanswer
  · rw [hleft]
    exact integerReads_add_le (behind nextRecord r i)
  · rintro rfl i hoverdraws
    obtain ⟨e, r', hnext⟩ := nextBinary_of_overdraws hoverdraws
    have hformat : (behind nextRecord r i).format = .binary := format_behind r i
    refine ⟨e, ?_⟩
    rw [answer, nextRecord, hformat]
    exact congrArg answerOf hnext

/-- However many terms are declared, reading stops with the two integers that are there. -/
example :
    let r := new .binary
      (.ofBytes (StepKind.derived.code :: Relation.atLeast.code ::
        (encode Int64.maxValue ++ [2, 2])))
    r.integerReads = 4 ∧ answer nextRecord r 0 = .error (.malformed 1 .endOfTrace) := by
  decide +kernel

end Reader

end CuttingPlanes
