import CuttingPlanes.Proofs.Text.Beginnings
import CuttingPlanes.Proofs.Trace.Readable

/-!
# Lines that are torn

The line of a step may be cut off at any character. Without its semicolon it is refused
(`readLine_torn_head`). With it the line is read as a step of the same kind and with the same
constraint, but of the hints only those are read that are left, and the last one of them may
have lost digits (`readLine_torn_hints`).
-/

namespace CuttingPlanes.Trace.Text

open CuttingPlanes.Text

variable {kind : StepKind} {c : Constraint} {hints : List StepId} {line : List Char} {k : Nat}

/-- The line of a step up to its semicolon. -/
def stepHead (kind : StepKind) (c : Constraint) : List Char :=
  kind.char :: ' ' :: (c.opb ++ [' ', ';'])

/-- The line of a step behind its semicolon. -/
def hintTail (hints : List StepId) : List Char := hints.flatMap fun h => ' ' :: digits h.number

theorem stepBody_eq (kind : StepKind) (c : Constraint) (hints : List StepId) :
    stepBody kind c hints = stepHead kind c ++ hintTail hints := by
  simp [stepBody, stepHead, hintTail]

/-! ## Characters -/

/-- Constraints are written with digits and these few other characters. -/
def isConstraintChar (b : Char) : Bool := b.isDigit || [' ', '+', '-', 'x', '>', '='].contains b

theorem all_digits (n : Nat) : (digits n).all isConstraintChar = true := by
  rw [List.all_eq_true]
  intro b hb
  rw [isConstraintChar, isDigit_of_mem_digits hb, Bool.true_or]

theorem all_signed (z : Int) : (signed z).all isConstraintChar = true := by
  unfold signed
  rw [List.all_cons, all_digits, Bool.and_true]
  split <;> decide

theorem all_plain (z : Int) : (plain z).all isConstraintChar = true := by
  unfold plain
  split
  · rw [List.all_cons, all_digits]
    decide
  · exact all_digits _

theorem all_opb (c : Constraint) : c.opb.all isConstraintChar = true := by
  have hblank : isConstraintChar ' ' = true := by decide
  have hvar : isConstraintChar 'x' = true := by decide
  have hterm (t : Term) : t.opb.all isConstraintChar = true := by
    simp [Term.opb, all_signed, all_digits, hblank, hvar]
  have hsymbol : c.relation.symbol.toList.all isConstraintChar = true := by
    cases c.relation <;> decide
  rw [Constraint.opb, List.all_append, List.all_append, List.all_append, List.all_flatMap, hsymbol,
    all_plain, List.all_eq_true.mpr fun t _ => hterm t, List.all_cons, hblank]
  rfl

theorem isAscii_of_isConstraintChar {b : Char} (h : isConstraintChar b = true) : IsAscii b := by
  rw [isConstraintChar, Bool.or_eq_true] at h
  rcases h with hdigit | hother
  · exact isAscii_of_isDigit hdigit
  · simp only [List.contains_iff_mem, List.mem_cons, List.not_mem_nil, or_false] at hother
    rcases hother with rfl | rfl | rfl | rfl | rfl | rfl <;> decide

theorem isAscii_of_mem_stepBody {b : Char} (h : b ∈ stepBody kind c hints) : IsAscii b := by
  simp only [stepBody, List.mem_cons, List.mem_append, List.mem_flatMap] at h
  rcases h with rfl | rfl | hopb | rfl | rfl | ⟨hint, -, rfl | hdigit⟩
  · cases kind <;> decide
  · decide
  · exact isAscii_of_isConstraintChar (List.all_eq_true.mp (all_opb c) b hopb)
  · decide
  · decide
  · decide
  · exact isAscii_of_isDigit (isDigit_of_mem_digits hdigit)

/-- No semicolon stands before that of the step. -/
theorem semicolon_notMem_of_lt (hk : k < (stepHead kind c).length) :
    ';' ∉ (stepBody kind c hints).take k := by
  have hhead : stepHead kind c = kind.char :: ' ' :: (c.opb ++ [' ']) ++ [';'] := by
    simp [stepHead]
  have hlength : k ≤ (kind.char :: ' ' :: (c.opb ++ [' '])).length := by
    rw [hhead, List.length_append, List.length_singleton] at hk
    exact Nat.le_of_lt_succ hk
  rw [stepBody_eq, hhead, List.append_assoc, List.take_append_of_le_length hlength]
  intro hmem
  have hmem' := List.mem_of_mem_take hmem
  simp only [List.mem_cons, List.mem_append, List.not_mem_nil, or_false] at hmem'
  rcases hmem' with hkind | hspace | hopb | hspace
  · cases kind <;> cases hkind
  · cases hspace
  · have hchar := List.all_eq_true.mp (all_opb c) _ hopb
    cases hchar
  · cases hspace

/-! ## Reading what is left of a line -/

theorem find?_kind_cons (kind : StepKind) (cs : List Char) :
    (kind.char :: cs).find? (!isBlank ·) ≠ some '*' := by
  rw [List.find?_cons_of_pos (by rw [not_isBlank_char]; rfl)]
  cases kind <;> decide

/-- Without its semicolon no line is a step. -/
theorem exists_readLine_eq_error {cs : List Char} (h : ';' ∉ kind.char :: cs) :
    ∃ reason, readLine (kind.char :: cs) = .error reason := by
  apply readLine_of_isMalformed
  refine ⟨find?_kind_cons kind cs, fun hblank => ?_, fun _ _ _ hstep => ?_⟩
  · have hchar := hblank kind.char List.mem_cons_self
    rw [not_isBlank_char] at hchar
    cases hchar
  · obtain ⟨ws, hsplit, hspells⟩ := hstep
    have hword : [';'] ∈ words (kind.char :: cs) := by
      rw [hsplit.words_eq]
      cases hspells
      simp
    exact absurd (mem_of_mem_words hword (List.mem_singleton_self ';')) h

theorem readLine_torn_head (hpos : 0 < k) (hk : k < (stepHead kind c).length) :
    ∃ reason, readLine ((stepBody kind c hints).take k) = .error reason := by
  have hnot : ';' ∉ (stepBody kind c hints).take k := semicolon_notMem_of_lt hk
  obtain ⟨k, rfl⟩ := Nat.exists_eq_succ_of_ne_zero (Nat.ne_of_gt hpos)
  rw [stepBody, List.take_succ_cons] at hnot ⊢
  exact exists_readLine_eq_error hnot

/-- What is left of the text of hints. -/
structure TornHints (hints read : List StepId) (k : Nat) (blanks : List Char) : Prop where
  take_eq : (hintTail hints).take k = hintTail read ++ blanks
  isBlank : ∀ b ∈ blanks, isBlank b = true
  number_lt : ∀ hint ∈ read, hint.number < 0x10000000000000000
  eq_iff : read = hints ↔ (hintTail hints).length ≤ k

theorem hintTail_cons (hint : StepId) (hints : List StepId) :
    hintTail (hint :: hints) = (' ' :: digits hint.number) ++ hintTail hints := rfl

theorem TornHints.cons {hint : StepId} {read : List StepId} {blanks : List Char}
    (h : TornHints hints read k blanks) (hhint : hint.number < 0x10000000000000000) :
    TornHints (hint :: hints) (hint :: read) ((' ' :: digits hint.number).length + k) blanks where
  take_eq := by
    rw [hintTail_cons, List.take_length_add_append, h.take_eq, ← List.append_assoc]
    rfl
  isBlank := h.isBlank
  number_lt := List.forall_mem_cons.mpr ⟨hhint, h.number_lt⟩
  eq_iff := by
    rw [List.cons.injEq, and_iff_right rfl, h.eq_iff, hintTail_cons, List.length_append]
    omega

/-- A cut within the first hint, or before it. -/
theorem exists_tornHints_first {hint : StepId} (hhint : hint.number < 0x10000000000000000)
    (hk : k < (' ' :: digits hint.number).length) (hints : List StepId) :
    ∃ read blanks, TornHints (hint :: hints) read k blanks := by
  have hshort : ¬(hintTail (hint :: hints)).length ≤ k := by
    rw [hintTail_cons, List.length_append]
    omega
  rw [List.length_cons] at hk
  cases k with
  | zero => exact ⟨[], [], rfl, nofun, nofun, iff_of_false nofun hshort⟩
  | succ k =>
    have htake : (hintTail (hint :: hints)).take (k + 1) = ' ' :: (digits hint.number).take k := by
      rw [hintTail_cons, List.cons_append, List.take_succ_cons,
        List.take_append_of_le_length (Nat.le_of_lt (Nat.lt_of_succ_lt_succ hk))]
    rcases Nat.eq_zero_or_pos k with rfl | hpos
    · refine ⟨[], [' '], htake, fun b hb => ?_, nofun, iff_of_false nofun hshort⟩
      rw [List.mem_singleton.mp hb]
      decide
    · obtain ⟨m, hm, hmpos, hmle⟩ := exists_digits_eq_take (Nat.succ_pos hint.index) hpos
      have hnumber : (⟨m - 1⟩ : StepId).number = m := Nat.sub_add_cancel hmpos
      refine ⟨[⟨m - 1⟩], [], ?_, nofun, ?_, iff_of_false (fun heq => ?_) hshort⟩
      · rw [htake, StepId.number, hm, hintTail_cons, hnumber]
        simp [hintTail]
      · intro read hread
        obtain rfl := List.mem_singleton.mp hread
        rw [hnumber]
        exact Nat.lt_of_le_of_lt hmle hhint
      · -- the number has lost a digit
        obtain ⟨rfl, -⟩ := List.cons.inj heq
        have hlength := congrArg List.length hm
        rw [← hnumber, List.length_take] at hlength
        rw [StepId.number] at hlength hk
        omega

/-- The hints of which something is left are all those that are complete, and perhaps one that
has lost digits. -/
theorem exists_tornHints (hhints : ∀ hint ∈ hints, hint.number < 0x10000000000000000) (k : Nat) :
    ∃ read blanks, TornHints hints read k blanks := by
  induction hints generalizing k with
  | nil => exact ⟨[], [], List.take_nil, nofun, nofun, iff_of_true rfl (Nat.zero_le k)⟩
  | cons hint hints ih =>
    obtain ⟨hhint, hrest⟩ := List.forall_mem_cons.mp hhints
    by_cases hle : (' ' :: digits hint.number).length ≤ k
    · obtain ⟨read, blanks, h⟩ := ih hrest (k - (' ' :: digits hint.number).length)
      have hcons := h.cons hhint
      rw [Nat.add_sub_cancel' hle] at hcons
      exact ⟨hint :: read, blanks, hcons⟩
    · exact exists_tornHints_first hhint (Nat.lt_of_not_le hle) hints

theorem readLine_torn_hints (hinput : kind = .input → hints = [])
    (hhints : ∀ hint ∈ hints, hint.number < 0x10000000000000000)
    (hk : (stepHead kind c).length ≤ k) :
    ∃ read, readLine ((stepBody kind c hints).take k) = .ok (some (.step kind c read)) ∧
      (read = hints ↔ (stepBody kind c hints).length ≤ k) := by
  obtain ⟨read, blanks, htorn⟩ := exists_tornHints hhints (k - (stepHead kind c).length)
  have hnil : hints = [] → read = [] := by
    rintro rfl
    exact htorn.eq_iff.mpr (Nat.zero_le _)
  have htake : (stepBody kind c hints).take k = stepBody kind c read ++ blanks := by
    rw [stepBody_eq, List.take_append, List.take_of_length_le hk, htorn.take_eq,
      ← List.append_assoc, ← stepBody_eq]
  have hwords : words (stepBody kind c read ++ blanks) = words (stepBody kind c read) :=
    words_append_blank htorn.isBlank _
  refine ⟨read, ?_, ?_⟩
  · have hread := readLine_stepBody c (fun h => hnil (hinput h)) htorn.number_lt
    have hbody := words_stepBody kind c read
    have hstar (cs : List Char) :
        (stepBody kind c read ++ cs).find? (!isBlank ·) ≠ some '*' := find?_kind_cons kind _
    have hwhole := readLine_eq_readStep (hstar []) (by rwa [List.append_nil])
    have htorn' := readLine_eq_readStep (hstar blanks) (hwords.trans hbody)
    rw [htake, htorn', ← hwhole, List.append_nil, hread]
  · rw [htorn.eq_iff, stepBody_eq, List.length_append]
    omega

end CuttingPlanes.Trace.Text
