import CuttingPlanes.Proofs.Stream.Lines

/-!
# The lines that a source delivers

Reading line by line delivers the lines of a source in order. A source that fails behind its
bytes loses a last line that no line feed ends. When each line is changed and the line feeds
stay, the changed lines are delivered (`lines_changeLines`), and what is put behind a line
feed adds lines and changes none (`linesOf_append`).
-/

namespace CuttingPlanes.Source

/-- The lines that reading delivers one after the other. -/
def lines (s : Source) : List (List UInt8) :=
  match s.failure with
  | none => linesOf s.rest
  | some _ => (linesOf s.rest).take (s.rest.count 10)

@[simp] theorem lines_ofBytes (bytes : List UInt8) : (ofBytes bytes).lines = linesOf bytes := rfl

theorem lines_of_reliable {s : Source} (h : s.failure = none) : s.lines = linesOf s.rest := by
  rw [lines, h]

variable {s s' : Source} {line : List UInt8} {fault : Fault}

/-! ## Reading a line -/

/-- A line that is read is the first of those that the source delivers. -/
theorem lines_of_line?_some (h : s.line? = .ok (some line) s') : s.lines = line :: s'.lines := by
  have hfailure := (advancing_line?.ok h).failure_eq
  have hlines := linesOf_of_line?_some h
  unfold lines
  rw [hfailure]
  cases hs : s.failure with
  | none => exact hlines
  | some fault =>
    rcases line_cases s.rest with hno | ⟨front, rest, hrest, hfront⟩
    · rw [line?_of_no_lf hno, atEnd, hs] at h
      cases h
    · rw [line?_of_lf hrest hfront] at h
      cases h
      have hcount : s.rest.count 10 = rest.count 10 + 1 := by
        rw [hrest, List.count_append, List.count_eq_zero_of_not_mem hfront, List.count_cons_self,
          Nat.zero_add]
      simp only [hlines, hcount, List.take_succ_cons]

theorem lines_of_line?_none (h : s.line? = .ok none s') : s.lines = [] ∧ s.failure = none := by
  obtain ⟨hrest, hfailure⟩ := rest_eq_nil_of_line?_none h
  refine ⟨?_, hfailure⟩
  rw [lines_of_reliable hfailure, hrest]
  rfl

theorem lines_of_line?_error (h : s.line? = .error fault s') :
    s.lines = [] ∧ s.failure = some fault := by
  rcases line_cases s.rest with hno | ⟨front, rest, hrest, hfront⟩
  · rw [line?_of_no_lf hno, atEnd] at h
    split at h
    · cases h
    · rename_i fault' hfailure
      cases h
      refine ⟨?_, hfailure⟩
      rw [lines, hfailure]
      simp only [List.count_eq_zero_of_not_mem hno, List.take_zero]
  · rw [line?_of_lf hrest hfront] at h
    cases h

/-! ## Bytes behind a line feed -/

theorem linesOf_ne_nil {bytes : List UInt8} (h : bytes ≠ []) : linesOf bytes ≠ [] := by
  unfold linesOf
  split
  · exact absurd rfl h
  · split
    · exact List.cons_ne_nil _ _
    · split <;> exact List.cons_ne_nil _ _

/-- The lines of a text that ends with a line feed do not change when more is put behind it. -/
theorem linesOf_append {bytes : List UInt8} (h : bytes.getLast? = some 10) (suffix : List UInt8) :
    linesOf (bytes ++ suffix) = linesOf bytes ++ linesOf suffix := by
  induction bytes with
  | nil => cases h
  | cons b bytes ih =>
    cases bytes with
    | nil =>
      obtain rfl : b = 10 := Option.some.inj h
      rfl
    | cons c bytes =>
      rw [List.getLast?_cons_cons] at h
      obtain ⟨line, lines, hlines⟩ :=
        List.exists_cons_of_ne_nil (linesOf_ne_nil (List.cons_ne_nil c bytes))
      have hcons : linesOf (b :: c :: bytes) =
          if b = 10 then [] :: line :: lines else (b :: line) :: lines := by
        rw [linesOf, hlines]
      rw [List.cons_append, linesOf, ih h, hlines, hcons]
      split <;> rfl

/-! ## Changed lines -/

/-- The bytes with every line changed. The line feeds stay. -/
def changeLines (change : List UInt8 → List UInt8) (bytes : List UInt8) : List UInt8 :=
  change (bytes.takeWhile (· != 10)) ++
    match _h : bytes.dropWhile (· != 10) with
    | [] => []
    | b :: rest => b :: changeLines change rest
termination_by bytes.length
decreasing_by
  have hle := (List.dropWhile_sublist (· != 10) (l := bytes)).length_le
  rw [_h, List.length_cons] at hle
  exact hle

/-- A line stays one line, and it stays without a byte only if it had none. -/
structure KeepsLines (change : List UInt8 → List UInt8) : Prop where
  lf_notMem : ∀ line, 10 ∉ line → 10 ∉ change line
  eq_nil_iff : ∀ line, change line = [] ↔ line = []

variable {change : List UInt8 → List UInt8}

theorem changeLines_of_no_lf {bytes : List UInt8} (h : 10 ∉ bytes) :
    changeLines change bytes = change bytes := by
  rw [changeLines, takeWhile_of_no_lf h]
  split
  · exact List.append_nil _
  · rename_i hdrop
    rw [dropWhile_of_no_lf h] at hdrop
    cases hdrop

theorem changeLines_of_lf (hline : 10 ∉ line) (rest : List UInt8) :
    changeLines change (line ++ 10 :: rest) = change line ++ 10 :: changeLines change rest := by
  rw [changeLines, takeWhile_append_lf hline]
  split <;> rename_i hdrop <;> rw [dropWhile_append_lf hline] at hdrop <;> cases hdrop
  rfl

theorem KeepsLines.changeLines_spec (h : KeepsLines change) (bytes : List UInt8) :
    linesOf (changeLines change bytes) = (linesOf bytes).map change ∧
      (changeLines change bytes).count 10 = bytes.count 10 := by
  induction hlength : bytes.length using Nat.strongRecOn generalizing bytes with
  | ind n ih =>
    rcases line_cases bytes with hno | ⟨line, rest, rfl, hline⟩
    · have hchange := h.lf_notMem bytes hno
      rw [changeLines_of_no_lf hno, List.count_eq_zero_of_not_mem hno,
        List.count_eq_zero_of_not_mem hchange]
      refine ⟨?_, rfl⟩
      by_cases hnil : bytes = []
      · rw [(h.eq_nil_iff bytes).mpr hnil, hnil]
        rfl
      · have hne : change bytes ≠ [] := fun heq => hnil ((h.eq_nil_iff bytes).mp heq)
        rw [linesOf_last hne (forall_ne_of_lf_notMem hchange),
          linesOf_last hnil (forall_ne_of_lf_notMem hno)]
        rfl
    · have hchange := h.lf_notMem line hline
      rw [List.length_append, List.length_cons] at hlength
      obtain ⟨hlines, hcount⟩ := ih rest.length (by omega) rest rfl
      rw [changeLines_of_lf hline, linesOf_append_lf (forall_ne_of_lf_notMem hchange), hlines,
        linesOf_append_lf (forall_ne_of_lf_notMem hline), List.map_cons, List.count_append,
        List.count_append, List.count_eq_zero_of_not_mem hline,
        List.count_eq_zero_of_not_mem hchange, List.count_cons_self, List.count_cons_self, hcount]
      exact ⟨rfl, rfl⟩

/-- The lines of a source whose lines are changed are the changed lines. -/
theorem lines_changeLines (h : KeepsLines change) (s : Source) :
    lines { s with rest := changeLines change s.rest } = s.lines.map change := by
  obtain ⟨hlines, hcount⟩ := h.changeLines_spec s.rest
  cases hfailure : s.failure with
  | none => simp only [lines, hfailure, hlines]
  | some fault => simp only [lines, hfailure, hlines, hcount, List.map_take]

end CuttingPlanes.Source
