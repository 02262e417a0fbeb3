import CuttingPlanes.Stream.Source
import Mathlib.Data.List.TakeWhile

/-!
# The lines of a source

The bytes of a source fall into lines, each ended by a line feed except perhaps the
last. Reading line by line delivers them in order: what is read is the first line of
what was left (`linesOf_of_line?_some`).
-/

namespace CuttingPlanes.Source

/-- The lines of the bytes without their line feeds. -/
def linesOf : List UInt8 → List (List UInt8)
  | [] => []
  | b :: bytes =>
    if b = 10 then [] :: linesOf bytes
    else
      match linesOf bytes with
      | [] => [[b]]
      | line :: lines => (b :: line) :: lines

variable {line : List UInt8}

theorem linesOf_append_lf (h : ∀ b ∈ line, (b != 10) = true) (bytes : List UInt8) :
    linesOf (line ++ 10 :: bytes) = line :: linesOf bytes := by
  induction line with
  | nil => rfl
  | cons b line ih =>
    have hb : b ≠ 10 := bne_iff_ne.mp (h b List.mem_cons_self)
    rw [List.cons_append, linesOf, if_neg hb, ih fun c hc => h c (List.mem_cons_of_mem _ hc)]

theorem linesOf_last (hne : line ≠ []) (h : ∀ b ∈ line, (b != 10) = true) :
    linesOf line = [line] := by
  induction line with
  | nil => exact absurd rfl hne
  | cons b line ih =>
    have hb : b ≠ 10 := bne_iff_ne.mp (h b List.mem_cons_self)
    rw [linesOf, if_neg hb]
    cases line with
    | nil => rfl
    | cons c line => rw [ih nofun fun d hd => h d (List.mem_cons_of_mem _ hd)]

/-! ## Line feeds -/

theorem forall_ne_of_lf_notMem (h : 10 ∉ line) : ∀ b ∈ line, (b != 10) = true :=
  fun _ hb => bne_iff_ne.mpr fun heq => h (heq ▸ hb)

theorem lf_notMem_takeWhile (bytes : List UInt8) : 10 ∉ bytes.takeWhile (· != 10) := by
  intro h
  have hne := List.mem_takeWhile_imp h
  simp at hne

/-- The bytes are one line, or a line with a line feed and more bytes behind it. -/
theorem line_cases (bytes : List UInt8) : 10 ∉ bytes ∨
    ∃ line rest, bytes = line ++ 10 :: rest ∧ 10 ∉ line := by
  have happend := List.takeWhile_append_dropWhile (p := (· != 10)) (l := bytes)
  have hhead := List.head?_dropWhile_not (· != 10) bytes
  cases hdrop : bytes.dropWhile (· != 10) with
  | nil =>
    rw [hdrop, List.append_nil] at happend
    exact Or.inl (happend ▸ lf_notMem_takeWhile bytes)
  | cons b rest =>
    rw [hdrop] at happend hhead
    obtain rfl : b = 10 := bne_eq_false_iff_eq.mp hhead
    exact Or.inr ⟨_, rest, happend.symm, lf_notMem_takeWhile bytes⟩

theorem takeWhile_append_lf (hline : 10 ∉ line) (rest : List UInt8) :
    (line ++ 10 :: rest).takeWhile (· != 10) = line := by
  rw [List.takeWhile_append_of_pos (forall_ne_of_lf_notMem hline)]
  simp

theorem dropWhile_append_lf (hline : 10 ∉ line) (rest : List UInt8) :
    (line ++ 10 :: rest).dropWhile (· != 10) = 10 :: rest := by
  rw [List.dropWhile_append_of_pos (forall_ne_of_lf_notMem hline)]
  simp

theorem takeWhile_of_no_lf {bytes : List UInt8} (h : 10 ∉ bytes) :
    bytes.takeWhile (· != 10) = bytes :=
  List.takeWhile_eq_self_iff.mpr (forall_ne_of_lf_notMem h)

theorem dropWhile_of_no_lf {bytes : List UInt8} (h : 10 ∉ bytes) :
    bytes.dropWhile (· != 10) = [] :=
  List.dropWhile_eq_nil_iff.mpr (forall_ne_of_lf_notMem h)

variable {s s' : Source}

theorem line?_of_lf {rest : List UInt8} (hs : s.rest = line ++ 10 :: rest) (hline : 10 ∉ line) :
    s.line? = .ok (some line) { s with rest, position := s.position + line.length + 1 } := by
  simp only [line?, hs, takeWhile_append_lf hline, dropWhile_append_lf hline]

theorem line?_of_no_lf (h : 10 ∉ s.rest) :
    s.line? = atEnd (if s.rest.isEmpty then none else some s.rest) s := by
  simp only [line?, takeWhile_of_no_lf h, dropWhile_of_no_lf h]

/-! ## What is read -/

theorem failure_ne_none_of_line?_error {fault : Fault} (h : s.line? = .error fault s') :
    s.failure ≠ none := by
  intro hnone
  unfold line? atEnd at h
  rw [hnone] at h
  simp only at h
  split at h <;> cases h

theorem failure_ne_none_of_byte?_error {fault : Fault} (h : s.byte? = .error fault s') :
    s.failure ≠ none := by
  intro hnone
  unfold byte? atEnd at h
  rw [hnone] at h
  split at h <;> cases h

theorem rest_eq_nil_of_byte?_none (h : s.byte? = .ok none s') :
    s.rest = [] ∧ s.failure = none := by
  unfold byte? atEnd at h
  split at h
  · rename_i hnil
    split at h
    · rename_i hnone
      exact ⟨hnil, hnone⟩
    · cases h
  · cases h

theorem rest_eq_nil_of_byte?_error {fault : Fault} (h : s.byte? = .error fault s') :
    s'.rest = [] := by
  unfold byte? atEnd at h
  split at h
  · split at h
    · cases h
    · cases h
      rfl
  · cases h

theorem rest_eq_nil_of_line?_error {fault : Fault} (h : s.line? = .error fault s') :
    s'.rest = [] := by
  unfold line? atEnd at h
  simp only at h
  split at h
  · cases h
  · split at h
    · cases h
    · cases h
      rfl

theorem rest_eq_nil_of_line?_none (h : s.line? = .ok none s') : s.rest = [] ∧ s.failure = none := by
  rcases line_cases s.rest with hno | ⟨line, rest, hrest, hline⟩
  · rw [line?_of_no_lf hno, atEnd] at h
    split at h
    · rename_i hfailure
      refine ⟨?_, hfailure⟩
      split at h
      · rename_i hempty
        exact List.isEmpty_iff.mp hempty
      · cases h
    · cases h
  · rw [line?_of_lf hrest hline] at h
    cases h

theorem eq_takeWhile_of_line?_some (h : s.line? = .ok (some line) s') :
    line = s.rest.takeWhile (· != 10) := by
  unfold line? atEnd at h
  simp only at h
  split at h
  · cases h
    rfl
  · split at h
    · split at h
      · cases h
      · cases h
        rfl
    · cases h

theorem lf_notMem_of_line?_some (h : s.line? = .ok (some line) s') : 10 ∉ line := by
  rw [eq_takeWhile_of_line?_some h]
  exact lf_notMem_takeWhile s.rest

theorem length_le_of_line?_some (h : s.line? = .ok (some line) s') :
    line.length ≤ s.rest.length := by
  rw [eq_takeWhile_of_line?_some h]
  exact (List.takeWhile_sublist _).length_le

/-- The last line is read without a line feed behind it. -/
theorem line?_last (hne : s.rest ≠ []) (hlf : 10 ∉ s.rest) (hfailure : s.failure = none) :
    s.line? = .ok (some s.rest) s.exhausted := by
  simp only [line?_of_no_lf hlf, atEnd, hfailure, List.isEmpty_eq_false_iff.mpr hne,
    Bool.false_eq_true, if_false]

/-- Reading a line takes the first of the lines that are left. -/
theorem linesOf_of_line?_some (h : s.line? = .ok (some line) s') :
    linesOf s.rest = line :: linesOf s'.rest := by
  rcases line_cases s.rest with hno | ⟨front, rest, hrest, hfront⟩
  · rw [line?_of_no_lf hno, atEnd] at h
    split at h
    · split at h
      · cases h
      · rename_i hne
        cases h
        exact linesOf_last (fun hnil => hne (List.isEmpty_iff.mpr hnil))
          (forall_ne_of_lf_notMem hno)
    · cases h
  · rw [line?_of_lf hrest hfront] at h
    cases h
    rw [hrest, linesOf_append_lf (forall_ne_of_lf_notMem hfront)]

end CuttingPlanes.Source
