import CuttingPlanes.Text.Blank
import CuttingPlanes.Text.Decimal

/-!
# Words of a line that is written

A word in front of a blank is the first word of the line, and the words behind it are
the words of the rest (`words_append_cons`). So the words of a text are exactly those that
it consists of, with blanks between any two and perhaps around them (`words_eq_iff`).
Numerals are words.
-/

namespace CuttingPlanes.Text

/-- The characters are one word. -/
structure IsWord (w : List Char) : Prop where
  ne_nil : w ≠ []
  notBlank : ∀ c ∈ w, isBlank c = false

variable {c d : Char} {w cs ds : List Char}

theorem isWord_cons (hc : isBlank c = false) (h : ∀ c ∈ w, isBlank c = false) : IsWord (c :: w) :=
  ⟨by simp, by simpa [hc] using h⟩

theorem isWord_of_all (hne : w ≠ []) (h : (w.all fun c => !isBlank c) = true) : IsWord w :=
  ⟨hne, by simpa using h⟩

theorem wordsBefore_of_blank (hd : isBlank d = true) (ws : List (List Char)) :
    wordsBefore c (some d) ws = [c] :: ws := by
  cases ws <;> simp [wordsBefore, hd]

theorem wordsBefore_of_not_blank (hd : isBlank d = false) (w : List Char) (ws : List (List Char)) :
    wordsBefore c (some d) (w :: ws) = (c :: w) :: ws := by
  simp [wordsBefore, hd]

theorem words_append_cons (hw : IsWord w) (hd : isBlank d = true) (ds : List Char) :
    words (w ++ d :: ds) = w :: words ds := by
  obtain ⟨hne, hblank⟩ := hw
  induction w with
  | nil => exact absurd rfl hne
  | cons c w ih =>
    have hc := hblank c (by simp)
    cases w with
    | nil =>
      rw [List.cons_append, words_cons_of_not_blank hc, List.nil_append, List.head?_cons,
        wordsBefore_of_blank hd, words_cons_of_blank hd]
    | cons e w =>
      have he := hblank e (by simp)
      have hrest := ih (by simp) fun c hc => hblank c (List.mem_cons_of_mem _ hc)
      rw [List.cons_append, words_cons_of_not_blank hc, hrest, List.cons_append, List.head?_cons,
        wordsBefore_of_not_blank he]

theorem words_of_isWord (hw : IsWord w) : words w = [w] := by
  obtain ⟨hne, hblank⟩ := hw
  induction w with
  | nil => exact absurd rfl hne
  | cons c w ih =>
    rw [words_cons_of_not_blank (hblank c (by simp))]
    cases w with
    | nil => rfl
    | cons e w =>
      have he := hblank e (by simp)
      rw [ih (by simp) fun c hc => hblank c (List.mem_cons_of_mem _ hc), List.head?_cons,
        wordsBefore_of_not_blank he]

theorem words_append_of_blank {bs : List Char} (h : ∀ c ∈ bs, isBlank c = true) (cs : List Char) :
    words (bs ++ cs) = words cs := by
  induction bs with
  | nil => rfl
  | cons b bs ih =>
    rw [List.cons_append, words_cons_of_blank (h b (by simp)),
      ih fun c hc => h c (List.mem_cons_of_mem _ hc)]

theorem words_of_blank {bs : List Char} (h : ∀ c ∈ bs, isBlank c = true) : words bs = [] := by
  have happend := words_append_of_blank h []
  rwa [List.append_nil] at happend

theorem words_ne_nil (hc : isBlank c = false) (cs : List Char) : words (c :: cs) ≠ [] := by
  rw [words_cons_of_not_blank hc]
  unfold wordsBefore
  split
  · split <;> exact List.cons_ne_nil _ _
  · exact List.cons_ne_nil _ _

theorem words_eq_nil_iff : words cs = [] ↔ ∀ c ∈ cs, isBlank c = true := by
  refine ⟨fun h => ?_, words_of_blank⟩
  induction cs with
  | nil => exact nofun
  | cons c cs ih =>
    cases hc : isBlank c with
    | true =>
      rw [words_cons_of_blank hc] at h
      exact List.forall_mem_cons.mpr ⟨hc, ih h⟩
    | false => exact absurd h (words_ne_nil hc cs)

theorem wordsBefore_nil (c : Char) (next : Option Char) : wordsBefore c next [] = [[c]] := by
  cases next <;> rfl

/-- Blanks at the end separate nothing. -/
theorem words_append_blank {bs : List Char} (h : ∀ c ∈ bs, isBlank c = true) (cs : List Char) :
    words (cs ++ bs) = words cs := by
  induction cs with
  | nil => rw [List.nil_append, words_of_blank h, words]
  | cons c cs ih =>
    rw [List.cons_append]
    cases hc : isBlank c with
    | true => rw [words_cons_of_blank hc, words_cons_of_blank hc, ih]
    | false =>
      rw [words_cons_of_not_blank hc, words_cons_of_not_blank hc, ih]
      cases cs with
      | nil => rw [words, wordsBefore_nil, wordsBefore_nil]
      | cons d cs => rfl

/-- No word goes on behind a blank. -/
theorem words_append_blank_cons (hd : isBlank d = true) (cs ds : List Char) :
    words (cs ++ d :: ds) = words cs ++ words ds := by
  induction cs with
  | nil => rw [List.nil_append, words_cons_of_blank hd, words, List.nil_append]
  | cons c cs ih =>
    rw [List.cons_append]
    cases hc : isBlank c with
    | true => rw [words_cons_of_blank hc, words_cons_of_blank hc, ih]
    | false =>
      rw [words_cons_of_not_blank hc, words_cons_of_not_blank hc, ih]
      cases cs with
      | nil => rw [words, List.nil_append, List.nil_append, List.head?_cons,
          wordsBefore_of_blank hd, wordsBefore_nil, List.singleton_append]
      | cons e cs =>
        rw [List.cons_append, List.head?_cons, List.head?_cons]
        cases he : isBlank e with
        | true => rw [wordsBefore_of_blank he, wordsBefore_of_blank he, List.cons_append]
        | false =>
          obtain ⟨w, ws, hws⟩ := List.exists_cons_of_ne_nil (words_ne_nil he cs)
          rw [hws, List.cons_append, wordsBefore_of_not_blank he, wordsBefore_of_not_blank he,
            List.cons_append]

/-! ## Texts put together from words -/

/-- The text consists of the words, with blanks around them and at least one between two. -/
inductive SplitsInto : List Char → List (List Char) → Prop
  | nil : SplitsInto [] []
  | blank {c : Char} {cs : List Char} {ws : List (List Char)} (hc : isBlank c = true)
      (h : SplitsInto cs ws) : SplitsInto (c :: cs) ws
  | last {w : List Char} (hw : IsWord w) : SplitsInto w [w]
  | word {w cs : List Char} {d : Char} {ws : List (List Char)} (hw : IsWord w)
      (hd : isBlank d = true) (h : SplitsInto (d :: cs) ws) : SplitsInto (w ++ d :: cs) (w :: ws)

variable {ws : List (List Char)}

theorem SplitsInto.words_eq (h : SplitsInto cs ws) : words cs = ws := by
  induction h with
  | nil => rfl
  | blank hc _ ih => rw [words_cons_of_blank hc, ih]
  | last hw => exact words_of_isWord hw
  | word hw hd _ ih => rw [words_append_cons hw hd, ← ih, words_cons_of_blank hd]

/-- A character in front of a word makes it longer. -/
theorem SplitsInto.cons (hc : isBlank c = false) (hd : isBlank d = false)
    (h : SplitsInto (d :: cs) ws) :
    ∃ w ws', ws = w :: ws' ∧ SplitsInto (c :: d :: cs) ((c :: w) :: ws') := by
  generalize htext : d :: cs = text at h
  cases h with
  | nil => cases htext
  | blank hblank h =>
    cases htext
    rw [hd] at hblank
    cases hblank
  | last hw => exact ⟨_, _, rfl, .last (isWord_cons hc hw.notBlank)⟩
  | word hw hblank h => exact ⟨_, _, rfl, .word (isWord_cons hc hw.notBlank) hblank h⟩

theorem splitsInto_words (cs : List Char) : SplitsInto cs (words cs) := by
  induction cs with
  | nil => exact .nil
  | cons c cs ih =>
    cases hc : isBlank c with
    | true =>
      rw [words_cons_of_blank hc]
      exact .blank hc ih
    | false =>
      have hword : IsWord [c] := isWord_cons hc nofun
      rw [words_cons_of_not_blank hc]
      cases cs with
      | nil => exact .last hword
      | cons d cs =>
        cases hd : isBlank d with
        | true =>
          rw [List.head?_cons, wordsBefore_of_blank hd]
          exact .word hword hd ih
        | false =>
          obtain ⟨w, ws, hws, hsplit⟩ := ih.cons hc hd
          rw [hws, List.head?_cons, wordsBefore_of_not_blank hd]
          exact hsplit

/-- The words of a text are those that it consists of. -/
theorem words_eq_iff : words cs = ws ↔ SplitsInto cs ws := by
  constructor
  · rintro rfl
    exact splitsInto_words cs
  · exact SplitsInto.words_eq

/-- The first word starts with the first character that is not blank. -/
theorem SplitsInto.find?_eq (h : SplitsInto cs ((c :: w) :: ws)) :
    cs.find? (!isBlank ·) = some c := by
  generalize hwords : (c :: w) :: ws = words at h
  have hfirst {v ds : List Char} (hv : IsWord v) (heq : c :: w = v) :
      (v ++ ds).find? (!isBlank ·) = some c := by
    subst heq
    have hc : isBlank c = false := hv.notBlank c List.mem_cons_self
    rw [List.cons_append, List.find?_cons_of_pos (by rw [hc]; rfl)]
  induction h with
  | nil => cases hwords
  | blank hblank _ ih => rw [List.find?_cons_of_neg (by rw [hblank]; decide), ih hwords]
  | @last v hv =>
    have hfind : (v ++ []).find? (!isBlank ·) = some c := hfirst hv (List.cons.inj hwords).1
    rwa [List.append_nil] at hfind
  | word hv _ _ _ => exact hfirst hv (List.cons.inj hwords).1

/-! ## Numerals -/

theorem not_isBlank_of_isDigit (h : c.isDigit = true) : isBlank c = false := by
  have hrange : 48 ≤ c.toNat ∧ c.toNat ≤ 57 := Char.isDigit_iff_toNat.mp h
  have hne (n : Nat) (hn : n < 48 ∨ 57 < n) : (c.toNat == n) = false := by
    rw [beq_eq_false_iff_ne]
    omega
  have hle (n m : Nat) (hn : m < 48 ∨ 57 < n) :
      (decide (n ≤ c.toNat) && decide (c.toNat ≤ m)) = false := by
    simp only [Bool.and_eq_false_iff, decide_eq_false_iff_not]
    omega
  simp [isBlank, hne, hle]

theorem not_isBlank_of_mem_digits {n : Nat} (h : c ∈ digits n) : isBlank c = false :=
  not_isBlank_of_isDigit (isDigit_of_mem_digits h)

theorem isWord_digits (n : Nat) : IsWord (digits n) :=
  ⟨digits_ne_nil n, fun _ h => not_isBlank_of_mem_digits h⟩

theorem isWord_signed (z : Int) : IsWord (signed z) := by
  refine isWord_cons ?_ fun c h => not_isBlank_of_mem_digits h
  split <;> decide

theorem isWord_plain (z : Int) : IsWord (plain z) := by
  unfold plain
  split
  · exact isWord_cons (by decide) fun c h => not_isBlank_of_mem_digits h
  · exact isWord_digits _

end CuttingPlanes.Text
