import CuttingPlanes.Proofs.Text.Numerals
import CuttingPlanes.Proofs.Text.Words
import Mathlib.Data.List.Forall2
import Mathlib.Data.List.Induction

/-!
# Integers listed in a text

A text spells integers if they are the numbers of its words. There are many such texts for
the same integers, since numerals may have a plus sign and zeros in front and words any
blanks between them. One of them is the line that has the canonical numerals, the only ones
of their kind (`isCanonical_iff`), a space between any two and the end of the line behind
them. A line spells the integers that it lists (`IsLine.spells`).
-/

namespace CuttingPlanes.Text

/-- The words of the text are numerals of the integers. -/
def Spells (text : List Char) (vs : List Int64) : Prop :=
  ∃ ws, SplitsInto text ws ∧ List.Forall₂ (fun w v => IsInteger w v.toInt) ws vs

/-- One of the words is no numeral of an integer of 64 bits. -/
def Misspells (text : List Char) : Prop :=
  ∃ ws, SplitsInto text ws ∧ ∃ w ∈ ws, ∀ v : Int64, ¬IsInteger w v.toInt

/-- Digits that start with a zero only if there are no others. -/
structure IsShortest (cs : List Char) (n : Nat) : Prop extends IsNumeral cs n where
  eq_nil : ∀ ds, cs = '0' :: ds → ds = []

/-- The shortest digits, behind a minus sign if the integer is negative. -/
inductive IsCanonical : List Char → Int → Prop
  | natural {cs : List Char} {n : Nat} (h : IsShortest cs n) : IsCanonical cs n
  | negative {cs : List Char} {n : Nat} (h : IsShortest cs n) (hn : 0 < n) :
      IsCanonical ('-' :: cs) (-n)

/-- Canonical numerals with one space between any two, and the end of the line. -/
def IsLine (text : List Char) (vs : List Int64) : Prop :=
  ∃ ws, List.Forall₂ (fun w v => IsCanonical w v.toInt) ws vs ∧
    text = [' '].intercalate ws ++ ['\n']

variable {c : Char} {cs text : List Char} {ws : List (List Char)} {n : Nat} {z : Int}
  {vs : List Int64}

/-! ## Spellings -/

theorem exists_forall₂_of_forall (h : ∀ w ∈ ws, ∃ v : Int64, IsInteger w v.toInt) :
    ∃ vs : List Int64, List.Forall₂ (fun w v => IsInteger w v.toInt) ws vs := by
  induction ws with
  | nil => exact ⟨[], .nil⟩
  | cons w ws ih =>
    obtain ⟨⟨v, hv⟩, hws⟩ := List.forall_mem_cons.mp h
    obtain ⟨vs, hvs⟩ := ih hws
    exact ⟨v :: vs, .cons hv hvs⟩

theorem exists_spells_or (text : List Char) : (∃ vs, Spells text vs) ∨ Misspells text := by
  by_cases h : ∀ w ∈ words text, ∃ v : Int64, IsInteger w v.toInt
  · obtain ⟨vs, hvs⟩ := exists_forall₂_of_forall h
    exact Or.inl ⟨vs, words text, splitsInto_words text, hvs⟩
  · push Not at h
    exact Or.inr ⟨words text, splitsInto_words text, h⟩

theorem Spells.not_misspells (h : Spells text vs) : ¬Misspells text := by
  rintro ⟨ws, hsplit, w, hw, hno⟩
  obtain ⟨ws', hsplit', hintegers⟩ := h
  obtain rfl := hsplit.words_eq.symm.trans hsplit'.words_eq
  have hboth := hintegers.imp fun _ v h => And.intro (Exists.intro v h) h
  obtain ⟨v, hv⟩ := ((List.forall₂_and_left _ _).mp hboth).1 w hw
  exact hno v hv

/-! ## Canonical numerals -/

theorem digitChar_toNat_sub (h : c.isDigit = true) :
    c.toNat - '0'.toNat < 10 ∧ (c.toNat - '0'.toNat).digitChar = c := by
  have hrange : 48 ≤ c.toNat ∧ c.toNat ≤ 57 := Char.isDigit_iff_toNat.mp h
  have hzero : '0'.toNat = 48 := rfl
  have hlt : c.toNat - '0'.toNat < 10 := by omega
  refine ⟨hlt, Char.toNat_inj.mp ?_⟩
  rw [Nat.toNat_digitChar_of_lt_ten hlt]
  omega

theorem IsShortest.eq_digits (h : IsShortest cs n) : cs = digits n := by
  induction cs using List.reverseRecOn generalizing n with
  | nil => exact absurd rfl h.ne_nil
  | append_singleton ds c ih =>
    obtain ⟨hlt, hchar⟩ := digitChar_toNat_sub (h.isDigit c (by simp))
    have hvalue := h.value
    rw [Nat.ofDigitChars_append, Nat.ofDigitChars_cons, Nat.ofDigitChars_nil] at hvalue
    by_cases hnil : ds = []
    · subst hnil
      rw [Nat.ofDigitChars_nil, Nat.mul_zero, Nat.zero_add] at hvalue
      rw [← hvalue, digits_of_lt hlt, hchar, List.nil_append]
    · have hds : ds = digits (Nat.ofDigitChars 10 ds 0) := by
        refine ih ⟨⟨hnil, fun d hd => h.isDigit d (List.mem_append_left _ hd), rfl⟩, ?_⟩
        rintro es rfl
        exact absurd (h.eq_nil (es ++ [c]) rfl) (by simp)
      -- a zero in front of the last digit would be one too many
      have hpos : 0 < Nat.ofDigitChars 10 ds 0 := by
        refine Nat.pos_of_ne_zero fun hzero => ?_
        rw [hzero] at hds
        exact absurd (h.eq_nil [c] (by rw [hds]; rfl)) (by simp)
      calc ds ++ [c]
        _ = digits (Nat.ofDigitChars 10 ds 0) ++ digits (c.toNat - '0'.toNat) := by
          rw [digits_of_lt hlt, hchar, ← hds]
        _ = digits n := by
          rw [← hvalue]
          exact Nat.toDigits_append_toDigits (by decide) hpos hlt

theorem isShortest_digits (n : Nat) : IsShortest (digits n) n := by
  refine ⟨numeral?_eq_some_iff.mp (numeral?_digits n), ?_⟩
  induction n using Nat.strongRecOn with
  | ind n ih =>
    intro ds hds
    by_cases hn : n < 10
    · rw [digits_of_lt hn] at hds
      exact (List.cons.inj hds).2.symm
    · have hpos : 0 < n / 10 := Nat.div_pos (Nat.le_of_not_lt hn) (by decide)
      obtain ⟨d, es, hfront⟩ := List.exists_cons_of_ne_nil (digits_ne_nil (n / 10))
      rw [digits_of_le (Nat.le_of_not_lt hn), hfront, List.cons_append] at hds
      obtain ⟨rfl, -⟩ := List.cons.inj hds
      obtain rfl := ih (n / 10) (by omega) es hfront
      have hvalue := numeral?_digits (n / 10)
      rw [hfront] at hvalue
      have hzero : n / 10 = 0 := (Option.some.inj hvalue).symm
      omega

/-- An integer has one canonical numeral. -/
theorem isCanonical_iff : IsCanonical cs z ↔ cs = plain z := by
  constructor
  · intro h
    cases h with
    | @natural _ n h =>
      rw [plain, if_neg (by omega), Int.natAbs_natCast]
      exact h.eq_digits
    | @negative _ n h hn =>
      rw [plain, if_pos (by omega), Int.natAbs_neg, Int.natAbs_natCast, ← h.eq_digits]
  · rintro rfl
    unfold plain
    split
    · have hz : z = -(z.natAbs : Int) := by omega
      conv_rhs => rw [hz]
      exact .negative (isShortest_digits _) (by omega)
    · have hz : z = z.natAbs := by omega
      conv_rhs => rw [hz]
      exact .natural (isShortest_digits _)

theorem IsCanonical.isInteger (h : IsCanonical cs z) : IsInteger cs z := by
  cases h with
  | natural h => exact .unsigned h.toIsNumeral
  | negative h => exact .minus h.toIsNumeral

theorem IsCanonical.isWord (h : IsCanonical cs z) : IsWord cs := by
  rw [isCanonical_iff.mp h]
  exact isWord_plain z

/-! ## Lines -/

/-- Words with one space between any two are those of their line. -/
theorem splitsInto_intercalate (h : ∀ w ∈ ws, IsWord w) :
    SplitsInto ([' '].intercalate ws ++ ['\n']) ws := by
  have hspace : isBlank ' ' = true := by decide
  have hend : isBlank '\n' = true := by decide
  induction ws with
  | nil => exact .blank hend .nil
  | cons w ws ih =>
    obtain ⟨hw, hws⟩ := List.forall_mem_cons.mp h
    cases ws with
    | nil =>
      rw [List.intercalate_singleton]
      exact .word hw hend (.blank hend .nil)
    | cons w' ws =>
      rw [List.intercalate_cons_cons, List.append_assoc, List.append_assoc]
      exact .word hw hspace (.blank hspace (ih hws))

theorem IsLine.spells (h : IsLine text vs) : Spells text vs := by
  obtain ⟨ws, hws, rfl⟩ := h
  have hboth := hws.imp fun _ _ h => And.intro h.isWord h.isInteger
  obtain ⟨hwords, hintegers⟩ := (List.forall₂_and_left _ _).mp hboth
  exact ⟨ws, splitsInto_intercalate hwords, hintegers⟩

/-- Integers have one line. -/
theorem isLine_iff :
    IsLine text vs ↔ text = [' '].intercalate (vs.map fun v => plain v.toInt) ++ ['\n'] := by
  simp only [IsLine, isCanonical_iff, ← List.forall₂_map_right_iff, List.forall₂_eq_eq_eq]
  exact exists_eq_left

theorem exists_isLine (vs : List Int64) : ∃ text, IsLine text vs := ⟨_, isLine_iff.mpr rfl⟩

end CuttingPlanes.Text
