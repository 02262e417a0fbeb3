import CuttingPlanes.Proofs.Text.Words
import CuttingPlanes.Text.Utf8

/-!
# Beginnings of texts that are written

The bytes of ASCII characters can be cut anywhere, and what is left is a text again. A
numeral that is cut is still a numeral, of a smaller number (`exists_digits_eq_take`).
-/

namespace CuttingPlanes.Text

variable {c : Char} {cs w : List Char}

/-- The character takes one byte. -/
def IsAscii (c : Char) : Prop := c.utf8Size = 1

instance (c : Char) : Decidable (IsAscii c) := inferInstanceAs (Decidable (c.utf8Size = 1))

theorem isAscii_of_isDigit (h : c.isDigit = true) : IsAscii c := by
  simp only [Char.isDigit, Bool.and_eq_true, decide_eq_true_eq] at h
  refine Char.utf8Size_eq_one_iff.mpr (UInt32.le_trans h.2 ?_)
  decide

theorem encode_of_isAscii (h : ∀ c ∈ cs, IsAscii c) : encode cs = cs.map (·.val.toUInt8) := by
  induction cs with
  | nil => rfl
  | cons c cs ih =>
    have hc := String.utf8EncodeChar_eq_singleton (h c List.mem_cons_self)
    have hcs := ih fun d hd => h d (List.mem_cons_of_mem _ hd)
    rw [encode] at hcs ⊢
    rw [List.flatMap_cons, hc, hcs]
    rfl

theorem length_encode_of_isAscii (h : ∀ c ∈ cs, IsAscii c) : (encode cs).length = cs.length := by
  rw [encode_of_isAscii h, List.length_map]

/-- The first bytes of ASCII characters are those of the first characters. -/
theorem take_encode_of_isAscii (h : ∀ c ∈ cs, IsAscii c) (n : Nat) :
    (encode cs).take n = encode (cs.take n) := by
  rw [encode_of_isAscii h, encode_of_isAscii fun c hc => h c (List.mem_of_mem_take hc),
    List.map_take]

/-- A number without its last digits is a number, and not a larger one. -/
theorem exists_digits_eq_take {n : Nat} (hn : 0 < n) {k : Nat} (hk : 0 < k) :
    ∃ m, (digits n).take k = digits m ∧ 0 < m ∧ m ≤ n := by
  induction n using Nat.strongRecOn with
  | ind n ih =>
    by_cases hlt : n < 10
    · refine ⟨n, List.take_of_length_le ?_, hn, Nat.le_refl n⟩
      rw [digits_of_lt hlt]
      exact hk
    · have hdigits := digits_of_le (Nat.le_of_not_lt hlt)
      by_cases hle : k ≤ (digits (n / 10)).length
      · obtain ⟨m, hm, hpos, hmle⟩ := ih (n / 10) (by omega) (by omega)
        refine ⟨m, ?_, hpos, by omega⟩
        rw [hdigits, List.take_append_of_le_length hle, hm]
      · refine ⟨n, List.take_of_length_le ?_, hn, Nat.le_refl n⟩
        rw [hdigits, List.length_append, List.length_singleton]
        omega

/-- The characters of a word stand in the text. -/
theorem mem_of_mem_words (hw : w ∈ words cs) (hc : c ∈ w) : c ∈ cs := by
  have h := splitsInto_words cs
  generalize words cs = ws at h hw
  induction h with
  | nil => cases hw
  | blank _ _ ih => exact List.mem_cons_of_mem _ (ih hw)
  | last _ =>
    obtain rfl := List.mem_singleton.mp hw
    exact hc
  | word _ _ _ ih =>
    rcases List.mem_cons.mp hw with rfl | hw
    · exact List.mem_append_left _ hc
    · exact List.mem_append_right _ (ih hw)

end CuttingPlanes.Text
