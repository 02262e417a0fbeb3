import CuttingPlanes.Proofs.Text.Words
import CuttingPlanes.Text.Lines
import Mathlib.Data.List.TakeWhile

/-!
# What is trimmed off a line

Carriage returns at the end of a line and blanks in front say nothing: dropping them
changes neither the words of the line (`words_trimmed`) nor its first character that is not
blank (`head?_trimmed`).
-/

namespace CuttingPlanes.Text

/-- What is dropped satisfies the predicate, and the first element that stays does not. -/
theorem dropWhile_eq_iff {α : Type} {p : α → Bool} {l d : List α} :
    l.dropWhile p = d ↔ (∃ t, l = t ++ d ∧ ∀ a ∈ t, p a = true) ∧
      ∀ a, d.head? = some a → p a = false := by
  constructor
  · rintro rfl
    refine ⟨⟨_, List.takeWhile_append_dropWhile.symm, fun a => List.mem_takeWhile_imp⟩, ?_⟩
    intro a ha
    rw [← List.find?_not_eq_head?_dropWhile] at ha
    simpa using List.find?_some ha
  · rintro ⟨⟨t, rfl, ht⟩, hd⟩
    rw [List.dropWhile_append_of_pos ht]
    cases d with
    | nil => rfl
    | cons a d => rw [List.dropWhile_cons_of_neg (by simp [hd a rfl])]

variable {line cs ds text : List Char} {c : Char}

/-! ## Carriage returns -/

theorem isBlank_return : isBlank '\r' = true := by decide

theorem isBlank_of_mem_returns (n : Nat) : ∀ c ∈ List.replicate n '\r', isBlank c = true :=
  fun _ hc => List.eq_of_mem_replicate hc ▸ isBlank_return

/-- All carriage returns at the end are dropped, and nothing else. -/
theorem dropReturns_eq_iff : dropReturns cs = ds ↔
    (∃ n, cs = ds ++ List.replicate n '\r') ∧ ds.getLast? ≠ some '\r' := by
  unfold dropReturns
  rw [List.reverse_eq_iff, dropWhile_eq_iff, List.head?_reverse]
  constructor
  · rintro ⟨⟨t, ht, hall⟩, hlast⟩
    have hreturns : t = List.replicate t.length '\r' :=
      List.eq_replicate_iff.mpr ⟨rfl, fun b hb => eq_of_beq (hall b hb)⟩
    refine ⟨⟨t.length, ?_⟩, fun h => by simpa using hlast _ h⟩
    rw [← List.reverse_inj, ht, List.reverse_append, List.reverse_replicate, ← hreturns]
  · rintro ⟨⟨n, rfl⟩, hlast⟩
    refine ⟨⟨List.replicate n '\r', ?_, ?_⟩, ?_⟩
    · rw [List.reverse_append, List.reverse_replicate]
    · exact fun a ha => beq_of_eq (List.eq_of_mem_replicate ha)
    · rintro a ha
      rw [beq_eq_false_iff_ne]
      rintro rfl
      exact hlast ha

theorem dropReturns_of_notMem (h : '\r' ∉ cs) : dropReturns cs = cs :=
  dropReturns_eq_iff.mpr ⟨⟨0, by simp⟩, fun hlast => h (List.mem_of_getLast? hlast)⟩

theorem dropReturns_append_returns (cs : List Char) :
    ∃ n, dropReturns cs ++ List.replicate n '\r' = cs := by
  obtain ⟨⟨n, hcs⟩, -⟩ := dropReturns_eq_iff.mp (Eq.refl (dropReturns cs))
  exact ⟨n, hcs.symm⟩

theorem getLast?_append_cons_ne (hc : c ≠ '\r') (cs ds : List Char) :
    (cs ++ c :: ds).getLast? ≠ some '\r' ↔ ds.getLast? ≠ some '\r' := by
  cases ds with
  | nil => simpa using hc
  | cons d ds => simp

/-- Only what follows the last other character is dropped. -/
theorem dropReturns_append_cons (hc : c ≠ '\r') (cs ds : List Char) :
    dropReturns (cs ++ c :: ds) = cs ++ c :: dropReturns ds := by
  obtain ⟨⟨n, hds⟩, hlast⟩ := dropReturns_eq_iff.mp (Eq.refl (dropReturns ds))
  refine dropReturns_eq_iff.mpr ⟨⟨n, ?_⟩, (getLast?_append_cons_ne hc _ _).mpr hlast⟩
  rw [List.append_assoc, List.cons_append, ← hds]

/-! ## Blanks in front -/

theorem trimStart_of_not_blank (hc : isBlank c = false) (cs : List Char) :
    trimStart (c :: cs) = c :: cs := by
  rw [trimStart, List.dropWhile_cons_of_neg (by simp [hc])]

theorem words_trimStart (cs : List Char) : words (trimStart cs) = words cs := by
  have hblank : ∀ c ∈ cs.takeWhile isBlank, isBlank c = true :=
    List.all_eq_true.mp List.all_takeWhile
  have happend := words_append_of_blank hblank (cs.dropWhile isBlank)
  rw [List.takeWhile_append_dropWhile] at happend
  exact happend.symm

/-! ## Trimmed lines -/

theorem words_trimmed (line : List Char) : words (trimStart (dropReturns line)) = words line := by
  obtain ⟨n, hline⟩ := dropReturns_append_returns line
  have happend := words_append_blank (isBlank_of_mem_returns n) (dropReturns line)
  rw [words_trimStart, ← happend, hline]

/-- The first character behind blanks, if there is one. -/
theorem head?_trimmed (line : List Char) :
    (trimStart (dropReturns line)).head? = line.find? (!isBlank ·) := by
  obtain ⟨n, hline⟩ := dropReturns_append_returns line
  have hnone : (List.replicate n '\r').find? (!isBlank ·) = none :=
    List.find?_eq_none.mpr fun c hc => by simp [isBlank_of_mem_returns n c hc]
  calc (trimStart (dropReturns line)).head?
    _ = (dropReturns line).find? (!isBlank ·) := (List.find?_not_eq_head?_dropWhile ..).symm
    _ = (dropReturns line ++ List.replicate n '\r').find? (!isBlank ·) := by
      rw [List.find?_append, hnone, Option.or_none]
    _ = line.find? (!isBlank ·) := by rw [hline]

theorem trimmed_eq_cons_iff (hc : isBlank c = false) : trimStart (dropReturns line) = c :: text ↔
    ∃ bs n, line = bs ++ c :: (text ++ List.replicate n '\r') ∧ (∀ b ∈ bs, isBlank b = true) ∧
      text.getLast? ≠ some '\r' := by
  have hne : c ≠ '\r' := fun h => by
    rw [h, isBlank_return] at hc
    cases hc
  rw [trimStart, dropWhile_eq_iff]
  constructor
  · rintro ⟨⟨bs, hdrop, hbs⟩, -⟩
    obtain ⟨⟨n, hline⟩, hend⟩ := dropReturns_eq_iff.mp hdrop
    exact ⟨bs, n, by simpa using hline, hbs, (getLast?_append_cons_ne hne _ _).mp hend⟩
  · rintro ⟨bs, n, rfl, hbs, hend⟩
    have hlast := (getLast?_append_cons_ne hne bs text).mpr hend
    refine ⟨⟨bs, dropReturns_eq_iff.mpr ⟨⟨n, by simp⟩, hlast⟩, hbs⟩, fun a ha => ?_⟩
    cases ha
    exact hc

end CuttingPlanes.Text
