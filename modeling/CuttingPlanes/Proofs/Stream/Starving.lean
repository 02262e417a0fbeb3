import CuttingPlanes.Proofs.Stream.Taking

/-!
# Sources that end too early

An action starves within some bytes when it fails on every source that ends before the
last of them, and leaves nothing in the source. Actions in sequence starve within the
bytes of each, provided that the first one takes its own (`Starves.bind`). So a reader
for which both is known reads all or nothing of what was written.
-/

namespace CuttingPlanes.Source

open Actions

variable {ε ε' α β : Type}

/-- On a source that ends before the last of the bytes the action fails, with an error
that satisfies `P`, and the source is then exhausted. -/
def Starves (P : ε → Prop) (act : EStateM ε Source α) (bytes : List UInt8) : Prop :=
  ∀ cut missing position, cut ++ missing = bytes → missing ≠ [] →
    ∃ e, act ⟨cut, position, none⟩ = .error e ⟨[], position + cut.length, none⟩ ∧ P e

namespace Starves

variable {P : ε → Prop} {act : EStateM ε Source α} {next : α → EStateM ε Source β}
  {xs ys : List UInt8} {a : α}

/-- There is nothing to be cut off no bytes. -/
theorem nil (P : ε → Prop) (act : EStateM ε Source α) : Starves P act [] := by
  intro cut missing position heq hne
  exact absurd (List.append_eq_nil_iff.mp heq).2 hne

theorem bind (h : Starves P act xs) (htakes : Takes act xs a) (hnext : Starves P (next a) ys) :
    Starves P (act >>= next) (xs ++ ys) := by
  intro cut missing position heq hne
  -- the cut lies either within the bytes of the first action or behind them
  have hcases : (∃ lost, cut ++ lost = xs ∧ lost ≠ []) ∨
      ∃ cut', cut = xs ++ cut' ∧ cut' ++ missing = ys := by
    obtain ⟨lost, rfl, rfl⟩ | ⟨cut', rfl, rfl⟩ := List.append_eq_append_iff.mp heq
    · by_cases hlost : lost = []
      · subst hlost
        exact Or.inr ⟨[], by simp, rfl⟩
      · exact Or.inl ⟨lost, rfl, hlost⟩
    · exact Or.inr ⟨cut', rfl, rfl⟩
  obtain ⟨lost, hlost, hne'⟩ | ⟨cut', rfl, hcut'⟩ := hcases
  · obtain ⟨e, hact, he⟩ := h cut lost position hlost hne'
    exact ⟨e, bind_of_error hact, he⟩
  · obtain ⟨e, hrest, he⟩ := hnext cut' missing (position + xs.length) hcut' hne
    refine ⟨e, ?_, he⟩
    rw [bind_of_ok (htakes cut' position none), hrest, List.length_append, Nat.add_assoc]

theorem nil_bind (htakes : Takes act [] a) (hnext : Starves P (next a) ys) :
    Starves P (act >>= next) ys := bind (nil P act) htakes hnext

/-- What follows is not reached. -/
theorem bind_nil (h : Starves P act xs) : Starves P (act >>= next) xs := by
  intro cut missing position heq hne
  obtain ⟨e, hact, he⟩ := h cut missing position heq hne
  exact ⟨e, bind_of_error hact, he⟩

theorem adaptExcept {P' : ε' → Prop} {f : ε → ε'} (h : Starves P act xs)
    (hf : ∀ e, P e → P' (f e)) : Starves P' (EStateM.adaptExcept f act) xs := by
  intro cut missing position heq hne
  obtain ⟨e, hact, he⟩ := h cut missing position heq hne
  exact ⟨f e, by simp only [EStateM.adaptExcept, hact], hf e he⟩

end Starves

theorem starves_byte (b : UInt8) : Starves (· = .endedEarly) byte [b] := by
  intro cut missing position heq hne
  cases cut with
  | nil => exact ⟨.endedEarly, rfl, rfl⟩
  | cons c cut =>
    obtain ⟨-, hnil⟩ := List.cons.inj heq
    exact absurd (List.append_eq_nil_iff.mp hnil).2 hne

/-- What is left of fewer bytes than were wanted is taken all the same. -/
theorem upTo_of_lt {bytes : List UInt8} {count : Nat} (h : bytes.length < count)
    (position : Nat) :
    upTo count ⟨bytes, position, none⟩ = .ok bytes ⟨[], position + bytes.length, none⟩ := by
  have htake : bytes.take count = bytes := List.take_of_length_le (Nat.le_of_lt h)
  simp only [upTo, htake, if_neg (Nat.ne_of_lt h), atEnd, exhausted]

end CuttingPlanes.Source
