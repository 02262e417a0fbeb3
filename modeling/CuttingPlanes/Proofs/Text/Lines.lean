import CuttingPlanes.Proofs.Stream.Lines
import CuttingPlanes.Text.Lines
import CuttingPlanes.Text.Utf8

/-!
# Lines that are written and read

The UTF-8 bytes of a text hold the byte of a line feed only where the text holds a
line feed. So a text without one, written with one behind it, is read as one line
(`line?_line`).
-/

namespace CuttingPlanes.Text

theorem lines_ne_nil {cs : List Char} (h : cs ≠ []) : lines cs ≠ [] := by
  unfold lines
  split
  · exact absurd rfl h
  · exact List.cons_ne_nil _ _
  · exact List.cons_ne_nil _ _
  · split <;> exact List.cons_ne_nil _ _

theorem lines_of_lf_notMem {cs : List Char} (hne : cs ≠ []) (h : '\n' ∉ cs) : lines cs = [cs] := by
  fun_induction lines cs with
  | case1 => exact absurd rfl hne
  | case2 cs ih => simp at h
  | case3 cs ih => simp at h
  | case4 c cs hc hreturn heq ih =>
    by_cases hcs : cs = []
    · rw [hcs]
    · exact absurd heq (lines_ne_nil hcs)
  | case5 c cs hc hreturn first rest heq ih =>
    have hcs : cs ≠ [] := by
      rintro rfl
      cases heq
    have hline := ih hcs (fun hmem => h (List.mem_cons_of_mem c hmem))
    rw [heq] at hline
    cases hline
    rfl

/-- Only the character of a byte below 128 is written with that byte. -/
theorem toNat_eq_of_mem_utf8EncodeChar {c : Char} {b : UInt8} (hb : b.toNat < 128)
    (h : b ∈ String.utf8EncodeChar c) : c.toNat = b.toNat := by
  change c.val.toNat = b.toNat
  have heq {n : Nat} (hn : n < 256) (h : b = UInt8.ofNat n) : n = b.toNat := by
    have := congrArg UInt8.toNat h
    simp only [UInt8.toNat_ofNat', Nat.mod_eq_of_lt hn] at this
    exact this.symm
  -- all bytes of longer encodings are at least 128
  unfold String.utf8EncodeChar at h
  simp only at h
  split at h
  · exact heq (by omega) (List.mem_singleton.mp h)
  · split at h
    · simp only [List.mem_cons, List.not_mem_nil, or_false] at h
      rcases h with h | h <;> have := heq (by omega) h <;> omega
    · split at h
      · simp only [List.mem_cons, List.not_mem_nil, or_false] at h
        rcases h with h | h | h <;> have := heq (by omega) h <;> omega
      · simp only [List.mem_cons, List.not_mem_nil, or_false] at h
        rcases h with h | h | h | h <;> have := heq (by omega) h <;> omega

theorem eq_lf_of_mem_utf8EncodeChar {c : Char} (h : 10 ∈ String.utf8EncodeChar c) : c = '\n' :=
  Char.toNat_inj.mp (toNat_eq_of_mem_utf8EncodeChar (by decide) h)

/-- A text whose bytes start with the one of an ASCII character starts with it. -/
theorem exists_cons_of_encode_eq {cs : List Char} {d : Char} {b : UInt8} {bytes : List UInt8}
    (hd : d.toNat = b.toNat) (hb : b.toNat < 128) (h : encode cs = b :: bytes) :
    ∃ ds, cs = d :: ds := by
  cases cs with
  | nil => cases h
  | cons c cs =>
    have hne : String.utf8EncodeChar c ≠ [] := String.utf8EncodeChar_ne_nil
    obtain ⟨first, more, hc⟩ := List.exists_cons_of_ne_nil hne
    rw [encode, List.flatMap_cons, hc, List.cons_append] at h
    obtain rfl : first = b := (List.cons.inj h).1
    have hmem : first ∈ String.utf8EncodeChar c := by
      rw [hc]
      exact List.mem_cons_self
    have hchar : c.toNat = d.toNat := (toNat_eq_of_mem_utf8EncodeChar hb hmem).trans hd.symm
    exact ⟨cs, by rw [Char.toNat_inj.mp hchar]⟩

theorem lf_notMem_encode {cs : List Char} (h : '\n' ∉ cs) : 10 ∉ encode cs := by
  intro hmem
  obtain ⟨c, hc, hbyte⟩ := List.mem_flatMap.mp hmem
  exact h (eq_lf_of_mem_utf8EncodeChar hbyte ▸ hc)

theorem lf_notMem_of_encode {cs : List Char} (h : 10 ∉ encode cs) : '\n' ∉ cs :=
  fun hmem => h (List.mem_flatMap.mpr ⟨'\n', hmem, by decide⟩)

theorem encode_eq_nil_iff {cs : List Char} : encode cs = [] ↔ cs = [] := by
  rw [encode, List.flatMap_eq_nil_iff]
  refine ⟨fun h => List.eq_nil_iff_forall_not_mem.mpr fun c hc => ?_, ?_⟩
  · exact String.utf8EncodeChar_ne_nil (h c hc)
  · rintro rfl
    exact List.forall_mem_nil _

/-- A line that is written is read, and reading goes on behind its line feed. -/
theorem line?_line {cs : List Char} (h : '\n' ∉ cs) {s : Source} {rest : List UInt8}
    (hs : s.rest = encode cs ++ 10 :: rest) :
    s.line? = .ok (some (encode cs))
      { s with rest, position := s.position + (encode cs).length + 1 } :=
  Source.line?_of_lf hs (lf_notMem_encode h)

end CuttingPlanes.Text
