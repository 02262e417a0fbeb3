import Mathlib.Tactic.Ring
import CuttingPlanes.Varint.Accumulation
import CuttingPlanes.Varint.Encoding

/-!
# Integers at the front of a byte string

`scan` takes the bytes of one integer, one at a time. What the groups taken so far and
those still to come amount to does not change on the way (`Completes`), and ten groups
are enough for every integer of 64 bits. So an integer is found exactly where its bytes
stand (`scan_eq_ok_iff`), and no integer is written as the beginning of another one.
-/

namespace CuttingPlanes.Varint

theorem toNat_last {u : Nat} (h : u < 128) : (UInt8.ofNat u).toNat = u := by
  simp only [UInt8.toNat_ofNat']
  omega

theorem toNat_marked (u : Nat) : (UInt8.ofNat (u % 128 + 128)).toNat = u % 128 + 128 := by
  simp only [UInt8.toNat_ofNat']
  omega

variable {taken : Taken} {u : Nat} {v w : Int64}

/-! ## One byte -/

/-- The groups of `u`, behind those already taken, make up the integer. -/
structure Completes (taken : Taken) (u : Nat) (v : Int64) : Prop where
  value_eq : taken.value + u * 128 ^ taken.count = zigzag v
  pos : taken.count = 0 ∨ 0 < u

theorem completes_nothing_iff : Completes .nothing u v ↔ u = zigzag v := by
  constructor
  · rintro ⟨hvalue, -⟩
    simpa [Taken.nothing] using hvalue
  · rintro rfl
    exact ⟨by simp [Taken.nothing], Or.inl rfl⟩

theorem Completes.count_lt (h : Completes taken u v) : taken.count < 10 := by
  by_contra hcount
  have hpos : 0 < u := h.pos.resolve_left (by omega)
  have hpow : 128 ^ 10 ≤ 128 ^ taken.count := Nat.pow_le_pow_right (by decide) (by omega)
  have hle : 128 ^ taken.count ≤ u * 128 ^ taken.count := Nat.le_mul_of_pos_left _ hpos
  have hvalue := h.value_eq
  have hmax := zigzag_le v
  omega

/-- One more group is taken off the front of those that are left. -/
theorem mul_pow_eq (u n : Nat) :
    u * 128 ^ n = u % 128 * 128 ^ n + u / 128 * 128 ^ (n + 1) := by
  conv_lhs => rw [← Nat.mod_add_div u 128]
  rw [Nat.pow_succ]
  ring

theorem Completes.push_last (h : Completes taken u v) (hu : u < 128) :
    taken.push (UInt8.ofNat u) = .done v := by
  have hcount : ¬10 ≤ taken.count := Nat.not_le.mpr h.count_lt
  have hvalue : taken.value + u % 128 * Nat.pow 128 taken.count = zigzag v := by
    rw [Nat.mod_eq_of_lt hu]
    exact h.value_eq
  have hzero : ¬(UInt8.ofNat u = 0 ∧ 0 < taken.count) := by
    rintro ⟨hzero, hpos⟩
    have hu0 : u = 0 := by
      rw [← toNat_last hu, hzero]
      rfl
    have := h.pos
    omega
  have hone := zigzag_ne_one v
  have hlast : ¬128 ≤ u := by omega
  simp only [Taken.push, hcount, if_false, toNat_last hu, hvalue, hlast, hzero, hone, or_self,
    unzigzag?_zigzag]

theorem Completes.push_marked (h : Completes taken u v) (hu : 128 ≤ u) :
    ∃ taken', taken.push (UInt8.ofNat (u % 128 + 128)) = .more taken' ∧
      Completes taken' (u / 128) v := by
  have hcount : ¬10 ≤ taken.count := Nat.not_le.mpr h.count_lt
  refine ⟨⟨taken.count + 1, taken.value + u % 128 * 128 ^ taken.count⟩, ?_, ?_, ?_⟩
  · have hmod : (u % 128 + 128) % 128 = u % 128 := by omega
    have hmarked : 128 ≤ u % 128 + 128 := by omega
    simp only [Taken.push, hcount, if_false, toNat_marked, hmod, hmarked, if_true]
    rfl
  · have hvalue := h.value_eq
    have hsplit := mul_pow_eq u taken.count
    simp only
    omega
  · exact Or.inr (by omega)

/-- A byte that completes an integer is its last group. -/
theorem completes_of_push_done {b : UInt8} (h : taken.push b = .done v) :
    Completes taken b.toNat v ∧ groups b.toNat = [b] := by
  unfold Taken.push at h
  split at h
  · cases h
  · dsimp only at h
    split at h
    · cases h
    · rename_i hlast
      have hlt : b.toNat < 128 := Nat.lt_of_not_le hlast
      split at h
      · cases h
      · rename_i hshort
        split at h
        · rename_i hunzigzag
          cases h
          have hvalue := unzigzag?_eq_some_iff.mp hunzigzag
          rw [Nat.mod_eq_of_lt hlt] at hvalue
          refine ⟨⟨hvalue.symm, ?_⟩, by rw [groups_of_lt hlt, UInt8.ofNat_toNat]⟩
          by_contra hzero
          push Not at hzero
          have hb : b = 0 := UInt8.toNat_inj.mp (Nat.le_zero.mp hzero.2)
          exact hshort (Or.inl ⟨hb, Nat.pos_of_ne_zero hzero.1⟩)
        · cases h

/-- A byte behind which more is needed is a group in front of those to come. -/
theorem completes_of_push_more {b : UInt8} {taken' : Taken} (h : taken.push b = .more taken')
    (hrest : Completes taken' u v) :
    ∃ u', Completes taken u' v ∧ groups u' = b :: groups u := by
  unfold Taken.push at h
  split at h
  · cases h
  · dsimp only at h
    split at h
    · rename_i hmarked
      cases h
      have hlt := b.toNat_lt
      have hpos : 0 < u := hrest.pos.resolve_left (Nat.succ_ne_zero _)
      have hmod : (b.toNat % 128 + 128 * u) % 128 = b.toNat % 128 := by omega
      have hdiv : (b.toNat % 128 + 128 * u) / 128 = u := by omega
      have hbyte : b.toNat % 128 + 128 = b.toNat := by omega
      refine ⟨b.toNat % 128 + 128 * u, ⟨?_, Or.inr (by omega)⟩, ?_⟩
      · have hvalue := hrest.value_eq
        have hsplit := mul_pow_eq (b.toNat % 128 + 128 * u) taken.count
        rw [hmod, hdiv] at hsplit
        simp only [Nat.pow_eq] at hvalue
        omega
      · rw [groups_of_le (by omega), hmod, hdiv, hbyte, UInt8.ofNat_toNat]
    · split at h
      · cases h
      · split at h <;> cases h

/-! ## The bytes of an integer -/

/-- The integer at the front of some bytes, behind groups already taken, or what is wrong
with it; and the bytes behind it. -/
def scan (taken : Taken) : List UInt8 → Except Defect Int64 × List UInt8
  | [] => (.error .truncated, [])
  | b :: bytes =>
    match taken.push b with
    | .more taken => scan taken bytes
    | .done v => (.ok v, bytes)
    | .defective defect => (.error defect, bytes)

variable {bytes rest rest' : List UInt8}

theorem scan_groups (h : Completes taken u v) (rest : List UInt8) :
    scan taken (groups u ++ rest) = (.ok v, rest) := by
  induction u using Nat.strongRecOn generalizing taken with
  | ind u ih =>
    by_cases hu : u < 128
    · rw [groups_of_lt hu, List.singleton_append, scan, h.push_last hu]
    · obtain ⟨taken', hpush, h'⟩ := h.push_marked (Nat.le_of_not_lt hu)
      rw [groups_of_le (Nat.le_of_not_lt hu), List.cons_append, scan, hpush]
      exact ih (u / 128) (by omega) h'

theorem exists_groups_of_scan (h : scan taken bytes = (.ok v, rest)) :
    ∃ u, Completes taken u v ∧ bytes = groups u ++ rest := by
  induction bytes generalizing taken with
  | nil => cases h
  | cons b bytes ih =>
    rw [scan] at h
    split at h
    · rename_i taken' hpush
      obtain ⟨u, hu, rfl⟩ := ih h
      obtain ⟨u', hu', hgroups⟩ := completes_of_push_more hpush hu
      exact ⟨u', hu', by rw [hgroups, List.cons_append]⟩
    · rename_i hpush
      cases h
      obtain ⟨hb, hgroups⟩ := completes_of_push_done hpush
      exact ⟨b.toNat, hb, by rw [hgroups, List.singleton_append]⟩
    · cases h

/-- An integer is found exactly where its bytes stand. -/
theorem scan_eq_ok_iff : scan .nothing bytes = (.ok v, rest) ↔ bytes = encode v ++ rest := by
  constructor
  · intro h
    obtain ⟨u, hu, rfl⟩ := exists_groups_of_scan h
    rw [completes_nothing_iff.mp hu, encode]
  · rintro rfl
    exact scan_groups (completes_nothing_iff.mpr rfl) rest

/-- The bytes of an integer are not the beginning of those of another one. -/
theorem encode_append_inj (h : encode v ++ rest = encode w ++ rest') : v = w ∧ rest = rest' := by
  have hv := scan_eq_ok_iff.mpr (Eq.refl (encode v ++ rest))
  rw [h, scan_eq_ok_iff.mpr rfl] at hv
  cases hv
  exact ⟨rfl, rfl⟩

theorem encode_ne_nil (v : Int64) : encode v ≠ [] := groups_ne_nil _

theorem encodeAll_eq_nil_iff {vs : List Int64} : encodeAll vs = [] ↔ vs = [] := by
  cases vs with
  | nil => simp
  | cons v vs => simp [encode_ne_nil]

theorem exists_of_encode_append_eq {ws : List Int64} (h : encode v ++ rest = encodeAll ws) :
    ∃ ws', ws = v :: ws' ∧ rest = encodeAll ws' := by
  cases ws with
  | nil => simp [encode_ne_nil] at h
  | cons w ws =>
    obtain ⟨rfl, rfl⟩ := encode_append_inj h
    exact ⟨ws, rfl, rfl⟩

/-- The bytes of some integers are followed by those of the remaining ones. -/
theorem exists_of_encodeAll_append_eq {vs ws : List Int64}
    (h : encodeAll vs ++ rest = encodeAll ws) : ∃ ws', ws = vs ++ ws' ∧ rest = encodeAll ws' := by
  induction vs generalizing ws with
  | nil => exact ⟨ws, rfl, h⟩
  | cons v vs ih =>
    rw [encodeAll_cons, List.append_assoc] at h
    obtain ⟨ws, rfl, hrest⟩ := exists_of_encode_append_eq h
    obtain ⟨ws', rfl, hrest'⟩ := ih hrest
    exact ⟨ws', rfl, hrest'⟩

end CuttingPlanes.Varint
