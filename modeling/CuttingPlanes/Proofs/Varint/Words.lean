import CuttingPlanes.Varint.Zigzag
import Mathlib.Algebra.Ring.Nat

/-!
# Zig-zag numbers in words

A zig-zag number can have 65 bits, so a machine forms it in words of 128 bits, with the
magnitude that two's complement gives, and goes back with shifts and masks. Products, sums
and negations are checked here, and a step whose result its word cannot hold is an error of
its own. No step ever fails: a magnitude stays below half of its word, and the one magnitude
that cannot be negated is told apart before. So words give what `zigzag` and `unzigzag?`
give, on all words (`zigzag_law`).
-/

namespace CuttingPlanes.Varint

namespace Word

/-- A step whose result does not fit into its word. -/
inductive Overflow
  | product
  | sum
  | negation
deriving DecidableEq, Repr

section Checked

variable {width : Nat} {a b : BitVec width}

def mul (a b : BitVec width) : Except Overflow (BitVec width) :=
  if a.umulOverflow b then .error .product else .ok (a * b)

def add (a b : BitVec width) : Except Overflow (BitVec width) :=
  if a.uaddOverflow b then .error .sum else .ok (a + b)

def neg (a : BitVec width) : Except Overflow (BitVec width) :=
  if a.negOverflow then .error .negation else .ok (-a)

theorem mul_of_lt (h : a.toNat * b.toNat < 2 ^ width) :
    ∃ c, mul a b = .ok c ∧ c.toNat = a.toNat * b.toNat := by
  have hfits : a.umulOverflow b = false := decide_eq_false (Nat.not_le.mpr h)
  refine ⟨a * b, by rw [mul, hfits]; rfl, ?_⟩
  rw [BitVec.toNat_mul, Nat.mod_eq_of_lt h]

theorem add_of_lt (h : a.toNat + b.toNat < 2 ^ width) :
    ∃ c, add a b = .ok c ∧ c.toNat = a.toNat + b.toNat := by
  have hfits : a.uaddOverflow b = false := decide_eq_false (Nat.not_le.mpr h)
  refine ⟨a + b, by rw [add, hfits]; rfl, ?_⟩
  rw [BitVec.toNat_add, Nat.mod_eq_of_lt h]

/-- What is not negative has a negation. -/
theorem neg_of_nonneg (h : 0 ≤ a.toInt) : ∃ c, neg a = .ok c ∧ c.toInt = -a.toInt := by
  have hfits : ¬a.negOverflow = true := by
    rw [BitVec.negOverflow, beq_iff_eq]
    have hpos : (0 : Int) < 2 ^ (width - 1) := Int.pow_pos (by decide)
    omega
  exact ⟨-a, by rw [neg, if_neg hfits], BitVec.toInt_neg_of_not_negOverflow hfits⟩

end Checked

/-! ## The steps of the codec -/

/-- The magnitude of a signed word. -/
def magnitude (v : Int64) : BitVec 128 := v.toBitVec.abs.setWidth 128

/-- The signed word with a value that is not negative, if 63 bits can hold it. -/
def signed? (m : BitVec 128) : Option (BitVec 64) :=
  if m ≤ 0x7fffffffffffffff then some (m.setWidth 64) else none

/-- Twice the magnitude, and one more for a negative number. -/
def zigzag (v : Int64) : Except Overflow (BitVec 128) := do
  let twice ← mul 2 (magnitude v)
  if v < 0 then add twice 1 else return twice

/-- The number with a given zig-zag number, if there is one. The least number has a magnitude
that 63 bits cannot hold. -/
def unzigzag? (u : BitVec 128) : Except Overflow (Option Int64) :=
  let m := u >>> 1
  if u = 1 then return none
  else if u &&& 1 = 0 then return (signed? m).map Int64.ofBitVec
  else if m = magnitude Int64.minValue then return some Int64.minValue
  else
    match signed? m with
    | none => return none
    | some k => return some (Int64.ofBitVec (← neg k))

/-! ## Words against integers -/

theorem toNat_magnitude (v : Int64) : (magnitude v).toNat = v.toInt.natAbs := by
  have hint : v.toInt = v.toBitVec.toInt := rfl
  have hcases := BitVec.toInt_eq_msb_cond v.toBitVec
  have hlt := v.toBitVec.isLt
  rw [magnitude, BitVec.toNat_setWidth, BitVec.toNat_abs, hint, hcases]
  split <;> omega

theorem toNat_magnitude_minValue : (magnitude Int64.minValue).toNat = 0x8000000000000000 := by
  decide

theorem signed?_of_lt {m : BitVec 128} (h : m.toNat < 0x8000000000000000) :
    ∃ k, signed? m = some k ∧ k.toInt = m.toNat := by
  have hle : m ≤ 0x7fffffffffffffff := Nat.le_of_lt_succ h
  refine ⟨m.setWidth 64, by rw [signed?, if_pos hle], ?_⟩
  have hnat : (m.setWidth 64).toNat = m.toNat := by
    rw [BitVec.toNat_setWidth]
    omega
  rw [BitVec.toInt_eq_toNat_of_lt (by omega), hnat]

theorem signed?_of_le {m : BitVec 128} (h : 0x8000000000000000 ≤ m.toNat) : signed? m = none :=
  if_neg fun hle => absurd (Nat.lt_succ_of_le hle) (Nat.not_lt.mpr h)

/-- What 63 bits can hold is a 64-bit number. -/
theorem map_signed? (m : BitVec 128) : (signed? m).map Int64.ofBitVec = fit? m.toNat := by
  by_cases hlt : m.toNat < 0x8000000000000000
  · obtain ⟨k, hk, hvalue⟩ := signed?_of_lt hlt
    rw [hk, Option.map_some, eq_comm, fit?_eq_some_iff]
    exact hvalue
  · rw [signed?_of_le (Nat.le_of_not_lt hlt), Option.map_none, eq_comm, fit?_eq_none_iff]
    omega

theorem toNat_half (u : BitVec 128) : (u >>> 1).toNat = u.toNat / 2 := by
  rw [BitVec.toNat_ushiftRight, Nat.shiftRight_eq_div_pow, Nat.pow_one]

theorem lowest_eq_zero_iff (u : BitVec 128) : u &&& 1 = 0 ↔ u.toNat % 2 = 0 := by
  rw [← BitVec.toNat_inj, BitVec.toNat_and, ← Nat.and_one_is_mod]
  rfl

/-- Zig-zag numbers are formed without overflow. -/
theorem exists_zigzag (v : Int64) : ∃ u, zigzag v = .ok u ∧ u.toNat = Varint.zigzag v := by
  have hl := v.le_toInt
  have hu := v.toInt_lt
  have htwo : (2 : BitVec 128).toNat = 2 := rfl
  have hone : (1 : BitVec 128).toNat = 1 := rfl
  obtain ⟨twice, hmul, htwice⟩ : ∃ c, mul 2 (magnitude v) = .ok c ∧
      c.toNat = (2 : BitVec 128).toNat * (magnitude v).toNat :=
    mul_of_lt (by rw [htwo, toNat_magnitude]; omega)
  rw [htwo, toNat_magnitude] at htwice
  have hzigzag : zigzag v = if v < 0 then add twice 1 else .ok twice := by
    rw [zigzag, hmul]
    rfl
  have hnegative : v < 0 ↔ v.toInt < 0 := Int64.lt_iff_toInt_lt
  rw [hzigzag, Varint.zigzag]
  by_cases hv : v.toInt < 0
  · obtain ⟨u, hadd, hu⟩ : ∃ c, add twice 1 = .ok c ∧
        c.toNat = twice.toNat + (1 : BitVec 128).toNat :=
      add_of_lt (by rw [htwice, hone]; omega)
    rw [if_pos (hnegative.mpr hv), if_pos hv]
    exact ⟨u, hadd, by rw [hu, htwice, hone]⟩
  · rw [if_neg (mt hnegative.mp hv), if_neg hv]
    exact ⟨twice, rfl, htwice⟩

/-- The least number is the only one whose magnitude is not negated. -/
theorem negated_signed? {m : BitVec 128} (h : m ≠ magnitude Int64.minValue) :
    (match signed? m with
      | none => .ok none
      | some k => do return some (Int64.ofBitVec (← neg k)) : Except Overflow (Option Int64)) =
        .ok (fit? (-m.toNat)) := by
  have hne : m.toNat ≠ 0x8000000000000000 := fun hm =>
    h (BitVec.toNat_inj.mp (hm.trans toNat_magnitude_minValue.symm))
  by_cases hlt : m.toNat < 0x8000000000000000
  · obtain ⟨k, hk, hvalue⟩ := signed?_of_lt hlt
    obtain ⟨c, hneg, hc⟩ := neg_of_nonneg (a := k) (by omega)
    have hfit : fit? (-m.toNat) = some (Int64.ofBitVec c) :=
      fit?_eq_some_iff.mpr (hc.trans (congrArg Neg.neg hvalue))
    rw [hk, hfit]
    show (do return some (Int64.ofBitVec (← neg k))) = _
    rw [hneg]
    rfl
  · have hno : fit? (-m.toNat) = none := fit?_eq_none_iff.mpr (by omega)
    rw [signed?_of_le (Nat.le_of_not_lt hlt), hno]

/-- The way back is without overflow as well. -/
theorem unzigzag?_eq (u : BitVec 128) : unzigzag? u = .ok (Varint.unzigzag? u.toNat) := by
  have hone : u = 1 ↔ u.toNat = 1 := BitVec.toNat_inj.symm
  unfold unzigzag? Varint.unzigzag?
  simp only [hone, lowest_eq_zero_iff, ← toNat_half]
  by_cases hu : u.toNat = 1
  · rw [if_pos hu, hu]
    rfl
  · rw [if_neg hu, if_neg hu]
    split
    · rw [map_signed?]
      rfl
    · split
      · rename_i hleast
        rw [hleast, toNat_magnitude_minValue]
        rfl
      · rename_i hother
        exact negated_signed? hother

end Word

/-! ## The law -/

theorem unzigzag?_refuses_iff {u : Nat} : unzigzag? u = none ↔
    u = 1 ∨ (u % 2 = 0 ∧ 2 ^ 64 ≤ u) ∨ (u % 2 = 1 ∧ 2 ^ 64 + 1 < u) := by
  unfold unzigzag?
  split
  · rw [fit?_eq_none_iff]
    omega
  · split
    · rename_i hone
      exact iff_of_true rfl (Or.inl hone)
    · rw [fit?_eq_none_iff]
      omega

/-- On all words of 128 bits, the way to zig-zag numbers and the way back are inverse as far as
there is a way back: there is none for the negative zero, and for what is twice the magnitude
of no number. No product, sum or negation on either way overflows its word. -/
theorem zigzag_law :
    (∀ (u : BitVec 128) (v : Int64), unzigzag? u.toNat = some v ↔ zigzag v = u.toNat) ∧
    (∀ u : BitVec 128, unzigzag? u.toNat = none ↔
      u.toNat = 1 ∨ (u.toNat % 2 = 0 ∧ 2 ^ 64 ≤ u.toNat) ∨
        (u.toNat % 2 = 1 ∧ 2 ^ 64 + 1 < u.toNat)) ∧
    (∀ v : Int64, ∃ u, Word.zigzag v = .ok u ∧ u.toNat = zigzag v) ∧
    ∀ u : BitVec 128, Word.unzigzag? u = .ok (unzigzag? u.toNat) :=
  ⟨fun _ _ => unzigzag?_eq_some_iff, fun _ => unzigzag?_refuses_iff, Word.exists_zigzag,
    Word.unzigzag?_eq⟩

/-- The least number is the only one with a zig-zag number of 65 bits. -/
example : Word.unzigzag? 0x10000000000000001 = .ok (some Int64.minValue) := by rfl

end CuttingPlanes.Varint
