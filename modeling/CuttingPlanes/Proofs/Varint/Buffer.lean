import CuttingPlanes.Proofs.Varint.Bijection
import CuttingPlanes.Proofs.Varint.Words
import Mathlib.Algebra.BigOperators.Fin
import Mathlib.Order.Bounds.Defs

/-!
# The buffer of an integer

A machine forms the bytes of an integer in a buffer that holds ten. A loop takes the groups off
a word, each pass marks one and puts it behind those before it, and behind the last pass the
mark of the last byte is taken off again. Every access is checked here, and one outside the
buffer is an error of its own. The loop makes one pass for each group (`exists_endsAfter`), and
a number has no more groups than it needs (`isLeast_length_groups`). So ten bytes are enough for
every integer, and what is formed in them is `encode` (`buffer_law`).
-/

namespace CuttingPlanes.Varint

namespace Word

/-- Why the bytes of an integer cannot be formed in a buffer. -/
inductive Trap
  | overflow (step : Overflow)
  | outside (index : Nat)
  | noLast
deriving DecidableEq, Repr

/-- A buffer, the number of bytes put into it, and what is left of the word. -/
structure Filling where
  buffer : Vector UInt8 10
  count : Nat
  left : BitVec 128
deriving DecidableEq, Repr

namespace Filling

/-- One pass of the loop: the lowest group goes into the buffer, marked. -/
def pass (f : Filling) : Except Trap Filling :=
  if h : f.count < 10 then
    let byte := UInt8.ofBitVec ((f.left &&& 0x7f).setWidth 8) ||| 0x80
    .ok ⟨f.buffer.set f.count byte h, f.count + 1, f.left >>> 7⟩
  else .error (.outside f.count)

theorem toNat_shift (left : BitVec 128) : (left >>> 7).toNat = left.toNat / 128 := by
  rw [BitVec.toNat_ushiftRight, Nat.shiftRight_eq_div_pow]

theorem toNat_left_of_pass {f g : Filling} (h : f.pass = .ok g) :
    g.left.toNat = f.left.toNat / 128 := by
  unfold pass at h
  split at h
  · cases h
    exact toNat_shift f.left
  · cases h

/-- Pass until nothing is left, at least once. -/
def run (f : Filling) : Except Trap Filling :=
  match _h : f.pass with
  | .error e => .error e
  | .ok g => if g.left = 0 then .ok g else run g
termination_by f.left.toNat
decreasing_by
  rename_i hleft
  have hpos : g.left.toNat ≠ 0 := fun h => hleft (BitVec.toNat_inj.mp h)
  rw [toNat_left_of_pass _h] at hpos ⊢
  omega

/-- Take the mark off the last byte, and give the bytes that have been put into the buffer. -/
def close (f : Filling) : Except Trap (List UInt8) :=
  match f.count with
  | 0 => .error .noLast
  | last + 1 =>
    if h : last < 10 then
      .ok ((f.buffer.set last (f.buffer[last] &&& 0x7f) h).toList.take (last + 1))
    else .error (.outside last)

end Filling

/-- The bytes of an integer, formed in a buffer, whatever that holds before. -/
def encode (buffer : Vector UInt8 10) (v : Int64) : Except Trap (List UInt8) := do
  let u ← (zigzag v).mapError .overflow
  let f ← Filling.run ⟨buffer, 0, u⟩
  f.close

/-! ## Bytes and groups -/

theorem or_mark {n : Nat} (h : n < 128) : n ||| 128 = n + 128 := by
  rw [Nat.or_comm, ← Nat.two_pow_add_eq_or_of_lt (i := 7) h 1, Nat.add_comm]

/-- The lowest group of a word, marked. -/
theorem byte_eq (left : BitVec 128) :
    UInt8.ofBitVec ((left &&& 0x7f).setWidth 8) ||| 0x80 =
      UInt8.ofNat (left.toNat % 128 + 128) := by
  have hgroup : (left &&& 0x7f).toNat = left.toNat % 128 :=
    (BitVec.toNat_and _ _).trans (Nat.and_two_pow_sub_one_eq_mod left.toNat 7)
  have hlt : left.toNat % 128 < 128 := Nat.mod_lt _ (by decide)
  have hfits : left.toNat % 128 % 2 ^ 8 = left.toNat % 128 := Nat.mod_eq_of_lt (by omega)
  rw [← UInt8.toNat_inj, toNat_marked, UInt8.toNat_or, UInt8.toNat_ofBitVec,
    BitVec.toNat_setWidth, hgroup, hfits]
  exact or_mark hlt

/-- The mark is taken off by a mask. -/
theorem unmark {b : UInt8} (h : b.toNat < 128) : UInt8.ofNat (b.toNat + 128) &&& 0x7f = b := by
  have hmarked : (UInt8.ofNat (b.toNat + 128)).toNat = b.toNat + 128 := by
    simp only [UInt8.toNat_ofNat']
    omega
  have hmask := Nat.and_two_pow_sub_one_eq_mod (b.toNat + 128) 7
  rw [← UInt8.toNat_inj, UInt8.toNat_and, hmarked]
  exact hmask.trans (by omega)

namespace Filling

variable {f g t : Filling} {buffer : Vector UInt8 10} {k j n : Nat}

/-- The bytes that have been put into the buffer. -/
def filled (f : Filling) : List UInt8 := f.buffer.toList.take f.count

theorem take_set_succ (h : n < 10) (b : UInt8) :
    (buffer.set n b h).toList.take (n + 1) = buffer.toList.take n ++ [b] := by
  have hlt : n < (buffer.toList.set n b).length := by simpa using h
  rw [Vector.toList_set, List.take_succ_eq_append_getElem hlt, List.getElem_set_self,
    List.take_set_of_le (Nat.le_refl n)]

/-- A pass puts one byte behind the others, as long as there is room. -/
theorem exists_pass (h : f.count < 10) :
    ∃ g, f.pass = .ok g ∧ g.count = f.count + 1 ∧ g.left.toNat = f.left.toNat / 128 ∧
      g.filled = f.filled ++ [UInt8.ofNat (f.left.toNat % 128 + 128)] := by
  refine ⟨_, dif_pos h, rfl, toNat_shift f.left, ?_⟩
  rw [byte_eq]
  exact take_set_succ h _

/-- The last byte is the one whose mark is taken off. -/
theorem close_of_filled {front : List UInt8} {b : UInt8} (hcount : f.count ≤ 10)
    (h : f.filled = front ++ [b]) : f.close = .ok (front ++ [b &&& 0x7f]) := by
  obtain ⟨buffer, count, left⟩ := f
  cases count with
  | zero => simp [filled] at h
  | succ last =>
    have hlast : last < 10 := hcount
    have hlt : last < buffer.toList.length := by rwa [Vector.length_toList]
    have hfilled : buffer.toList.take last ++ [buffer[last]] = front ++ [b] := by
      rw [← h, filled, List.take_succ_eq_append_getElem hlt, Vector.getElem_toList]
    obtain ⟨hfront, hb⟩ := List.append_inj' hfilled rfl
    simp only [close, hlast, dif_pos, take_set_succ, hfront, List.singleton_inj.mp hb]

/-! ## Runs of passes -/

/-- The loop ends behind so many passes. -/
inductive EndsAfter : Nat → Filling → Filling → Prop
  | last {f g : Filling} (hpass : f.pass = .ok g) (hleft : g.left = 0) : EndsAfter 1 f g
  | more {k : Nat} {f g t : Filling} (hpass : f.pass = .ok g) (hleft : g.left ≠ 0)
      (hrest : EndsAfter k g t) : EndsAfter (k + 1) f t

theorem run_of_pass (h : f.pass = .ok g) : f.run = if g.left = 0 then .ok g else g.run := by
  rw [run]
  split <;> rename_i heq <;> rw [h] at heq <;> cases heq
  rfl

theorem EndsAfter.run_eq (h : EndsAfter k f t) : f.run = .ok t := by
  induction h with
  | last hpass hleft => rw [run_of_pass hpass, if_pos hleft]
  | more hpass hleft _ ih => rw [run_of_pass hpass, if_neg hleft, ih]

/-- There is one number of passes behind which the loop ends. -/
theorem EndsAfter.unique {t' : Filling} (h : EndsAfter k f t) (h' : EndsAfter j f t') : k = j := by
  induction h generalizing j with
  | last hpass hleft =>
    cases h' with
    | last => rfl
    | more hpass' hleft' _ =>
      cases hpass.symm.trans hpass'
      exact absurd hleft hleft'
  | more hpass hleft _ ih =>
    cases h' with
    | last hpass' hleft' =>
      cases hpass.symm.trans hpass'
      exact absurd hleft' hleft
    | more hpass' _ hrest' =>
      cases hpass.symm.trans hpass'
      rw [ih hrest']

/-- The loop makes one pass for each group, and all groups are in the buffer then, the last one
marked like the others. -/
theorem exists_endsAfter (h : f.count + (groups f.left.toNat).length ≤ 10) :
    ∃ t marked last, EndsAfter (groups f.left.toNat).length f t ∧ t.count ≤ 10 ∧
      groups f.left.toNat = marked ++ [last] ∧ last.toNat < 128 ∧
      t.filled = f.filled ++ marked ++ [UInt8.ofNat (last.toNat + 128)] := by
  generalize hu : f.left.toNat = u at h
  induction u using Nat.strongRecOn generalizing f with
  | ind u ih =>
    have hpos : 0 < (groups u).length := List.length_pos_of_ne_nil (groups_ne_nil u)
    obtain ⟨g, hpass, hcount, hleft, hfilled⟩ := exists_pass (f := f) (by omega)
    rw [hu] at hleft hfilled
    by_cases hlast : u < 128
    · have hzero : g.left = 0 := BitVec.toNat_inj.mp (hleft.trans (Nat.div_eq_of_lt hlast))
      rw [Nat.mod_eq_of_lt hlast] at hfilled
      rw [groups_of_lt hlast] at h ⊢
      refine ⟨g, [], UInt8.ofNat u, .last hpass hzero, hcount ▸ h, rfl, ?_, ?_⟩
      · rwa [toNat_last hlast]
      · rw [toNat_last hlast, List.append_nil, hfilled]
    · have hmore : 128 ≤ u := Nat.le_of_not_lt hlast
      have hne : g.left ≠ 0 := by
        intro hzero
        rw [hzero] at hleft
        have hdiv : u / 128 = 0 := hleft.symm
        omega
      rw [groups_of_le hmore, List.length_cons] at h
      obtain ⟨t, marked, last, hends, htcount, hgroups, hlt, htfilled⟩ :=
        ih (u / 128) (by omega) hleft (by omega)
      rw [groups_of_le hmore]
      refine ⟨t, UInt8.ofNat (u % 128 + 128) :: marked, last, .more hpass hne hends, htcount, ?_,
        hlt, ?_⟩
      · rw [hgroups, List.cons_append]
      · rw [htfilled, hfilled]
        simp only [List.append_assoc, List.cons_append, List.nil_append]

end Filling

end Word

/-! ## The number of groups -/

variable {u k : Nat}

theorem length_groups_pos (u : Nat) : 1 ≤ (groups u).length :=
  List.length_pos_of_ne_nil (groups_ne_nil u)

theorem length_groups_le_iff (hk : 1 ≤ k) : (groups u).length ≤ k ↔ u < 128 ^ k := by
  induction k, hk using Nat.le_induction generalizing u with
  | base =>
    by_cases hu : u < 128
    · simp [groups_of_lt hu, hu]
    · have hpos := length_groups_pos (u / 128)
      rw [groups_of_le (Nat.le_of_not_lt hu), List.length_cons]
      omega
  | succ k hk ih =>
    have hpow : 128 ^ 1 ≤ 128 ^ k := Nat.pow_le_pow_right (by decide) hk
    by_cases hu : u < 128
    · rw [groups_of_lt hu, List.length_singleton, Nat.pow_succ]
      omega
    · rw [groups_of_le (Nat.le_of_not_lt hu), List.length_cons, Nat.add_le_add_iff_right, ih,
        Nat.div_lt_iff_lt_mul (by decide), Nat.pow_succ]

/-- A number has as few groups as can hold it. -/
theorem isLeast_length_groups (u : Nat) :
    IsLeast {k | 1 ≤ k ∧ u < 128 ^ k} (groups u).length := by
  have hpos := length_groups_pos u
  refine ⟨⟨hpos, (length_groups_le_iff hpos).mp (Nat.le_refl _)⟩, ?_⟩
  rintro k ⟨hk, hlt⟩
  exact (length_groups_le_iff hk).mpr hlt

theorem length_encode_le (v : Int64) : (encode v).length ≤ 10 := by
  have hmax := zigzag_le v
  rw [encode, length_groups_le_iff (by decide)]
  omega

/-- Ten bytes are needed from the magnitude 2 ^ 62 on. -/
theorem length_encode_eq_ten_iff (v : Int64) :
    (encode v).length = 10 ↔ 2 ^ 62 ≤ v.toInt.natAbs := by
  have hten := length_encode_le v
  have hnine : (encode v).length ≤ 9 ↔ zigzag v < 128 ^ 9 := length_groups_le_iff (by decide)
  have hhalf : zigzag v < 128 ^ 9 ↔ v.toInt.natAbs < 2 ^ 62 := by
    unfold zigzag
    split <;> omega
  omega

/-- The number that groups hold, as a sum. -/
theorem numberOf_eq_sum (bytes : List UInt8) :
    numberOf bytes = ∑ i : Fin bytes.length, bytes[i].toNat % 128 * 128 ^ i.val := by
  induction bytes with
  | nil => rfl
  | cons b bytes ih =>
    have hshift (i : Fin bytes.length) :
        bytes[i].toNat % 128 * 128 ^ (i.val + 1) =
          128 * (bytes[i].toNat % 128 * 128 ^ i.val) := by
      rw [Nat.pow_succ]
      ring
    calc numberOf (b :: bytes)
      _ = b.toNat % 128 + 128 * ∑ i : Fin bytes.length, bytes[i].toNat % 128 * 128 ^ i.val := by
        rw [numberOf, ih]
      _ = b.toNat % 128 * 128 ^ 0 +
          ∑ i : Fin bytes.length, bytes[i].toNat % 128 * 128 ^ (i.val + 1) := by
        simp only [hshift, Finset.mul_sum, pow_zero, mul_one]
      _ = _ := (Fin.sum_univ_succ fun i : Fin (bytes.length + 1) =>
        ((b :: bytes)[i]).toNat % 128 * 128 ^ i.val).symm

/-! ## The law -/

/-- What a buffer is filled with are the bytes of the integer. -/
theorem Word.encode_eq (buffer : Vector UInt8 10) (v : Int64) :
    ∃ u t, zigzag v = .ok u ∧ u.toNat = Varint.zigzag v ∧
      Filling.EndsAfter (Varint.encode v).length ⟨buffer, 0, u⟩ t ∧
      encode buffer v = .ok (Varint.encode v) := by
  obtain ⟨u, hzigzag, hu⟩ := exists_zigzag v
  have hlength := length_encode_le v
  rw [Varint.encode, ← hu] at hlength ⊢
  obtain ⟨t, marked, last, hends, hcount, hgroups, hlast, hfilled⟩ :=
    Filling.exists_endsAfter (f := ⟨buffer, 0, u⟩) (by rwa [Nat.zero_add])
  refine ⟨u, t, hzigzag, rfl, hends, ?_⟩
  have hclose := Filling.close_of_filled hcount hfilled
  rw [unmark hlast] at hclose
  rw [encode, hzigzag]
  show (do let f ← Filling.run ⟨buffer, 0, u⟩; f.close) = _
  rw [hends.run_eq, hgroups]
  exact hclose

/-- The bytes of an integer are formed in a buffer of ten bytes without an access outside it, in
as many passes as the least number of groups that can hold its zig-zag number; there are ten of
them from the magnitude 2 ^ 62 on. All bytes but the last are marked, the last is zero only if
it is the first, and the groups hold the zig-zag number. -/
theorem buffer_law (v : Int64) : ∃ k,
    IsLeast {n | 1 ≤ n ∧ zigzag v < 128 ^ n} k ∧ k ≤ 10 ∧
    (k = 10 ↔ 2 ^ 62 ≤ v.toInt.natAbs) ∧
    (∀ buffer, ∃ u, Word.zigzag v = .ok u ∧ u.toNat = zigzag v ∧
      (∀ j, (∃ t, Word.Filling.EndsAfter j ⟨buffer, 0, u⟩ t) ↔ j = k) ∧
      Word.encode buffer v = .ok (encode v)) ∧
    (∃ marked last, encode v = marked ++ [last] ∧ marked.length + 1 = k ∧
      (∀ b ∈ marked, 128 ≤ b.toNat) ∧ last.toNat < 128 ∧ (last = 0 → k = 1)) ∧
    ∑ i : Fin (encode v).length, (encode v)[i].toNat % 128 * 128 ^ i.val = zigzag v := by
  refine ⟨(encode v).length, isLeast_length_groups _, length_encode_le v,
    length_encode_eq_ten_iff v, fun buffer => ?_, ?_, ?_⟩
  · obtain ⟨u, t, hzigzag, hu, hends, hencode⟩ := Word.encode_eq buffer v
    refine ⟨u, hzigzag, hu, fun j => ⟨?_, ?_⟩, hencode⟩
    · rintro ⟨t', hends'⟩
      exact hends'.unique hends
    · rintro rfl
      exact ⟨t, hends⟩
  · obtain ⟨marked, last, hgroups, hmarked, hlast, hzero⟩ := exists_groups_eq (zigzag v)
    have hlength : (encode v).length = marked.length + 1 := by
      rw [encode, hgroups, List.length_append, List.length_singleton]
    refine ⟨marked, last, hgroups, hlength.symm, hmarked, hlast, ?_⟩
    rintro rfl
    rw [hlength, (hzero rfl).1]
    rfl
  · rw [← numberOf_eq_sum, encode, numberOf_groups]

example : Word.encode (.replicate 10 0xff) 64 = .ok [0x80, 0x01] := by cbv

end CuttingPlanes.Varint
