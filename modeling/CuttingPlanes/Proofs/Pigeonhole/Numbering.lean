import CuttingPlanes.Proofs.Pigeonhole.Constraints
import CuttingPlanes.Proofs.Varint.Words
import Mathlib.Data.Set.Function

/-!
# The numbers of the variables of an instance

A machine forms the number of a variable in words of 32 bits, with pigeons and holes counted
from one. The number of the last place is the product of holes and pigeons, and that this is a
word is all that is checked; so no step on the way overflows, and no number is zero
(`Word.var_eq`). The numbers of the table go through all numbers up to the product
(`bijOn_var`). Hence every variable up to there stands in one row and in one column, and in one
constraint of the pigeons and in one of the holes (`countP_row`, `countP_column`,
`Lines.countP_vars`).
-/

namespace CuttingPlanes.Pigeonhole

/-! ## Numbers in words -/

namespace Word

/-- Why no variable is formed: a step whose result its word cannot hold, or the number zero. -/
inductive Trap
  | difference
  | overflow (step : Varint.Word.Overflow)
  | zero
deriving DecidableEq, Repr

/-- The numbers of an instance are not zero, and their product is a word. -/
def supports (holes pigeons : BitVec 32) : Bool :=
  holes != 0 && pigeons != 0 && (Varint.Word.mul holes pigeons).isOk

/-- The number of pigeons that come before a pigeon. -/
def before (pigeon : BitVec 32) : Except Trap (BitVec 32) :=
  if pigeon.usubOverflow 1 then .error .difference else .ok (pigeon - 1)

def ofNumber (number : BitVec 32) : Except Trap Variable :=
  if h : 0 < number.toNat then .ok ⟨number.toNat, h, number.isLt⟩ else .error .zero

/-- The variable of a pigeon in a hole, both counted from one. -/
def var (holes hole pigeon : BitVec 32) : Except Trap Variable := do
  let others ← before pigeon
  let start ← (Varint.Word.mul others holes).mapError .overflow
  let number ← (Varint.Word.add start hole).mapError .overflow
  ofNumber number

theorem supports_iff {holes pigeons : BitVec 32} : supports holes pigeons = true ↔
    0 < holes.toNat ∧ 0 < pigeons.toNat ∧ holes.toNat * pigeons.toNat < 0x100000000 := by
  have hpos (a : BitVec 32) : (a != 0) = true ↔ 0 < a.toNat := by
    rw [bne_iff_ne, ne_eq, ← BitVec.toNat_inj]
    exact Nat.pos_iff_ne_zero.symm
  have hproduct : (Varint.Word.mul holes pigeons).isOk = true ↔
      holes.toNat * pigeons.toNat < 0x100000000 := by
    by_cases hlt : holes.toNat * pigeons.toNat < 0x100000000
    · obtain ⟨product, hmul, -⟩ := Varint.Word.mul_of_lt hlt
      rw [hmul]
      exact iff_of_true rfl hlt
    · have hoverflow : holes.umulOverflow pigeons = true := decide_eq_true (Nat.le_of_not_lt hlt)
      rw [Varint.Word.mul, if_pos hoverflow]
      exact iff_of_false Bool.false_ne_true hlt
  rw [supports, Bool.and_eq_true, Bool.and_eq_true, hpos, hpos, hproduct, and_assoc]

theorem exists_ofNumbers? {holes pigeons : BitVec 32} (h : supports holes pigeons = true) :
    ∃ p, ofNumbers? holes.toNat pigeons.toNat = some p ∧ p.holes = holes.toNat ∧
      p.pigeons = pigeons.toNat :=
  ⟨_, dif_pos (supports_iff.mp h), rfl, rfl⟩

theorem exists_before {pigeon : BitVec 32} (h : 0 < pigeon.toNat) :
    ∃ others, before pigeon = .ok others ∧ others.toNat = pigeon.toNat - 1 := by
  have hone : (1 : BitVec 32).toNat = 1 := rfl
  have hfits : ¬pigeon.usubOverflow 1 = true := by
    rw [BitVec.usubOverflow, decide_eq_true_iff, hone]
    omega
  exact ⟨pigeon - 1, if_neg hfits, BitVec.toNat_sub_of_not_usubOverflow hfits⟩

theorem toNat_ofNat {n : Nat} (h : n < 0x100000000) : (BitVec.ofNat 32 n).toNat = n :=
  Nat.mod_eq_of_lt h

/-- The variables of an instance are formed without overflow. -/
theorem var_eq {p : Pigeonhole} {holes : BitVec 32} (hholes : holes.toNat = p.holes)
    (i : Fin p.holes) (j : Fin p.pigeons) :
    var holes (.ofNat 32 (i + 1)) (.ofNat 32 (j + 1)) = .ok (p.var i j) := by
  have hlast : j * p.holes + i + 1 < 0x100000000 :=
    Nat.lt_of_le_of_lt (number_le i.isLt j.isLt) p.lt
  have hhole : (BitVec.ofNat 32 (i + 1)).toNat = i + 1 := toNat_ofNat (by omega)
  have hpigeon : (BitVec.ofNat 32 (j + 1)).toNat = j + 1 :=
    toNat_ofNat (Nat.lt_of_le_of_lt j.isLt p.pigeons_lt)
  have hpos : 0 < (BitVec.ofNat 32 (j + 1)).toNat := by omega
  obtain ⟨others, hbefore, hothers⟩ := exists_before hpos
  rw [hpigeon, Nat.add_sub_cancel] at hothers
  obtain ⟨start, hmul, hstart⟩ := Varint.Word.mul_of_lt (a := others) (b := holes)
    (by rw [hothers, hholes]; omega)
  rw [hothers, hholes] at hstart
  obtain ⟨number, hadd, hnumber⟩ := Varint.Word.add_of_lt (a := start) (b := .ofNat 32 (i + 1))
    (by rw [hstart, hhole]; omega)
  rw [hstart, hhole] at hnumber
  have hne : 0 < number.toNat := by omega
  have hvar : p.var i j = ⟨number.toNat, hne, number.isLt⟩ := Variable.ext hnumber.symm
  simp only [var, hbefore, hmul, hadd, Except.mapError, Actions.ok_bind]
  rw [ofNumber, dif_pos hne, hvar]

end Word

/-! ## All numbers -/

variable (p : Pigeonhole) {v : Variable}

theorem number_var_le (i : Fin p.holes) (j : Fin p.pigeons) :
    (p.var i j).number ≤ p.holes * p.pigeons :=
  number_le i.isLt j.isLt

/-- Quotient and remainder give the place of a variable. -/
theorem exists_var_eq (h : v.number ≤ p.holes * p.pigeons) : ∃ i j, p.var i j = v := by
  have hpos := v.pos
  have hpigeon : (v.number - 1) / p.holes < p.pigeons := by
    apply Nat.div_lt_of_lt_mul
    omega
  refine ⟨⟨(v.number - 1) % p.holes, Nat.mod_lt _ p.holes_pos⟩,
    ⟨(v.number - 1) / p.holes, hpigeon⟩, Variable.ext ?_⟩
  have hsplit := Nat.div_add_mod' (v.number - 1) p.holes
  simp only [var]
  omega

/-- The places of the table go through all variables up to the product. -/
theorem bijOn_var : Set.BijOn (fun place : Fin p.holes × Fin p.pigeons => p.var place.1 place.2)
    Set.univ {v | v.number ≤ p.holes * p.pigeons} := by
  refine ⟨fun place _ => p.number_var_le place.1 place.2, ?_, ?_⟩
  · rintro ⟨i, j⟩ - ⟨i', j'⟩ - h
    obtain ⟨rfl, rfl⟩ := p.var_inj h
    rfl
  · intro v hv
    obtain ⟨i, j, rfl⟩ := p.exists_var_eq hv
    exact ⟨(i, j), trivial, rfl⟩

/-! ## Rows and columns -/

theorem mem_row_iff {i : Fin p.holes} {j j' : Fin p.pigeons} : p.var i j ∈ p.row j' ↔ j' = j := by
  rw [row, List.mem_map]
  constructor
  · rintro ⟨i', -, h⟩
    exact (p.var_inj h).2
  · rintro rfl
    exact ⟨i, List.mem_finRange i, rfl⟩

theorem mem_column_iff {i i' : Fin p.holes} {j : Fin p.pigeons} :
    p.var i j ∈ p.column i' ↔ i' = i := by
  rw [column, List.mem_map]
  constructor
  · rintro ⟨j', -, h⟩
    exact (p.var_inj h).1
  · rintro rfl
    exact ⟨j, List.mem_finRange j, rfl⟩

theorem countP_eq_one {n : Nat} {q : Fin n → Prop} [DecidablePred q] {x : Fin n}
    (h : ∀ y, q y ↔ y = x) : (List.finRange n).countP (q ·) = 1 := by
  have hcount := List.count_eq_one_of_mem (List.nodup_finRange n) (List.mem_finRange x)
  rw [← hcount, List.count]
  apply List.countP_congr
  intro y _
  rw [decide_eq_true_iff, beq_iff_eq, h]

/-- How often a variable should stand in all rows, and in all columns. -/
def occurrences (v : Variable) : Nat := if v.number ≤ p.holes * p.pigeons then 1 else 0

/-- Lines that have each variable of the table once have each variable as often as they should. -/
theorem countP_line {n : Nat} {line : Fin n → List Variable}
    (hvar : ∀ i j, ∃ x, ∀ y, p.var i j ∈ line y ↔ y = x)
    (hmem : ∀ x, ∀ v ∈ line x, ∃ i j, p.var i j = v) (v : Variable) :
    (List.finRange n).countP (v ∈ line ·) = p.occurrences v := by
  unfold occurrences
  split
  · rename_i hle
    obtain ⟨i, j, rfl⟩ := p.exists_var_eq hle
    obtain ⟨x, hx⟩ := hvar i j
    exact countP_eq_one hx
  · rename_i hgt
    rw [List.countP_eq_zero]
    intro x _ hv
    obtain ⟨i, j, rfl⟩ := hmem x v (of_decide_eq_true hv)
    exact hgt (p.number_var_le i j)

theorem countP_row (v : Variable) :
    (List.finRange p.pigeons).countP (v ∈ p.row ·) = p.occurrences v := by
  refine p.countP_line (fun i j => ⟨j, fun _ => p.mem_row_iff⟩) (fun j v hv => ?_) v
  obtain ⟨i, -, hi⟩ := List.mem_map.mp hv
  exact ⟨i, j, hi⟩

theorem countP_column (v : Variable) :
    (List.finRange p.holes).countP (v ∈ p.column ·) = p.occurrences v := by
  refine p.countP_line (fun i j => ⟨i, fun _ => p.mem_column_iff⟩) (fun i v hv => ?_) v
  obtain ⟨j, -, hj⟩ := List.mem_map.mp hv
  exact ⟨i, j, hj⟩

variable {ι : Type} {xs : List ι} {line : ι → List Variable} {cs : List Constraint} {c : Constraint}
  {k : Int64} {vars : List Variable}

theorem IsLine.vars_perm (h : IsLine k vars c) : c.form.vars.Perm vars := by
  have hperm := h.perm.map Term.var
  rwa [List.map_map, show Term.var ∘ (⟨k, ·⟩) = id from rfl, List.map_id] at hperm

theorem Lines.countP_vars (h : Lines k line xs cs) (v : Variable) :
    cs.countP (v ∈ ·.form.vars) = xs.countP (v ∈ line ·) := by
  induction h with
  | nil => rfl
  | cons hline _ ih => simp only [List.countP_cons, ih, hline.vars_perm.mem_iff]

end CuttingPlanes.Pigeonhole
