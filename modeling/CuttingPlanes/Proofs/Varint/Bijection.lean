import CuttingPlanes.Proofs.Varint.Scanning
import CuttingPlanes.Varint.Decoder

/-!
# Decoding and encoding are inverse

A decoder takes the integers from the front of its bytes one after the other, so it
accepts exactly the bytes that encoding produces (`decode_eq_ok_iff`). Groups that are
not the bytes of an integer are refused wherever they stand: those that are too long,
the negative zero, and those of a number of more than 64 bits (`decode_bijective`).
-/

namespace CuttingPlanes.Varint

namespace Decoder

/-- The bytes not yet taken. -/
def rest (d : Decoder) : List UInt8 := d.data.toList.drop d.position

theorem rest_ofBytes (bytes : List UInt8) : (ofBytes bytes).rest = bytes := by
  simp [ofBytes, rest]

variable {d d' : Decoder} {v : Int64} {vs : List Int64}

theorem rest_eq_nil_iff : d.rest = [] ↔ d.data.size ≤ d.position := by
  rw [rest, List.drop_eq_nil_iff, Array.length_toList]

theorem rest_of_getElem?_none (h : d.data[d.position]? = none) : d.rest = [] :=
  rest_eq_nil_iff.mpr (Array.getElem?_eq_none_iff.mp h)

theorem rest_of_getElem?_some {b : UInt8} (h : d.data[d.position]? = some b) :
    d.rest = b :: rest { d with position := d.position + 1 } := by
  obtain ⟨hlt, hb⟩ := Array.getElem?_eq_some_iff.mp h
  have hlt' : d.position < d.data.toList.length := by rwa [Array.length_toList]
  rw [rest, List.drop_eq_getElem_cons hlt', Array.getElem_toList, hb]
  rfl

/-- Taking an integer is scanning the bytes not yet taken. -/
theorem takeFrom_eq_scan (start : Nat) (taken : Taken) (d : Decoder) :
    ∃ d', d'.rest = (scan taken d.rest).2 ∧ takeFrom start taken d =
      match (scan taken d.rest).1 with
      | .ok v => .ok v d'
      | .error defect => .error ⟨defect, start⟩ d' := by
  fun_induction takeFrom start taken d with
  | case1 taken d hnone =>
    have hrest := rest_of_getElem?_none hnone
    exact ⟨d, by rw [hrest]; rfl, by rw [hrest]; rfl⟩
  | case2 taken d b hb taken' hpush ih =>
    rw [rest_of_getElem?_some hb, scan, hpush]
    exact ih
  | case3 taken d b hb v hpush =>
    rw [rest_of_getElem?_some hb, scan, hpush]
    exact ⟨_, rfl, rfl⟩
  | case4 taken d b hb defect hpush =>
    rw [rest_of_getElem?_some hb, scan, hpush]
    exact ⟨_, rfl, rfl⟩

theorem next_eq_none (h : d.rest = []) : next d = .ok none d := by
  rw [next, if_pos (rest_eq_nil_iff.mp h)]

theorem exists_next_eq_scan (h : d.rest ≠ []) :
    ∃ d', d'.rest = (scan .nothing d.rest).2 ∧ next d =
      match (scan .nothing d.rest).1 with
      | .ok v => .ok (some v) d'
      | .error defect => .error ⟨defect, d.position⟩ d' := by
  obtain ⟨d', hrest, htake⟩ := takeFrom_eq_scan d.position .nothing d
  refine ⟨d', hrest, ?_⟩
  rw [next, if_neg (fun hle => h (rest_eq_nil_iff.mpr hle)), htake]
  cases (scan .nothing d.rest).1 <;> rfl

theorem rest_of_next_none (h : next d = .ok none d') : d.rest = [] := by
  by_contra hne
  obtain ⟨d'', -, hnext⟩ := exists_next_eq_scan hne
  rw [h] at hnext
  split at hnext <;> cases hnext

theorem rest_of_next_some (h : next d = .ok (some v) d') : d.rest = encode v ++ d'.rest := by
  have hne : d.rest ≠ [] := by
    intro hnil
    rw [next_eq_none hnil] at h
    cases h
  obtain ⟨d'', hrest, hnext⟩ := exists_next_eq_scan hne
  rw [h] at hnext
  split at hnext
  · rename_i w hscan
    cases hnext
    rw [hrest]
    exact scan_eq_ok_iff.mp (Prod.ext hscan rfl)
  · cases hnext

theorem exists_next_of_rest {rest : List UInt8} (h : d.rest = encode v ++ rest) :
    ∃ d', next d = .ok (some v) d' ∧ d'.rest = rest := by
  have hscan := scan_eq_ok_iff.mpr h
  have hne : d.rest ≠ [] := by
    rw [h, encode]
    simp [groups_ne_nil]
  obtain ⟨d', hrest, hnext⟩ := exists_next_eq_scan hne
  rw [hscan] at hrest hnext
  exact ⟨d', hnext, hrest⟩

theorem collect_eq_ok_iff {found : Array Int64} :
    d.collect found = .ok vs ↔ ∃ ws, d.rest = encodeAll ws ∧ vs = found.toList ++ ws := by
  fun_induction collect found d generalizing vs with
  | case1 found d d' hnext =>
    rw [rest_of_next_none hnext]
    constructor
    · intro h
      cases h
      exact ⟨[], rfl, by simp⟩
    · rintro ⟨ws, hws, rfl⟩
      obtain rfl := encodeAll_eq_nil_iff.mp hws.symm
      rw [List.append_nil]
  | case2 found d v d' hnext ih =>
    rw [ih, rest_of_next_some hnext]
    constructor
    · rintro ⟨ws, hws, rfl⟩
      exact ⟨v :: ws, by rw [hws, encodeAll_cons], by simp⟩
    · rintro ⟨ws, hws, rfl⟩
      obtain ⟨ws, rfl, hrest⟩ := exists_of_encode_append_eq hws
      exact ⟨ws, hrest, by simp⟩
  | case3 found d e d' hnext =>
    constructor
    · intro h
      cases h
    · rintro ⟨ws, hws, -⟩
      cases ws with
      | nil =>
        rw [next_eq_none hws] at hnext
        cases hnext
      | cons w ws =>
        obtain ⟨d'', hsome, -⟩ := exists_next_of_rest hws
        rw [hsome] at hnext
        cases hnext

end Decoder

variable {bytes rest : List UInt8} {vs : List Int64}

/-- Decoding accepts the bytes that encoding produces, and no others. -/
theorem decode_eq_ok_iff : decode bytes = .ok vs ↔ bytes = encodeAll vs := by
  rw [decode, Decoder.collect_eq_ok_iff, Decoder.rest_ofBytes]
  constructor
  · rintro ⟨ws, rfl, rfl⟩
    rfl
  · rintro rfl
    exact ⟨vs, rfl, rfl⟩

/-! ## What is refused -/

/-- The number that groups hold, the least significant first. -/
def numberOf : List UInt8 → Nat
  | [] => 0
  | b :: bytes => b.toNat % 128 + 128 * numberOf bytes

theorem numberOf_groups (u : Nat) : numberOf (groups u) = u := by
  induction u using Nat.strongRecOn with
  | ind u ih =>
    by_cases hu : u < 128
    · rw [groups_of_lt hu, numberOf, numberOf, toNat_last hu]
      omega
    · rw [groups_of_le (Nat.le_of_not_lt hu), numberOf, toNat_marked, ih (u / 128) (by omega)]
      omega

/-- All groups but the last are marked, and the last is zero only if it is the first. -/
theorem exists_groups_eq (u : Nat) :
    ∃ marked last, groups u = marked ++ [last] ∧ (∀ b ∈ marked, 128 ≤ b.toNat) ∧
      last.toNat < 128 ∧ (last.toNat = 0 → marked = [] ∧ u = 0) := by
  induction u using Nat.strongRecOn with
  | ind u ih =>
    by_cases hu : u < 128
    · refine ⟨[], UInt8.ofNat u, groups_of_lt hu, by simp, ?_, ?_⟩
      · rwa [toNat_last hu]
      · rw [toNat_last hu]
        exact fun h => ⟨rfl, h⟩
    · obtain ⟨marked, last, hgroups, hmarked, hlast, hzero⟩ := ih (u / 128) (by omega)
      refine ⟨UInt8.ofNat (u % 128 + 128) :: marked, last, ?_, ?_, hlast, ?_⟩
      · rw [groups_of_le (Nat.le_of_not_lt hu), hgroups, List.cons_append]
      · intro b hb
        rcases List.mem_cons.mp hb with rfl | hb
        · rw [toNat_marked]
          omega
        · exact hmarked b hb
      · intro h
        have := (hzero h).2
        omega

/-- Where the groups of an integer end does not depend on what follows. -/
theorem groups_append_inj {marked marked' after after' : List UInt8} {last last' : UInt8}
    (hmarked : ∀ b ∈ marked, 128 ≤ b.toNat) (hlast : last.toNat < 128)
    (hmarked' : ∀ b ∈ marked', 128 ≤ b.toNat) (hlast' : last'.toNat < 128)
    (h : marked ++ last :: after = marked' ++ last' :: after') :
    marked = marked' ∧ last = last' := by
  induction marked generalizing marked' with
  | nil =>
    cases marked' with
    | nil =>
      cases h
      exact ⟨rfl, rfl⟩
    | cons b marked' =>
      cases h
      have := hmarked' last List.mem_cons_self
      omega
  | cons b marked ih =>
    cases marked' with
    | nil =>
      cases h
      have := hmarked last' List.mem_cons_self
      omega
    | cons b' marked' =>
      rw [List.cons_append, List.cons_append, List.cons.injEq] at h
      obtain ⟨rfl, h⟩ := h
      obtain ⟨rfl, rfl⟩ := ih (fun b hb => hmarked b (List.mem_cons_of_mem _ hb))
        (fun b hb => hmarked' b (List.mem_cons_of_mem _ hb)) h
      exact ⟨rfl, rfl⟩

/-- Groups that are accepted somewhere are the bytes of an integer. -/
theorem exists_encode_of_decode {before : List Int64} {marked after : List UInt8} {last : UInt8}
    (hmarked : ∀ b ∈ marked, 128 ≤ b.toNat) (hlast : last.toNat < 128)
    (h : decode (encodeAll before ++ (marked ++ last :: after)) = .ok vs) :
    ∃ v, encode v = marked ++ [last] := by
  obtain ⟨ws, -, hws⟩ := exists_of_encodeAll_append_eq (decode_eq_ok_iff.mp h)
  cases ws with
  | nil => simp at hws
  | cons w ws =>
    obtain ⟨marked', last', hgroups, hmarked', hlast', -⟩ := exists_groups_eq (zigzag w)
    rw [encodeAll_cons, encode, hgroups, List.append_assoc, List.singleton_append] at hws
    obtain ⟨rfl, rfl⟩ := groups_append_inj hmarked hlast hmarked' hlast' hws
    exact ⟨w, hgroups⟩

/-- Decoding and encoding are inverse to each other, so exactly one byte string is decoded
to given integers. Groups are refused, behind whatever integers they stand, when the last
of several is zero, when they hold the negative zero, and when they hold a number that is
not the zig-zag number of 64 bits. -/
theorem decode_bijective :
    (∀ vs, decode (encodeAll vs) = .ok vs) ∧
    (∀ bytes vs, decode bytes = .ok vs → encodeAll vs = bytes) ∧
    (∀ vs, ∃! bytes, decode bytes = .ok vs) ∧
    ∀ (before : List Int64) (marked : List UInt8) (last : UInt8) (after : List UInt8),
      (∀ b ∈ marked, 128 ≤ b.toNat) → last.toNat < 128 →
      (last = 0 ∧ marked ≠ []) ∨ numberOf (marked ++ [last]) = 1 ∨
        (∀ v, zigzag v ≠ numberOf (marked ++ [last])) →
      ∀ vs, decode (encodeAll before ++ (marked ++ last :: after)) ≠ .ok vs := by
  refine ⟨fun vs => decode_eq_ok_iff.mpr rfl, fun bytes vs h => (decode_eq_ok_iff.mp h).symm,
    fun vs => ⟨encodeAll vs, decode_eq_ok_iff.mpr rfl, fun bytes h => decode_eq_ok_iff.mp h⟩, ?_⟩
  intro before marked last after hmarked hlast hbad vs hdecode
  obtain ⟨v, hv⟩ := exists_encode_of_decode hmarked hlast hdecode
  have hnumber : numberOf (marked ++ [last]) = zigzag v := by
    rw [← hv, encode, numberOf_groups]
  rcases hbad with ⟨hzero, hne⟩ | hone | hall
  · obtain ⟨marked', last', hgroups, -, -, hzero'⟩ := exists_groups_eq (zigzag v)
    rw [encode, hgroups] at hv
    obtain ⟨rfl, hlast'⟩ := List.append_inj' hv rfl
    obtain rfl := List.singleton_inj.mp hlast'
    exact hne (hzero' (by rw [hzero]; rfl)).1
  · exact zigzag_ne_one v (hnumber.symm.trans hone)
  · exact hall v hnumber.symm

/-- The least number of 64 bits takes ten bytes, and one is not written with two groups. -/
theorem decode_bijective_least :
    decode (encodeAll [Int64.minValue, 0]) = .ok [Int64.minValue, 0] ∧
    (encode Int64.minValue).length = 10 ∧
    ∀ vs, decode (encodeAll [-64] ++ ([0x82] ++ 0 :: [5])) ≠ .ok vs := by
  have hmarked : ∀ b ∈ [(0x82 : UInt8)], 128 ≤ b.toNat := by simp
  exact ⟨decode_bijective.1 _, by decide +kernel,
    decode_bijective.2.2.2 [-64] [0x82] 0 [5] hmarked (by decide) (Or.inl ⟨rfl, by simp⟩)⟩

end CuttingPlanes.Varint
