import CuttingPlanes.Proofs.Varint.Bijection

/-!
# What is wrong with bytes that are not decoded

Bytes that are not the bytes of integers consist of the bytes of some integers and of a
rest that starts with none (`FailsBehind`). The first ten bytes of the rest tell what is
wrong with it (`Shows`): they are all marked, or the first one that is not marked ends the
groups of a number that is no integer in its shortest form. Decoding fails for exactly such
bytes, at the place where the rest starts (`decode_failure_law`).
-/

namespace CuttingPlanes.Varint

/-- The bytes are those of the integers and a rest that does not start with another one. -/
structure FailsBehind (bytes : List UInt8) (vs : List Int64) (rest : List UInt8) : Prop where
  bytes_eq : bytes = encodeAll vs ++ rest
  rest_ne_nil : rest ≠ []
  no_integer : ∀ v after, rest ≠ encode v ++ after

/-- Every byte announces another group. -/
def Marked (bytes : List UInt8) : Prop := ∀ b ∈ bytes, 128 ≤ b.toNat

/-- The first byte that is not marked is the last of at most ten groups. -/
structure EndsGroups (bytes marked : List UInt8) (last : UInt8) : Prop where
  bytes_eq : ∃ after, bytes = marked ++ last :: after
  all_marked : Marked marked
  last_lt : last.toNat < 128
  length_lt : marked.length < 10

/-- The groups are not the shortest ones of their number, or they hold the negative zero. -/
def IsNonCanonical (marked : List UInt8) (last : UInt8) : Prop :=
  last = 0 ∧ marked ≠ [] ∨ numberOf (marked ++ [last]) = 1

/-- What is wrong with bytes that do not start with an integer. -/
structure Shows (bytes : List UInt8) (defect : Defect) : Prop where
  truncated_iff : defect = .truncated ↔ bytes.length ≤ 10 ∧ Marked bytes
  of_overlong : 10 < bytes.length → Marked (bytes.take 10) → defect = .overflow
  nonCanonical_iff : ∀ marked last, EndsGroups bytes marked last →
    (defect = .nonCanonical ↔ IsNonCanonical marked last)
  overflow_iff : ∀ marked last, EndsGroups bytes marked last →
    (defect = .overflow ↔
      ¬IsNonCanonical marked last ∧ ∀ v, zigzag v ≠ numberOf (marked ++ [last]))

variable {bytes marked rest : List UInt8} {last : UInt8} {defect : Defect}

/-! ## The groups in front of the last one -/

theorem exists_marked_or (bytes : List UInt8) : Marked bytes ∨
    ∃ marked last after, bytes = marked ++ last :: after ∧ Marked marked ∧ last.toNat < 128 := by
  induction bytes with
  | nil => exact Or.inl nofun
  | cons b bytes ih =>
    by_cases hb : b.toNat < 128
    · exact Or.inr ⟨[], b, bytes, rfl, nofun, hb⟩
    · have hmarked : 128 ≤ b.toNat := Nat.le_of_not_lt hb
      rcases ih with h | ⟨marked, last, after, rfl, h, hlast⟩
      · exact Or.inl (List.forall_mem_cons.mpr ⟨hmarked, h⟩)
      · exact Or.inr ⟨b :: marked, last, after, rfl, List.forall_mem_cons.mpr ⟨hmarked, h⟩, hlast⟩

/-- Ten bytes decide whether the groups of a number end. -/
theorem shape_cases (bytes : List UInt8) : (bytes.length ≤ 10 ∧ Marked bytes) ∨
    (10 < bytes.length ∧ Marked (bytes.take 10)) ∨
    ∃ marked last, EndsGroups bytes marked last := by
  rcases exists_marked_or bytes with hall | ⟨marked, last, after, rfl, hmarked, hlast⟩
  · rcases Nat.lt_or_ge 10 bytes.length with hlong | hshort
    · exact Or.inr (Or.inl ⟨hlong, fun b hb => hall b (List.mem_of_mem_take hb)⟩)
    · exact Or.inl ⟨hshort, hall⟩
  · rcases Nat.lt_or_ge marked.length 10 with hshort | hlong
    · exact Or.inr (Or.inr ⟨marked, last, ⟨after, rfl⟩, hmarked, hlast, hshort⟩)
    · refine Or.inr (Or.inl ⟨?_, fun b hb => hmarked b ?_⟩)
      · rw [List.length_append, List.length_cons]
        omega
      · rw [List.take_append_of_le_length hlong] at hb
        exact List.mem_of_mem_take hb

theorem EndsGroups.last_mem_take (h : EndsGroups bytes marked last) : last ∈ bytes.take 10 := by
  obtain ⟨after, rfl⟩ := h.bytes_eq
  obtain ⟨n, hn⟩ : ∃ n, 10 - marked.length = n + 1 :=
    Nat.exists_eq_succ_of_ne_zero (Nat.sub_ne_zero_of_lt h.length_lt)
  rw [List.take_append, hn, List.take_succ_cons]
  exact List.mem_append_right _ List.mem_cons_self

/-- Groups do not end among ten marked bytes. -/
theorem EndsGroups.not_marked (h : EndsGroups bytes marked last) : ¬Marked (bytes.take 10) := by
  intro hall
  have hlast := hall last h.last_mem_take
  have hlt := h.last_lt
  omega

theorem EndsGroups.unique {marked' : List UInt8} {last' : UInt8}
    (h : EndsGroups bytes marked last) (h' : EndsGroups bytes marked' last') :
    marked = marked' ∧ last = last' := by
  obtain ⟨after, rfl⟩ := h.bytes_eq
  obtain ⟨after', heq⟩ := h'.bytes_eq
  exact groups_append_inj h.all_marked h.last_lt h'.all_marked h'.last_lt heq

/-! ## Scanning the groups -/

theorem numberOf_append_singleton (marked : List UInt8) (hlast : last.toNat < 128) :
    numberOf (marked ++ [last]) = numberOf marked + last.toNat * 128 ^ marked.length := by
  induction marked with
  | nil => simp [numberOf, Nat.mod_eq_of_lt hlast]
  | cons b marked ih =>
    rw [List.cons_append, numberOf, ih, numberOf, List.length_cons, Nat.pow_succ]
    ring

theorem scan_marked (hmarked : Marked marked) {taken : Taken}
    (hcount : taken.count + marked.length ≤ 10) (rest : List UInt8) :
    scan taken (marked ++ rest) =
      scan ⟨taken.count + marked.length, taken.value + numberOf marked * 128 ^ taken.count⟩
        rest := by
  induction marked generalizing taken with
  | nil => simp [numberOf]
  | cons b marked ih =>
    obtain ⟨hb, hmarked⟩ := List.forall_mem_cons.mp hmarked
    rw [List.length_cons] at hcount
    have hroom : ¬10 ≤ taken.count := by omega
    have hpush : taken.push b =
        .more ⟨taken.count + 1, taken.value + b.toNat % 128 * 128 ^ taken.count⟩ := by
      simp only [Taken.push, hroom, if_false, hb, if_true]
      rfl
    rw [List.cons_append, scan, hpush]
    simp only
    rw [ih hmarked (by simp only; omega)]
    congr 2
    · rw [List.length_cons, Nat.add_right_comm, Nat.add_assoc]
    · rw [numberOf, Nat.pow_succ]
      ring

theorem scan_nothing_marked (hmarked : Marked marked) (hlength : marked.length ≤ 10)
    (rest : List UInt8) :
    scan .nothing (marked ++ rest) = scan ⟨marked.length, numberOf marked⟩ rest := by
  have h := scan_marked hmarked (show Taken.nothing.count + marked.length ≤ 10 by
    simpa [Taken.nothing] using hlength) rest
  simpa [Taken.nothing] using h

theorem scan_truncated (hlength : bytes.length ≤ 10) (hmarked : Marked bytes) :
    (scan .nothing bytes).1 = .error .truncated := by
  have h := scan_nothing_marked hmarked hlength []
  rw [List.append_nil] at h
  rw [h]
  rfl

theorem scan_overlong (hlength : 10 < bytes.length) (hmarked : Marked (bytes.take 10)) :
    (scan .nothing bytes).1 = .error .overflow := by
  have htake : (bytes.take 10).length = 10 := List.length_take_of_le (Nat.le_of_lt hlength)
  have h := scan_nothing_marked hmarked (Nat.le_of_eq htake) (bytes.drop 10)
  rw [List.take_append_drop, List.drop_eq_getElem_cons hlength, htake, scan] at h
  rw [h]
  simp [Taken.push]

theorem unzigzag?_eq_none_iff {u : Nat} : unzigzag? u = none ↔ ∀ v, zigzag v ≠ u := by
  simp only [Option.eq_none_iff_forall_ne_some, ne_eq, unzigzag?_eq_some_iff]

/-- With the last group an integer is found, or what is wrong with the groups. -/
theorem EndsGroups.scan_cases (h : EndsGroups bytes marked last) :
    (IsNonCanonical marked last ∧ (scan .nothing bytes).1 = .error .nonCanonical) ∨
    (¬IsNonCanonical marked last ∧
      ((∃ v, zigzag v = numberOf (marked ++ [last]) ∧ (scan .nothing bytes).1 = .ok v) ∨
      ((∀ v, zigzag v ≠ numberOf (marked ++ [last])) ∧
        (scan .nothing bytes).1 = .error .overflow))) := by
  obtain ⟨after, rfl⟩ := h.bytes_eq
  have hroom : ¬10 ≤ marked.length := Nat.not_le.mpr h.length_lt
  have hlast : ¬128 ≤ last.toNat := Nat.not_le.mpr h.last_lt
  have hpos : 0 < marked.length ↔ marked ≠ [] := List.length_pos_iff
  have hscan : (scan .nothing (marked ++ last :: after)).1 =
      (scan ⟨marked.length, numberOf marked⟩ (last :: after)).1 := by
    rw [scan_nothing_marked h.all_marked (Nat.le_of_lt h.length_lt)]
  have hnumber : numberOf marked + last.toNat % 128 * Nat.pow 128 marked.length =
      numberOf (marked ++ [last]) := by
    rw [numberOf_append_singleton marked h.last_lt, Nat.mod_eq_of_lt h.last_lt]
    rfl
  unfold IsNonCanonical
  rw [hscan, scan]
  simp only [Taken.push, hroom, if_false, hnumber, hlast, hpos]
  by_cases hcanonical : last = 0 ∧ marked ≠ [] ∨ numberOf (marked ++ [last]) = 1
  · refine Or.inl ⟨hcanonical, ?_⟩
    rw [if_pos hcanonical]
  · refine Or.inr ⟨hcanonical, ?_⟩
    rw [if_neg hcanonical]
    cases hvalue : unzigzag? (numberOf (marked ++ [last])) with
    | none => exact Or.inr ⟨unzigzag?_eq_none_iff.mp hvalue, rfl⟩
    | some v => exact Or.inl ⟨v, unzigzag?_eq_some_iff.mp hvalue, rfl⟩

/-! ## What scanning finds wrong -/

theorem shows_of_scan (h : (scan .nothing bytes).1 = .error defect) : Shows bytes defect := by
  rcases shape_cases bytes with ⟨hlength, hall⟩ | ⟨hlength, hmarked⟩ | ⟨marked, last, hends⟩
  · rw [scan_truncated hlength hall] at h
    obtain rfl := Except.error.inj h
    have hnot (marked last) (hends : EndsGroups bytes marked last) : False :=
      hends.not_marked fun b hb => hall b (List.mem_of_mem_take hb)
    exact ⟨by simp [hlength, hall], fun hlong => absurd hlong (Nat.not_lt.mpr hlength),
      fun _ _ hends => (hnot _ _ hends).elim, fun _ _ hends => (hnot _ _ hends).elim⟩
  · rw [scan_overlong hlength hmarked] at h
    obtain rfl := Except.error.inj h
    exact ⟨by simp [Nat.not_le.mpr hlength], fun _ _ => rfl,
      fun _ _ hends => absurd hmarked hends.not_marked,
      fun _ _ hends => absurd hmarked hends.not_marked⟩
  · have hnot : ¬Marked bytes := fun hall =>
      hends.not_marked fun b hb => hall b (List.mem_of_mem_take hb)
    -- every way to end the groups is the one that is scanned
    have hunique (marked' last') (hends' : EndsGroups bytes marked' last') :
        marked' = marked ∧ last' = last := hends'.unique hends
    rcases hends.scan_cases with ⟨hcanonical, hscan⟩ | ⟨hcanonical, ⟨v, -, hscan⟩ | ⟨hall, hscan⟩⟩
    · rw [hscan] at h
      obtain rfl := Except.error.inj h
      refine ⟨by simp [hnot], fun _ hmarked => absurd hmarked hends.not_marked, ?_, ?_⟩
      · intro marked' last' hends'
        obtain ⟨rfl, rfl⟩ := hunique _ _ hends'
        simp [hcanonical]
      · intro marked' last' hends'
        obtain ⟨rfl, rfl⟩ := hunique _ _ hends'
        simp [hcanonical]
    · rw [hscan] at h
      cases h
    · rw [hscan] at h
      obtain rfl := Except.error.inj h
      refine ⟨by simp [hnot], fun _ _ => rfl, ?_, ?_⟩
      · intro marked' last' hends'
        obtain ⟨rfl, rfl⟩ := hunique _ _ hends'
        simp [hcanonical]
      · intro marked' last' hends'
        obtain ⟨rfl, rfl⟩ := hunique _ _ hends'
        simp [hcanonical, hall]

theorem exists_defect_iff :
    (∃ defect, (scan .nothing rest).1 = .error defect) ↔ ∀ v after, rest ≠ encode v ++ after := by
  constructor
  · rintro ⟨defect, hscan⟩ v after hrest
    rw [scan_eq_ok_iff.mpr hrest] at hscan
    cases hscan
  · intro h
    cases hscan : (scan .nothing rest).1 with
    | error defect => exact ⟨defect, rfl⟩
    | ok v => exact absurd (scan_eq_ok_iff.mp (Prod.ext hscan rfl)) (h v _)

/-- Bytes that start with no integer show only one defect. -/
theorem Shows.unique {defect' : Defect} (h : Shows rest defect) (h' : Shows rest defect')
    (hno : ∀ v after, rest ≠ encode v ++ after) : defect = defect' := by
  rcases shape_cases rest with hshort | ⟨hlength, hmarked⟩ | ⟨marked, last, hends⟩
  · rw [h.truncated_iff.mpr hshort, h'.truncated_iff.mpr hshort]
  · rw [h.of_overlong hlength hmarked, h'.of_overlong hlength hmarked]
  · rcases hends.scan_cases with ⟨hcanonical, -⟩ | ⟨hcanonical, ⟨v, -, hscan⟩ | ⟨hall, -⟩⟩
    · rw [(h.nonCanonical_iff _ _ hends).mpr hcanonical,
        (h'.nonCanonical_iff _ _ hends).mpr hcanonical]
    · exact absurd (scan_eq_ok_iff.mp (Prod.ext hscan rfl)) (hno v _)
    · rw [(h.overflow_iff _ _ hends).mpr ⟨hcanonical, hall⟩,
        (h'.overflow_iff _ _ hends).mpr ⟨hcanonical, hall⟩]

/-! ## Where decoding fails -/

namespace Decoder

variable {d d' : Decoder} {v : Int64}

theorem position_le_of_takeFrom_ok {start : Nat} {taken : Taken}
    (h : takeFrom start taken d = .ok v d') : d'.position ≤ d.data.size := by
  fun_induction takeFrom start taken d with
  | case1 => cases h
  | case2 taken d b hb taken' hpush ih => exact ih h
  | case3 taken d b hb w hpush =>
    cases h
    obtain ⟨hlt, -⟩ := Array.getElem?_eq_some_iff.mp hb
    exact hlt
  | case4 => cases h

/-- A decoder goes on by the bytes of the integer that it takes. -/
theorem position_of_next_some (h : next d = .ok (some v) d') :
    d'.position = d.position + (encode v).length := by
  have hlength := congrArg List.length (rest_of_next_some h)
  simp only [rest, List.length_drop, Array.length_toList, List.length_append] at hlength
  unfold next at h
  split at h
  · cases h
  · split at h
    · rename_i htake
      cases h
      obtain ⟨hdata, hlt⟩ := takeFrom_ok htake
      have hle := position_le_of_takeFrom_ok htake
      rw [hdata] at hlength
      omega
    · cases h

theorem collect_of_defect {found : Array Int64} {vs : List Int64}
    (hrest : d.rest = encodeAll vs ++ rest) (hne : rest ≠ [])
    (hscan : (scan .nothing rest).1 = .error defect) :
    d.collect found = .error ⟨defect, d.position + (encodeAll vs).length⟩ := by
  have hno := exists_defect_iff.mp ⟨defect, hscan⟩
  fun_induction collect found d generalizing vs with
  | case1 found d d' hnext =>
    rw [rest_of_next_none hnext] at hrest
    exact absurd (List.append_eq_nil_iff.mp hrest.symm).2 hne
  | case2 found d v d' hnext ih =>
    have htaken := rest_of_next_some hnext
    cases vs with
    | nil => exact absurd (hrest.symm.trans htaken) (hno v _)
    | cons w vs =>
      rw [encodeAll_cons, List.append_assoc] at hrest
      obtain ⟨rfl, hbehind⟩ := encode_append_inj (htaken.symm.trans hrest)
      rw [ih hbehind, position_of_next_some hnext, encodeAll_cons, List.length_append,
        Nat.add_assoc]
  | case3 found d e d' hnext =>
    cases vs with
    | nil =>
      have hdrest : d.rest = rest := hrest
      obtain ⟨d'', -, hfails⟩ := exists_next_eq_scan (d := d) (by rwa [hdrest])
      rw [hdrest, hscan, hnext] at hfails
      cases hfails
      rfl
    | cons w vs =>
      rw [encodeAll_cons, List.append_assoc] at hrest
      obtain ⟨d'', hsome, -⟩ := exists_next_of_rest hrest
      rw [hnext] at hsome
      cases hsome

end Decoder

theorem decode_of_failsBehind {vs : List Int64} (h : FailsBehind bytes vs rest) :
    ∃ defect, Shows rest defect ∧ decode bytes = .error ⟨defect, (encodeAll vs).length⟩ := by
  obtain ⟨defect, hscan⟩ := exists_defect_iff.mpr h.no_integer
  refine ⟨defect, shows_of_scan hscan, ?_⟩
  have hrest : (Decoder.ofBytes bytes).rest = encodeAll vs ++ rest := by
    rw [Decoder.rest_ofBytes, h.bytes_eq]
  rw [decode, Decoder.collect_of_defect hrest h.rest_ne_nil hscan]
  simp [Decoder.ofBytes]

/-- Bytes are those of integers, or those of some integers and a rest. -/
theorem exists_failsBehind_or (bytes : List UInt8) :
    (∃ vs, bytes = encodeAll vs) ∨ ∃ vs rest, FailsBehind bytes vs rest := by
  induction hlength : bytes.length using Nat.strongRecOn generalizing bytes with
  | ind n ih =>
    by_cases hstarts : ∃ v after, bytes = encode v ++ after
    · obtain ⟨v, after, rfl⟩ := hstarts
      have hpos : 0 < (encode v).length := List.length_pos_iff.mpr (encode_ne_nil v)
      rw [List.length_append] at hlength
      rcases ih after.length (by omega) after rfl with ⟨vs, rfl⟩ | ⟨vs, rest, h⟩
      · exact Or.inl ⟨v :: vs, rfl⟩
      · refine Or.inr ⟨v :: vs, rest, ?_, h.rest_ne_nil, h.no_integer⟩
        rw [h.bytes_eq, encodeAll_cons, List.append_assoc]
    · push Not at hstarts
      by_cases hnil : bytes = []
      · exact Or.inl ⟨[], hnil⟩
      · exact Or.inr ⟨[], bytes, rfl, hnil, hstarts⟩

theorem exists_failsBehind {e : Error} (h : decode bytes = .error e) :
    ∃ vs rest, FailsBehind bytes vs rest := by
  refine (exists_failsBehind_or bytes).resolve_left ?_
  rintro ⟨vs, hbytes⟩
  rw [decode_eq_ok_iff.mpr hbytes] at h
  cases h

/-- Decoding fails for the bytes of some integers and a rest that starts with no other one,
and for no others. The error is at the first byte of the rest, and the rest shows what is
wrong with it. -/
theorem decode_failure_law (bytes : List UInt8) :
    ((∃ e, decode bytes = .error e) ↔ ∃ vs rest, FailsBehind bytes vs rest) ∧
    ∀ vs rest, FailsBehind bytes vs rest → ∀ e, decode bytes = .error e ↔
      e.offset = (encodeAll vs).length ∧ Shows rest e.defect := by
  refine ⟨⟨?_, ?_⟩, ?_⟩
  · rintro ⟨e, h⟩
    exact exists_failsBehind h
  · rintro ⟨vs, rest, h⟩
    obtain ⟨defect, -, hdecode⟩ := decode_of_failsBehind h
    exact ⟨_, hdecode⟩
  · intro vs rest h e
    obtain ⟨defect, hshows, hdecode⟩ := decode_of_failsBehind h
    rw [hdecode, Except.error.injEq]
    constructor
    · rintro rfl
      exact ⟨rfl, hshows⟩
    · rintro ⟨hoffset, hdefect⟩
      rw [hshows.unique hdefect h.no_integer, ← hoffset]

/-- A zero as the eleventh group is one group too many, and not just one that is not needed. -/
example : decode (0x02 :: List.replicate 10 0x80 ++ [0x00]) = .error ⟨.overflow, 1⟩ := by
  decide +kernel

end CuttingPlanes.Varint
