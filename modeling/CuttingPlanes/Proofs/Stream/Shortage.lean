import CuttingPlanes.Proofs.Stream.Delivery

/-!
# Writing to a sink that fails at a limit

Up to the limit an outlet works as on a sink that does not fail, and the sink then holds
as many of the bytes as it can (`write_of_room`, `write_of_shortage`). What the sink has
refused stays pending, and then no further write succeeds (`write_of_stuck`), with one
exception: a piece as large as the buffer is handed to the sink directly, and when the
limit lies within such a piece nothing is pending behind the fault (`Straddles`).
-/

namespace CuttingPlanes

variable {limit : Nat} {fault : Fault}

namespace Sink

/-- A sink with a limit that was offered some bytes: it holds as many of them as it can. -/
def offered (limit : Nat) (fault : Fault) (bytes : List UInt8) : Sink :=
  .store (bytes.take limit).toArray (some (limit, fault))

theorem failingAfter_eq (limit : Nat) (fault : Fault) :
    failingAfter limit fault = offered limit fault [] := by
  simp [failingAfter, offered]

theorem held_offered (bytes : List UInt8) :
    (offered limit fault bytes).held.toList = bytes.take limit := rfl

/-- A full sink takes nothing more. -/
theorem offered_append_of_le {xs : List UInt8} (h : limit ≤ xs.length) (ys : List UInt8) :
    offered limit fault (xs ++ ys) = offered limit fault xs := by
  rw [offered, List.take_append_of_le_length h, offered]

theorem append_offered_of_le {xs ys : List UInt8} (h : (xs ++ ys).length ≤ limit) :
    (offered limit fault xs).append ys = offered limit fault (xs ++ ys) := by
  have hxs : xs.length ≤ limit := by
    rw [List.length_append] at h
    omega
  rw [offered, offered, List.take_of_length_le hxs, List.take_of_length_le h]
  simp [append]

theorem accept_offered (xs : List UInt8) (ys : Array UInt8) :
    (offered limit fault xs).accept ys =
      (offered limit fault (xs ++ ys.toList),
        if ys.size ≤ limit - xs.length then none
        else some (fault, ys.drop (limit - xs.length))) := by
  have hroom : limit - (xs.take limit).toArray.size = limit - xs.length := by
    simp only [List.size_toArray, List.length_take]
    omega
  have hheld : (xs ++ ys.toList).take limit = xs.take limit ++ ys.toList.take (limit - xs.length) :=
    List.take_append
  simp only [offered, accept, hroom, hheld]
  split
  · rename_i hle
    have htake : ys.toList.take (limit - xs.length) = ys.toList :=
      List.take_of_length_le (by simpa using hle)
    rw [htake]
    simp
  · simp

end Sink

namespace Outlet

open Actions Sink

variable {o : Outlet} {bytes piece : List UInt8} {pieces : List (List UInt8)}

/-- The outlet holds some bytes, part of them in a sink whose limit is not exceeded. -/
def Carries (limit : Nat) (fault : Fault) (o : Outlet) (bytes : List UInt8) : Prop :=
  ∃ xs, o.sink = offered limit fault xs ∧ xs.length ≤ limit ∧ xs ++ o.pending.toList = bytes

theorem carries_offered (h : bytes.length ≤ limit) :
    Carries limit fault ⟨offered limit fault bytes, #[]⟩ bytes :=
  ⟨bytes, rfl, h, by simp⟩

theorem Carries.drain_of_le (h : Carries limit fault o bytes) (hle : bytes.length ≤ limit) :
    drain o = .ok () ⟨offered limit fault bytes, #[]⟩ := by
  obtain ⟨xs, hsink, hxs, rfl⟩ := h
  rw [List.length_append, @Array.length_toList _ o.pending] at hle
  have hroom : o.pending.size ≤ limit - xs.length := by omega
  simp only [drain, hsink, accept_offered, if_pos hroom]

theorem Carries.drain_of_lt (h : Carries limit fault o bytes) (hlt : limit < bytes.length) :
    ∃ o', drain o = .error fault o' ∧ o'.sink = offered limit fault bytes ∧ o'.pending ≠ #[] := by
  obtain ⟨xs, hsink, hxs, rfl⟩ := h
  rw [List.length_append, @Array.length_toList _ o.pending] at hlt
  have hroom : ¬o.pending.size ≤ limit - xs.length := by omega
  refine ⟨⟨offered limit fault (xs ++ o.pending.toList), o.pending.drop (limit - xs.length)⟩,
    ?_, rfl, ?_⟩
  · simp only [drain, hsink, accept_offered, if_neg hroom]
  · intro hempty
    have hsize := congrArg Array.size hempty
    simp at hsize
    omega

/-- Behind `makeRoom` the outlet is empty or has room for the piece, unless the limit is
exceeded. -/
theorem Carries.makeRoom (h : Carries limit fault o bytes) (count : Nat) :
    (∃ o', makeRoom count o = .ok () o' ∧ Carries limit fault o' bytes ∧
      (o'.pending = #[] ∨ o'.pending.size + count ≤ capacity)) ∨
    ∃ o', Outlet.makeRoom count o = .error fault o' ∧ limit < bytes.length ∧
      o'.sink = offered limit fault bytes ∧ o'.pending ≠ #[] := by
  by_cases hroom : capacity < o.pending.size + count
  · simp only [Outlet.makeRoom, if_pos hroom]
    by_cases hle : bytes.length ≤ limit
    · exact Or.inl ⟨_, h.drain_of_le hle, carries_offered hle, Or.inl rfl⟩
    · obtain ⟨o', hdrain, hsink, hpending⟩ := h.drain_of_lt (Nat.lt_of_not_le hle)
      exact Or.inr ⟨o', hdrain, Nat.lt_of_not_le hle, hsink, hpending⟩
  · simp only [Outlet.makeRoom, if_neg hroom]
    exact Or.inl ⟨o, rfl, h, Or.inr (Nat.le_of_not_lt hroom)⟩

/-- A piece is carried, unless the limit is exceeded. It is lost without anything pending
exactly if it is large and the limit lies within it. -/
theorem Carries.put (h : Carries limit fault o bytes) (piece : List UInt8) :
    (∃ o', put piece o = .ok () o' ∧ Carries limit fault o' (bytes ++ piece) ∧
      (capacity ≤ piece.length → (bytes ++ piece).length ≤ limit)) ∨
    ∃ o', Outlet.put piece o = .error fault o' ∧ limit < (bytes ++ piece).length ∧
      o'.sink = offered limit fault (bytes ++ piece) ∧
      (o'.pending = #[] ↔ capacity ≤ piece.length ∧ bytes.length ≤ limit) := by
  obtain ⟨o', hroom, hcarries, hsize⟩ | ⟨o', hroom, hlt, hsink, hpending⟩ :=
    h.makeRoom piece.length
  · have hput : Outlet.put piece o = push piece o' := bind_of_ok hroom
    rw [hput]
    by_cases hsmall : piece.length < capacity
    · refine Or.inl ⟨⟨o'.sink, o'.pending ++ piece⟩, by simp [push, hsmall], ?_, by omega⟩
      obtain ⟨xs, hsink, hxs, rfl⟩ := hcarries
      exact ⟨xs, hsink, hxs, by simp⟩
    · -- a piece as large as the buffer finds the buffer empty
      have hempty : o'.pending = #[] := by
        rcases hsize with hempty | hsize
        · exact hempty
        · exact Array.eq_empty_of_size_eq_zero (by omega)
      obtain ⟨xs, hsink, hxs, rfl⟩ := hcarries
      have hbytes : xs ++ o'.pending.toList = xs := by simp [hempty]
      rw [hbytes, List.length_append]
      by_cases hfits : piece.length ≤ limit - xs.length
      · refine Or.inl ⟨⟨offered limit fault (xs ++ piece), #[]⟩, ?_, ?_, by omega⟩
        · simp [push, hsmall, hsink, accept_offered, hfits, hempty]
        · exact carries_offered (by rw [List.length_append]; omega)
      · refine Or.inr ⟨⟨offered limit fault (xs ++ piece), #[]⟩, ?_, by omega, rfl, ?_⟩
        · simp [push, hsmall, hsink, accept_offered, hfits, hempty]
        · simp only [true_iff]
          omega
  · have hput : Outlet.put piece o = .error fault o' := bind_of_error hroom
    refine Or.inr ⟨o', hput, ?_, ?_, ?_⟩
    · rw [List.length_append]
      omega
    · rw [hsink, offered_append_of_le (Nat.le_of_lt hlt)]
    · simp only [hpending, false_iff]
      omega

/-- The limit lies within a piece that is at least as large as the buffer, if the pieces
stand behind `start` bytes. -/
def Straddles (limit start : Nat) (pieces : List (List UInt8)) : Prop :=
  ∃ front piece back, pieces = front ++ piece :: back ∧ capacity ≤ piece.length ∧
    start + front.flatten.length ≤ limit ∧ limit < start + front.flatten.length + piece.length

theorem not_straddles_nil (limit start : Nat) : ¬Straddles limit start [] := by
  rintro ⟨front, piece, back, heq, -⟩
  simp at heq

theorem straddles_cons_iff {start : Nat} :
    Straddles limit start (piece :: pieces) ↔
      (capacity ≤ piece.length ∧ start ≤ limit ∧ limit < start + piece.length) ∨
        Straddles limit (start + piece.length) pieces := by
  constructor
  · rintro ⟨front, large, back, heq, hlarge, hle, hlt⟩
    cases front with
    | nil =>
      obtain ⟨rfl, rfl⟩ := List.cons.inj heq
      simp only [List.flatten_nil, List.length_nil, Nat.add_zero] at hle hlt
      exact Or.inl ⟨hlarge, hle, hlt⟩
    | cons first front =>
      obtain ⟨rfl, rfl⟩ := List.cons.inj heq
      rw [List.flatten_cons, List.length_append] at hle hlt
      exact Or.inr ⟨front, large, back, rfl, hlarge, by omega, by omega⟩
  · rintro (⟨hlarge, hle, hlt⟩ | ⟨front, large, back, rfl, hlarge, hle, hlt⟩)
    · exact ⟨[], piece, pieces, rfl, hlarge, by simpa using hle, by simpa using hlt⟩
    · refine ⟨piece :: front, large, back, rfl, hlarge, ?_, ?_⟩ <;>
        rw [List.flatten_cons, List.length_append] <;> omega

theorem Straddles.start_le {start : Nat} (h : Straddles limit start pieces) : start ≤ limit := by
  obtain ⟨front, piece, back, -, -, hle, -⟩ := h
  omega

theorem Straddles.lt_length {start : Nat} (h : Straddles limit start pieces) :
    limit < start + pieces.flatten.length := by
  obtain ⟨front, piece, back, rfl, -, -, hlt⟩ := h
  rw [List.flatten_append, List.flatten_cons, List.length_append, List.length_append]
  omega

theorem Carries.forM_put (h : Carries limit fault o bytes) (pieces : List (List UInt8)) :
    (∃ o', pieces.forM Outlet.put o = .ok () o' ∧
      Carries limit fault o' (bytes ++ pieces.flatten) ∧ ¬Straddles limit bytes.length pieces) ∨
    ∃ o', pieces.forM Outlet.put o = .error fault o' ∧
      limit < (bytes ++ pieces.flatten).length ∧
      o'.sink = offered limit fault (bytes ++ pieces.flatten) ∧
      (o'.pending = #[] ↔ Straddles limit bytes.length pieces) := by
  induction pieces generalizing o bytes with
  | nil => exact Or.inl ⟨o, rfl, by simpa using h, not_straddles_nil limit bytes.length⟩
  | cons piece pieces ih =>
    have hcons : (piece :: pieces).forM Outlet.put =
        Outlet.put piece >>= fun _ => pieces.forM Outlet.put := rfl
    rw [hcons, List.flatten_cons, ← List.append_assoc, straddles_cons_iff, ← List.length_append]
    obtain ⟨o', hput, hcarries, hlarge⟩ | ⟨o', hput, hlt, hsink, hpending⟩ := h.put piece
    · -- a piece that was put does not hold the limit
      have hfirst : ¬(capacity ≤ piece.length ∧ bytes.length ≤ limit ∧
          limit < (bytes ++ piece).length) := by
        rintro ⟨hsize, -, hlt⟩
        have := hlarge hsize
        omega
      rw [bind_of_ok hput]
      simpa only [hfirst, false_or] using ih hcarries
    · rw [bind_of_error hput]
      have hrest : ¬Straddles limit (bytes ++ piece).length pieces := by
        intro hstraddles
        have := hstraddles.start_le
        omega
      refine Or.inr ⟨o', rfl, ?_, ?_, ?_⟩
      · rw [List.length_append]
        omega
      · rw [hsink, offered_append_of_le (Nat.le_of_lt hlt)]
      · simp only [hpending, hlt, and_true, hrest, or_false]

/-- Up to the limit all pieces reach the sink. -/
theorem Carries.write_of_room (h : Carries limit fault o bytes)
    (hle : (bytes ++ pieces.flatten).length ≤ limit) :
    write pieces o = .ok () ⟨offered limit fault (bytes ++ pieces.flatten), #[]⟩ := by
  obtain ⟨o', hforM, hcarries, -⟩ | ⟨o', hforM, hlt, -⟩ := h.forM_put pieces
  · rw [write, bind_of_ok hforM, hcarries.drain_of_le hle]
  · omega

/-- Beyond the limit the write fails when the sink is full, and something stays pending
unless the limit lies within a large piece. -/
theorem Carries.write_of_shortage (h : Carries limit fault o bytes)
    (hlt : limit < (bytes ++ pieces.flatten).length) :
    ∃ o', write pieces o = .error fault o' ∧
      o'.sink = offered limit fault (bytes ++ pieces.flatten) ∧
      (o'.pending = #[] ↔ Straddles limit bytes.length pieces) := by
  obtain ⟨o', hforM, hcarries, hnot⟩ | ⟨o', hforM, -, hsink, hpending⟩ := h.forM_put pieces
  · obtain ⟨o'', hdrain, hsink, hpending⟩ := hcarries.drain_of_lt hlt
    refine ⟨o'', by rw [write, bind_of_ok hforM, hdrain], hsink, ?_⟩
    simp only [hpending, hnot]
  · exact ⟨o', by rw [write, bind_of_error hforM], hsink, hpending⟩

/-! ## Behind a fault -/

/-- The sink has come to its limit. -/
def Full (limit : Nat) (fault : Fault) (o : Outlet) : Prop :=
  ∃ xs, o.sink = offered limit fault xs ∧ limit ≤ xs.length

theorem full_of_sink_eq {o' : Outlet} (h : Full limit fault o) (hsink : o'.sink = o.sink) :
    Full limit fault o' := by
  obtain ⟨xs, hxs, hle⟩ := h
  exact ⟨xs, hsink.trans hxs, hle⟩

/-- The sink has come to its limit, and bytes are pending. -/
structure Stuck (limit : Nat) (fault : Fault) (o : Outlet) : Prop where
  full : Full limit fault o
  pending_ne : o.pending ≠ #[]

theorem Full.drain_of_pending_eq (h : Full limit fault o) (hpending : o.pending = #[]) :
    drain o = .ok () o := by
  obtain ⟨xs, hsink, -⟩ := h
  obtain ⟨sink, pending⟩ := o
  obtain rfl : sink = offered limit fault xs := hsink
  obtain rfl : pending = #[] := hpending
  simp [drain, accept_offered]

theorem Stuck.drain (h : Stuck limit fault o) : drain o = .error fault o := by
  obtain ⟨⟨xs, hsink, hle⟩, hne⟩ := h
  obtain ⟨sink, pending⟩ := o
  obtain rfl : sink = offered limit fault xs := hsink
  have hzero : limit - xs.length = 0 := by omega
  have hroom : ¬pending.size ≤ limit - xs.length := by
    rw [hzero]
    exact fun hsize => hne (Array.eq_empty_of_size_eq_zero (Nat.le_zero.mp hsize))
  simp only [Outlet.drain, accept_offered, if_neg hroom]
  rw [offered_append_of_le hle, hzero]
  simp

/-- Draining a full sink changes nothing, whatever comes of it. -/
theorem Full.drain (h : Full limit fault o) : drain o = .ok () o ∨ drain o = .error fault o := by
  by_cases hpending : o.pending = #[]
  · exact Or.inl (h.drain_of_pending_eq hpending)
  · exact Or.inr (Stuck.mk h hpending).drain

theorem append_ne_empty {pending : Array UInt8} (h : 0 < pending.size + piece.length) :
    pending ++ piece ≠ #[] := by
  intro hempty
  have hlength := congrArg (·.toList.length) hempty
  simp only [Array.toList_appendList, List.length_append, Array.length_toList, List.length_nil]
    at hlength
  omega

/-- A stuck outlet stays stuck, and its sink is left alone. -/
theorem Stuck.put (h : Stuck limit fault o) (piece : List UInt8) :
    ∃ o', o'.sink = o.sink ∧ o'.pending ≠ #[] ∧
      (put piece o = .ok () o' ∨ Outlet.put piece o = .error fault o') := by
  by_cases hroom : capacity < o.pending.size + piece.length
  · have hmakeRoom : makeRoom piece.length o = .error fault o := by
      rw [makeRoom, if_pos hroom, h.drain]
    exact ⟨o, rfl, h.pending_ne, Or.inr (bind_of_error hmakeRoom)⟩
  · have hmakeRoom : makeRoom piece.length o = .ok () o := by rw [makeRoom, if_neg hroom]
    have hpos : 0 < o.pending.size := Array.size_pos_iff.mpr h.pending_ne
    have hsmall : piece.length < capacity := by omega
    refine ⟨⟨o.sink, o.pending ++ piece⟩, rfl, append_ne_empty (by omega),
      Or.inl ((bind_of_ok hmakeRoom).trans ?_)⟩
    simp [push, hsmall]

theorem Stuck.forM_put (h : Stuck limit fault o) (pieces : List (List UInt8)) :
    ∃ o', o'.sink = o.sink ∧ o'.pending ≠ #[] ∧
      (pieces.forM Outlet.put o = .ok () o' ∨ pieces.forM Outlet.put o = .error fault o') := by
  induction pieces generalizing o with
  | nil => exact ⟨o, rfl, h.pending_ne, Or.inl rfl⟩
  | cons piece pieces ih =>
    have hcons : (piece :: pieces).forM Outlet.put =
        Outlet.put piece >>= fun _ => pieces.forM Outlet.put := rfl
    rw [hcons]
    obtain ⟨o', hsink, hpending, hput | hput⟩ := h.put piece
    · obtain ⟨o'', hsink', hpending', hrest⟩ := ih ⟨full_of_sink_eq h.full hsink, hpending⟩
      rw [bind_of_ok hput]
      exact ⟨o'', hsink'.trans hsink, hpending', hrest⟩
    · exact ⟨o', hsink, hpending, Or.inr (bind_of_error hput)⟩

/-- Nothing is written behind pending bytes that the sink has refused. -/
theorem Stuck.write (h : Stuck limit fault o) (pieces : List (List UInt8)) :
    ∃ o', write pieces o = .error fault o' ∧ o'.sink = o.sink ∧ o'.pending ≠ #[] := by
  obtain ⟨o', hsink, hpending, hforM | hforM⟩ := h.forM_put pieces
  · have hdrain := (Stuck.mk (full_of_sink_eq h.full hsink) hpending).drain
    exact ⟨o', by rw [Outlet.write, bind_of_ok hforM, hdrain], hsink, hpending⟩
  · exact ⟨o', by rw [Outlet.write, bind_of_error hforM], hsink, hpending⟩

/-- The pieces start with one that is kept pending. -/
def StartsSmall (pieces : List (List UInt8)) : Prop :=
  ∃ piece rest, pieces = piece :: rest ∧ piece ≠ [] ∧ piece.length < capacity

theorem write_cons_of_ok {o' : Outlet} (h : Outlet.put piece o = .ok () o')
    (pieces : List (List UInt8)) :
    Outlet.write (piece :: pieces) o = Outlet.write pieces o' := by
  have hcons : (piece :: pieces).forM Outlet.put o = pieces.forM Outlet.put o' := bind_of_ok h
  cases hrest : pieces.forM Outlet.put o' with
  | ok _ o'' => rw [Outlet.write, bind_of_ok (hcons.trans hrest), Outlet.write, bind_of_ok hrest]
  | error e o'' =>
    rw [Outlet.write, bind_of_error (hcons.trans hrest), Outlet.write, bind_of_error hrest]

/-- A full sink takes none of some pieces, and bytes are pending behind the fault. -/
theorem Full.write (h : Full limit fault o) (hpieces : StartsSmall pieces) :
    ∃ o', write pieces o = .error fault o' ∧ o'.sink = o.sink ∧ o'.pending ≠ #[] := by
  by_cases hpending : o.pending = #[]
  · obtain ⟨piece, rest, rfl, hne, hsmall⟩ := hpieces
    have hroom : ¬capacity < o.pending.size + piece.length := by
      rw [hpending, Array.size_empty]
      omega
    have hmakeRoom : makeRoom piece.length o = .ok () o := by rw [makeRoom, if_neg hroom]
    have hput : Outlet.put piece o = .ok () ⟨o.sink, o.pending ++ piece⟩ :=
      (bind_of_ok hmakeRoom).trans (by simp [push, hsmall])
    have hpos : 0 < piece.length := List.length_pos_iff.mpr hne
    have hstuck : Stuck limit fault ⟨o.sink, o.pending ++ piece⟩ :=
      ⟨full_of_sink_eq h rfl, append_ne_empty (by omega)⟩
    obtain ⟨o', hwrite, hsink, hpending'⟩ := hstuck.write rest
    exact ⟨o', by rw [write_cons_of_ok hput, hwrite], hsink, hpending'⟩
  · exact (Stuck.mk h hpending).write pieces

/-- No limit lies within the pieces if they start at the limit with a small one. -/
theorem StartsSmall.not_straddles (h : StartsSmall pieces) : ¬Straddles limit limit pieces := by
  obtain ⟨first, rest, rfl, hne, hsmall⟩ := h
  have hpos : 0 < first.length := List.length_pos_iff.mpr hne
  rw [straddles_cons_iff]
  rintro (⟨hlarge, -⟩ | hrest)
  · omega
  · have := hrest.start_le
    omega

end Outlet

end CuttingPlanes
