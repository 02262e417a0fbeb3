import CuttingPlanes.Proofs.Actions
import CuttingPlanes.Stream.Outlet

/-!
# Writing to a sink that does not fail

On such a sink every write succeeds, and however the outlet cuts it up, the sink
holds the pieces one behind the other once the outlet is drained
(`write_of_reliable`).
-/

namespace CuttingPlanes

namespace Sink

/-- The sink never refuses a byte. -/
def Reliable : Sink → Prop
  | .discard => True
  | .store _ limit => limit = none

def append (s : Sink) (bytes : List UInt8) : Sink :=
  match s with
  | .discard => .discard
  | .store held limit => .store (held ++ bytes) limit

theorem reliable_unlimited : unlimited.Reliable := rfl

variable {s : Sink}

theorem Reliable.append (h : s.Reliable) (bytes : List UInt8) : (s.append bytes).Reliable := by
  cases s with
  | discard => trivial
  | store held limit => exact h

theorem accept_of_reliable (h : s.Reliable) (bytes : Array UInt8) :
    s.accept bytes = (s.append bytes.toList, none) := by
  cases s with
  | discard => rfl
  | store held limit =>
    obtain rfl : limit = none := h
    have hlist : held ++ bytes = held ++ bytes.toList := Array.toList_inj.mp (by simp)
    simp only [accept, Sink.append, hlist]

@[simp] theorem append_nil (s : Sink) : s.append [] = s := by
  cases s <;> simp [append]

@[simp] theorem append_append (s : Sink) (xs ys : List UInt8) :
    (s.append xs).append ys = s.append (xs ++ ys) := by
  cases s with
  | discard => rfl
  | store held limit =>
    have hlist : held ++ xs ++ ys = held ++ (xs ++ ys) := Array.toList_inj.mp (by simp)
    simp only [append, hlist]

theorem held_append_unlimited (bytes : List UInt8) :
    (unlimited.append bytes).held.toList = bytes := by
  simp [unlimited, append, held]

end Sink

namespace Outlet

open Actions

/-- The sink once the pending bytes have reached it. -/
def settled (o : Outlet) : Sink := o.sink.append o.pending.toList

variable {o : Outlet}

theorem drain_of_reliable (h : o.sink.Reliable) : drain o = .ok () ⟨o.settled, #[]⟩ := by
  simp [drain, Sink.accept_of_reliable h, settled]

/-- Behind `makeRoom` the outlet is empty or has room for the piece. -/
theorem makeRoom_of_reliable (h : o.sink.Reliable) (count : Nat) :
    Succeeds (makeRoom count) o fun _ o' => o'.sink.Reliable ∧ o'.settled = o.settled ∧
      (o'.pending = #[] ∨ o'.pending.size + count ≤ capacity) := by
  by_cases hroom : capacity < o.pending.size + count
  · refine ⟨(), _, by rw [makeRoom, if_pos hroom, drain_of_reliable h], h.append _, ?_, Or.inl rfl⟩
    simp [settled]
  · exact ⟨(), o, by rw [makeRoom, if_neg hroom], h, rfl, Or.inr (by omega)⟩

theorem push_of_reliable (h : o.sink.Reliable) {piece : List UInt8}
    (hroom : o.pending = #[] ∨ o.pending.size + piece.length ≤ capacity) :
    Succeeds (push piece) o fun _ o' =>
      o'.sink.Reliable ∧ o'.settled = o.settled.append piece := by
  unfold push
  by_cases hsmall : piece.length < capacity
  · refine ⟨(), ⟨o.sink, o.pending ++ piece⟩, by simp [hsmall], h, ?_⟩
    simp [settled]
  · -- a piece as large as the buffer finds the buffer empty
    have hempty : o.pending = #[] := by
      rcases hroom with hroom | hroom
      · exact hroom
      · exact Array.eq_empty_of_size_eq_zero (by omega)
    refine ⟨(), ⟨o.sink.append piece, o.pending⟩, ?_, h.append _, ?_⟩
    · simp [hsmall, Sink.accept_of_reliable h]
    · simp [settled, hempty]

theorem put_of_reliable (h : o.sink.Reliable) (piece : List UInt8) :
    Succeeds (put piece) o fun _ o' =>
      o'.sink.Reliable ∧ o'.settled = o.settled.append piece := by
  refine (makeRoom_of_reliable h _).bind fun _ o' ⟨h', hsettled, hroom⟩ => ?_
  rw [← hsettled]
  exact push_of_reliable h' hroom

theorem forM_put_of_reliable (h : o.sink.Reliable) (pieces : List (List UInt8)) :
    Succeeds (pieces.forM put) o fun _ o' =>
      o'.sink.Reliable ∧ o'.settled = o.settled.append pieces.flatten := by
  induction pieces generalizing o with
  | nil => exact .pure ⟨h, by simp⟩
  | cons piece pieces ih =>
    show Succeeds (put piece >>= fun _ => pieces.forM put) o _
    refine (put_of_reliable h piece).bind fun _ o' ⟨h', hsettled⟩ => (ih h').mono ?_
    rintro - o'' ⟨h'', hsettled'⟩
    refine ⟨h'', ?_⟩
    rw [hsettled', hsettled, Sink.append_append, List.flatten_cons]

/-- All pieces reach the sink. -/
theorem write_of_reliable (h : o.sink.Reliable) (pieces : List (List UInt8)) :
    write pieces o = .ok () ⟨o.settled.append pieces.flatten, #[]⟩ := by
  obtain ⟨_, o', hput, h', hsettled⟩ := forM_put_of_reliable h pieces
  rw [write, bind_of_ok hput, drain_of_reliable h', hsettled]

end Outlet

end CuttingPlanes
