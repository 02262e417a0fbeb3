import CuttingPlanes.Proofs.Actions
import CuttingPlanes.Stream.Source

/-!
# Taking known bytes from a source

An action takes some bytes when it succeeds on every source that starts with them and
stops exactly behind them. Actions in sequence take the bytes of each in sequence, so
what a sequence of writes left can be read by a sequence of reads.
-/

namespace CuttingPlanes.Source

open Actions

variable {ε ε' α β : Type}

/-- The action takes exactly the given bytes, whatever follows them. -/
def Takes (act : EStateM ε Source α) (bytes : List UInt8) (a : α) : Prop :=
  ∀ rest position failure, act ⟨bytes ++ rest, position, failure⟩ =
    .ok a ⟨rest, position + bytes.length, failure⟩

namespace Takes

theorem pure (a : α) : Takes (Pure.pure a : EStateM ε Source α) [] a := fun _ _ _ => rfl

theorem bind {act : EStateM ε Source α} {next : α → EStateM ε Source β} {xs ys : List UInt8}
    {a : α} {b : β} (h : Takes act xs a) (hnext : Takes (next a) ys b) :
    Takes (act >>= next) (xs ++ ys) b := by
  intro rest position failure
  have hfirst := h (ys ++ rest) position failure
  have hsecond := hnext rest (position + xs.length) failure
  rw [List.append_assoc, bind_of_ok hfirst, hsecond, List.length_append, Nat.add_assoc]

theorem nil_bind {act : EStateM ε Source α} {next : α → EStateM ε Source β} {ys : List UInt8}
    {a : α} {b : β} (h : Takes act [] a) (hnext : Takes (next a) ys b) :
    Takes (act >>= next) ys b := h.bind hnext

theorem bind_nil {act : EStateM ε Source α} {next : α → EStateM ε Source β} {xs : List UInt8}
    {a : α} {b : β} (h : Takes act xs a) (hnext : Takes (next a) [] b) :
    Takes (act >>= next) xs b := by
  have hbind := h.bind hnext
  rwa [List.append_nil] at hbind

theorem adaptExcept {act : EStateM ε Source α} {xs : List UInt8} {a : α} (f : ε → ε')
    (h : Takes act xs a) : Takes (EStateM.adaptExcept f act) xs a := by
  intro rest position failure
  simp only [EStateM.adaptExcept, h rest position failure]

end Takes

theorem takes_byte (b : UInt8) : Takes byte [b] b := fun _ _ _ => rfl

theorem takes_upTo (bytes : List UInt8) : Takes (upTo bytes.length) bytes bytes := by
  intro rest position failure
  simp [upTo]

end CuttingPlanes.Source
