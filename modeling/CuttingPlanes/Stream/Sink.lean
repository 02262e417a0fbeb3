import CuttingPlanes.Stream.Fault

/-!
# Sinks of bytes

A sink either discards what it is given or stores it. A store may be limited: it
takes bytes until it holds as many as the limit, and then refuses all others
with a fault.
-/

namespace CuttingPlanes

inductive Sink
  | discard
  | store (held : Array UInt8) (limit : Option (Nat × Fault))
deriving DecidableEq, Repr

namespace Sink

def unlimited : Sink := .store #[] none

def failingAfter (count : Nat) (fault : Fault) : Sink := .store #[] (some (count, fault))

/-- What the sink holds; a discarding sink holds nothing. -/
def held : Sink → Array UInt8
  | .discard => #[]
  | .store held _ => held

/-- Give bytes to the sink. If it does not take all of them, the fault and the
bytes that are left come back. -/
def accept (s : Sink) (bytes : Array UInt8) : Sink × Option (Fault × Array UInt8) :=
  match s with
  | .discard => (.discard, none)
  | .store held none => (.store (held ++ bytes) none, none)
  | .store held (some (limit, fault)) =>
    let room := limit - held.size
    if bytes.size ≤ room then (.store (held ++ bytes) (some (limit, fault)), none)
    else (.store (held ++ bytes.take room) (some (limit, fault)), some (fault, bytes.drop room))

end Sink

end CuttingPlanes
