import CuttingPlanes.Stream.Sink

/-!
# Buffered outlets

An outlet collects small pieces before they go to the sink. A piece that does
not fit behind the pending bytes makes the outlet drain first, and a piece as
large as the whole buffer goes to the sink directly. Bytes that the sink refuses
while draining stay pending; what it refuses of a direct piece is lost.
-/

namespace CuttingPlanes

structure Outlet where
  sink : Sink
  pending : Array UInt8
deriving DecidableEq, Repr

namespace Outlet

def capacity : Nat := 8192

def ofSink (sink : Sink) : Outlet := ⟨sink, #[]⟩

def drain : EStateM Fault Outlet Unit := fun ⟨sink, pending⟩ =>
  match sink.accept pending with
  | (sink, none) => .ok () ⟨sink, #[]⟩
  | (sink, some (fault, left)) => .error fault ⟨sink, left⟩

/-- Drain unless `count` more bytes fit. -/
def makeRoom (count : Nat) : EStateM Fault Outlet Unit := fun o =>
  if capacity < o.pending.size + count then drain o else .ok () o

/-- Keep a piece pending, or hand it to the sink if it is as large as the buffer. -/
def push (piece : List UInt8) : EStateM Fault Outlet Unit := fun ⟨sink, pending⟩ =>
  if piece.length < capacity then .ok () ⟨sink, pending ++ piece⟩
  else
    match sink.accept piece.toArray with
    | (sink, none) => .ok () ⟨sink, pending⟩
    | (sink, some (fault, _)) => .error fault ⟨sink, pending⟩

def put (piece : List UInt8) : EStateM Fault Outlet Unit := do
  makeRoom piece.length
  push piece

/-- Write pieces one after the other and drain behind the last. -/
def write (pieces : List (List UInt8)) : EStateM Fault Outlet Unit := do
  pieces.forM put
  drain

end Outlet

end CuttingPlanes
