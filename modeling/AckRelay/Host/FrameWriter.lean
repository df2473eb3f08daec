import AckRelay.Host.Frame
import AckRelay.Host.Notifier

namespace AckRelay

structure Sink where
  /-- The bytes that still fit; without a number there is no limit. -/
  room : Option Nat := none
  /-- The numbers of the flushes that fail, counted from one. -/
  failingFlushes : List Nat := []
  /-- What was written, in pieces, last one first. -/
  written : List (List UInt8) := []
  flushes : Nat := 0
  deriving DecidableEq, Repr

namespace Sink

def contents (s : Sink) : List UInt8 := s.written.reverse.flatten

def take (s : Sink) (bs : List UInt8) : Sink :=
  { s with room := s.room.map (· - bs.length), written := bs :: s.written }

/-- Writes all bytes. Of bytes that do not fit, those that do are taken. -/
def writeAll (bs : List UInt8) : EStateM NotifyError Sink Unit := fun s =>
  match s.room with
  | none => .ok () (s.take bs)
  | some n =>
    if bs.length ≤ n then .ok () (s.take bs)
    else .error (.io "failed to write whole buffer") (s.take (bs.take n))

def flush : EStateM NotifyError Sink Unit := fun s =>
  let s := { s with flushes := s.flushes + 1 }
  if s.flushes ∈ s.failingFlushes then .error (.io hostWentAway) s else .ok () s

end Sink

/-- Writes each notification as a frame and then flushes. A body that is too long is not written at
all. -/
structure FrameWriter where
  sink : Sink := {}
  deriving DecidableEq, Repr

namespace FrameWriter

def write (body : List UInt8) : EStateM NotifyError Sink Unit := do
  if body.length ≤ Frame.maxLength then
    -- length and body go out in one piece
    Sink.writeAll (Frame.encode body)
    Sink.flush
  else throw (.frameTooLarge body.length)

end FrameWriter

instance : Notifier FrameWriter where
  emit n w :=
    match FrameWriter.write n.body w.sink with
    | .ok () s => .ok () ⟨s⟩
    | .error e s => .error e ⟨s⟩

end AckRelay
