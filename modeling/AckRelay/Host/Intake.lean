import AckRelay.Host.Command
import AckRelay.Host.Frame

/-!
Commands from the bytes that the host sends. The bytes come in chunks; an announced length is taken
out of the buffer as soon as it is complete, before the body has to be there.
-/

namespace AckRelay

structure Intake where
  limit : Nat
  buffer : List UInt8 := []
  announced : Option Nat := none
  deriving DecidableEq, Repr

namespace Intake

inductive Fault where
  | tooBig
  | cutOff
  deriving DecidableEq, Repr

def Fault.message : Fault → String
  | .tooBig => "frame size too big"
  | .cutOff => "bytes remaining on stream"

def announce (s : Intake) : Except Fault Intake :=
  match s.announced, Frame.readLength? s.buffer with
  | none, some (n, rest) =>
    -- refused as soon as it is announced, without waiting for the body
    if n ≤ s.limit then .ok { s with buffer := rest, announced := some n } else .error .tooBig
  | _, _ => .ok s

def body? (s : Intake) : Option (List UInt8 × Intake) :=
  match s.announced with
  | some n =>
    if n ≤ s.buffer.length then
      some (s.buffer.take n, { s with buffer := s.buffer.drop n, announced := none })
    else none
  | none => none

def drain : Nat → Intake → List Command × Option Fault × Intake
  | 0, s => ([], none, s)
  | fuel + 1, s =>
    match announce s with
    | .error f => ([], some f, s)
    | .ok s =>
      match body? s with
      | none => ([], none, s)
      | some (body, s) =>
        let (commands, fault, s) := drain fuel s
        (Command.decode body :: commands, fault, s)

def feed (chunk : List UInt8) (s : Intake) : List Command × Option Fault × Intake :=
  let s := { s with buffer := s.buffer ++ chunk }
  drain (s.buffer.length + 1) s

def refusal (f : Fault) : Command := .unrecognized f.message

def finish (s : Intake) : Command :=
  if s.buffer = [] then .stop else refusal .cutOff

/-- The commands of a stream that comes in the given chunks and then ends. A fault ends it early. -/
def commands : List (List UInt8) → Intake → List Command
  | [], s => [s.finish]
  | chunk :: chunks, s =>
    match s.feed chunk with
    | (cs, some f, _) => cs ++ [refusal f]
    | (cs, none, s) => cs ++ commands chunks s

end Intake

end AckRelay
