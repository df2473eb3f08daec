import AckRelay.Json.Tagged
import AckRelay.Log.Position

namespace AckRelay

inductive Command where
  | ack (position : Position)
  | stop
  | committedOffsets
  | unrecognized (raw : String)
  deriving DecidableEq, Repr

namespace Command

inductive Kind where
  | ack
  | stop
  | committedOffsets
  | unrecognized
  deriving DecidableEq, Repr

def kind : Command → Kind
  | .ack _ => .ack
  | .stop => .stop
  | .committedOffsets => .committedOffsets
  | .unrecognized _ => .unrecognized

def Kind.name : Kind → String
  | .ack => "ack"
  | .stop => "stop"
  | .committedOffsets => "committed_offsets"
  | .unrecognized => "unrecognized"

def ofJson? (v : Json) : Option Command := do
  let (tag, body) ← v.tagged?
  if tag = "ack" then
    match ← body.fields? ["topic", "partition", "offset"] with
    | [t, n, o] =>
      let position : Position := ⟨⟨← t.asText?, ← n.asInt32?⟩, ← o.asInt64?⟩
      if isCommittable position.offset then some (.ack position) else none
    | _ => none
  else if tag = "stop" then (body.fields? []).map (fun _ => .stop)
  else if tag = "committed_offsets" then (body.fields? []).map (fun _ => .committedOffsets)
  else none

def decode (body : List UInt8) : Command :=
  match Json.parse body with
  | .ok v => (ofJson? v).getD (.unrecognized (Text.lossy body))
  | .error _ => .unrecognized (Text.lossy body)

end Command

end AckRelay
