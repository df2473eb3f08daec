import AckRelay.Json.Skim
import AckRelay.Json.Tagged
import AckRelay.Json.Render
import AckRelay.Log.Position

namespace AckRelay

namespace Partition

def fieldNames : List String := ["topic", "partition"]

def toJson (p : Partition) : Json :=
  .object [("topic", .text p.topic), ("partition", .integer p.number.toInt)]

def ofJson? (v : Json) : Option Partition := do
  match ← v.fields? fieldNames with
  | [t, n] => some ⟨← t.asText?, ← n.asInt32?⟩
  | _ => none

open Json in
/-- Reads the members of the object form up to its end. Unknown members are passed over; a field
that occurs again is refused at its key. -/
def readMembers : Nat → Bool → Option String → Option Int32 → List UInt8 →
    Except Fault (Partition × List UInt8)
  | 0, _, _, _, _ => .error .malformed
  | fuel + 1, first, topic, number, bs => do
    match ← nextKey first bs with
    | .closed rest =>
      match topic, number with
      | some t, some n => .ok (⟨t, n⟩, rest)
      | _, _ => .error .mismatch
    | .more rest =>
      let (key, rest) ← string rest
      if key = "topic" then
        if topic.isSome then .error .mismatch
        else
          let (t, rest) ← readText (← colon rest)
          readMembers fuel false (some t) number rest
      else if key = "partition" then
        if number.isSome then .error .mismatch
        else
          let (n, rest) ← readInt32 (← colon rest)
          readMembers fuel false topic (some n) rest
      else
        let rest ← skim (← colon rest)
        readMembers fuel false topic number rest

open Json in
/-- Reads the elements of the list form up to its end. A third element is malformed. -/
def readItems (bs : List UInt8) : Except Fault (Partition × List UInt8) := do
  match ← nextItem true bs with
  | .closed _ => .error .mismatch
  | .more rest =>
    let (t, rest) ← readText rest
    match ← nextItem false rest with
    | .closed _ => .error .mismatch
    | .more rest =>
      let (n, rest) ← readInt32 rest
      let rest ← literal [Ascii.closeList] (skipBlank rest)
      .ok (⟨t, n⟩, rest)

open Json in
def parse (bs : List UInt8) : Except Fault Partition :=
  match skipBlank bs with
  | [] => .error .truncated
  | b :: rest =>
    if b = Ascii.openObject then do
      let (p, rest) ← readMembers (rest.length + 1) true none none rest
      finish rest
      .ok p
    else if b = Ascii.openList then do
      let (p, rest) ← readItems rest
      finish rest
      .ok p
    else .error (wrongShape bs)

end Partition

namespace Position

def toJson (p : Position) : Json :=
  .object [("topic", .text p.partition.topic), ("partition", .integer p.partition.number.toInt),
    ("offset", .integer p.offset.toInt)]

def ofJson? (v : Json) : Option Position := do
  match ← v.fields? ["topic", "partition", "offset"] with
  | [t, n, o] => some ⟨⟨← t.asText?, ← n.asInt32?⟩, ← o.asInt64?⟩
  | _ => none

end Position

end AckRelay
