import AckRelay.Log.PartitionJson
import AckRelay.Log.PartitionMap
import AckRelay.Log.Record
import AckRelay.Text.Base64

namespace AckRelay

inductive Notification where
  | record (r : Record)
  | consuming
  | caughtUp
  | assigned (partitions : List Partition)
  | unassigned (partitions : List Partition)
  | committed (offsets : List Position)
  deriving DecidableEq, Repr

namespace Notification

inductive Kind where
  | record
  | consuming
  | caughtUp
  | assigned
  | unassigned
  | committed
  deriving DecidableEq, Repr

namespace Kind

def all : List Kind := [.record, .consuming, .caughtUp, .assigned, .unassigned, .committed]

def name : Kind → String
  | .record => "record"
  | .consuming => "consuming"
  | .caughtUp => "caught_up"
  | .assigned => "assigned"
  | .unassigned => "unassigned"
  | .committed => "committed"

def ofName? (s : String) : Option Kind := all.find? (fun k => k.name = s)

end Kind

def kind : Notification → Kind
  | .record _ => .record
  | .consuming => .consuming
  | .caughtUp => .caughtUp
  | .assigned _ => .assigned
  | .unassigned _ => .unassigned
  | .committed _ => .committed

def ofOffsets (offsets : Offsets) : Notification :=
  .committed (offsets.entries.map (fun e => ⟨e.1, e.2⟩))

def members : Notification → List (String × Json)
  | .record r =>
    [("topic", .text r.partition.topic), ("partition", .integer r.partition.number.toInt),
      ("offset", .integer r.offset.toInt), ("timestamp", .integer r.timestamp.toInt),
      ("value", .text (Text.Base64.encode r.value))]
  | .consuming | .caughtUp => []
  | .assigned ps | .unassigned ps => [("partitions", .list (ps.map Partition.toJson))]
  | .committed os => [("offsets", .list (os.map Position.toJson))]

def toJson (n : Notification) : Json :=
  .object ((Json.tagKey, .text n.kind.name) :: n.members)

def body (n : Notification) : List UInt8 := Text.toUtf8 n.toJson.render

def listOf? {α : Type} (f : Json → Option α) : Json → Option (List α)
  | .list xs => xs.mapM f
  | _ => none

def build? (kind : Kind) (fields : Json.Body) : Option Notification := do
  match kind with
  | .record =>
    match ← fields.fields? ["topic", "partition", "offset", "timestamp", "value"] with
    | [t, n, o, ts, v] =>
      let value ← Text.Base64.decode? (← v.asText?)
      some (.record ⟨⟨← t.asText?, ← n.asInt32?⟩, ← o.asInt64?, ← ts.asInt64?, value⟩)
    | _ => none
  | .consuming => (fields.fields? []).map (fun _ => .consuming)
  | .caughtUp => (fields.fields? []).map (fun _ => .caughtUp)
  | .assigned =>
    match ← fields.fields? ["partitions"] with
    | [ps] => (listOf? Partition.ofJson? ps).map .assigned
    | _ => none
  | .unassigned =>
    match ← fields.fields? ["partitions"] with
    | [ps] => (listOf? Partition.ofJson? ps).map .unassigned
    | _ => none
  | .committed =>
    match ← fields.fields? ["offsets"] with
    | [os] => (listOf? Position.ofJson? os).map .committed
    | _ => none

def parse (bs : List UInt8) : Except Json.Fault Notification :=
  Json.parseTagged Kind.ofName? build? bs

end Notification

end AckRelay
