import AckRelay.Broker.Interface

namespace AckRelay

inductive Polled where
  | nothing
  | message (m : Message)
  | failed (e : ClientError)
  deriving DecidableEq, Repr

inductive RebalanceEvent where
  | change (change : Rebalance)
  | failed (code : ClientCode)
  deriving DecidableEq, Repr

structure TopicMetadata where
  fault : Option ClientCode := none
  numbers : List Int32
  deriving DecidableEq, Repr

/-- The operations of a client. Every operation gives the client after it, also when it fails. Those
that wait for an answer take how long they wait, in milliseconds. -/
class Client (κ : Type) where
  subscribe (topics : List String) : EStateM ClientError κ Unit
  unsubscribe : κ → κ
  assign (partitions : List Partition) : EStateM ClientError κ Unit
  unassign : EStateM ClientError κ Unit
  assignment : EStateM ClientError κ (List Partition)
  pause (partitions : List Partition) : EStateM ClientError κ Unit
  resume (partitions : List Partition) : EStateM ClientError κ Unit
  store (positions : List Position) : EStateM ClientError κ Unit
  stored (timeout : Nat) (partitions : List Partition) :
    EStateM ClientError κ (List (Partition × Option Int64))
  endOffset (timeout : Nat) (partition : Partition) : EStateM ClientError κ Int64
  metadata (timeout : Nat) (topic : String) : EStateM ClientError κ (List (String × TopicMetadata))
  poll (timeout : Nat) : κ → Polled × List RebalanceEvent × κ

class Rebalancing (κ : Type) extends Client κ where
  complete (event : RebalanceEvent) : EStateM ClientError κ Unit

class GroupClient (κ : Type) extends Client κ where
  cooperative : κ → Bool
  incrementalAssign (partitions : List Partition) : EStateM ClientError κ Unit
  incrementalUnassign (partitions : List Partition) : EStateM ClientError κ Unit

variable {κ : Type} [GroupClient κ]

def GroupClient.complete (event : RebalanceEvent) : EStateM ClientError κ Unit := do
  let cooperative := GroupClient.cooperative (← get)
  match event with
  | .change (.assigned ps) =>
    if cooperative then GroupClient.incrementalAssign ps else Client.assign ps
  | .change (.revoked ps) | .change (.lost ps) =>
    if cooperative then GroupClient.incrementalUnassign ps else Client.unassign
  | .failed _ => Client.unassign

instance : Rebalancing κ where
  complete := GroupClient.complete

end AckRelay
