import AckRelay.Broker.Error
import AckRelay.Log.PartitionMap
import AckRelay.Log.Record

/-!
What the relay needs of a broker. Every operation gives the broker after it, also when it fails.
-/

namespace AckRelay

inductive Rebalance where
  | assigned (partitions : List Partition)
  | revoked (partitions : List Partition)
  | lost (partitions : List Partition)
  deriving DecidableEq, Repr

namespace Rebalance

def partitions : Rebalance → List Partition
  | .assigned ps | .revoked ps | .lost ps => ps

def released : Rebalance → List Partition
  | .assigned _ => []
  | .revoked ps | .lost ps => ps

end Rebalance

abbrev Committer (β : Type) := Offsets → EStateM BrokerError β Unit

/-- Who is told of rebalances, from within a poll and before they are complete. The listener has a
state of its own and can commit through the broker. -/
structure Listener (β σ ε : Type) where
  notify : Committer β → Rebalance → EStateM ε (β × σ) Unit
  refuse : BrokerError → ε

class Broker (β : Type) where
  subscribe (topics : List String) : EStateM BrokerError β Unit
  assign (partitions : List Partition) : EStateM BrokerError β Unit
  assignment : EStateM BrokerError β (List Partition)
  partitionsFor (topic : String) : EStateM BrokerError β (List Partition)
  endOffsets (partitions : List Partition) : EStateM BrokerError β Offsets
  /-- The stored positions of the group; partitions without one are left out. -/
  committed (partitions : List Partition) : EStateM BrokerError β Offsets
  pause (partitions : List Partition) : EStateM BrokerError β Unit
  resume (partitions : List Partition) : EStateM BrokerError β Unit
  /-- Takes the last processed offsets. What is stored is the offset after each. -/
  commit : Committer β
  /-- Gives records, after at most `timeout` milliseconds. -/
  poll {σ ε : Type} (timeout : Nat) (listener : Listener β σ ε) : EStateM ε (β × σ) (List Record)
  close : EStateM BrokerError β Unit

end AckRelay
