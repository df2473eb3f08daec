import AckRelay.Host.Command
import AckRelay.Relay.CommitBatch
import AckRelay.Relay.Error

namespace AckRelay

inductive CommitTrigger where
  | interval
  | forced
  | revoke
  deriving DecidableEq, Repr

def CommitTrigger.name : CommitTrigger → String
  | .interval => "interval"
  | .forced => "forced"
  | .revoke => "revoke"

inductive RebalanceKind where
  | assign
  | revoke
  | lost
  deriving DecidableEq, Repr

def RebalanceKind.name : RebalanceKind → String
  | .assign => "assign"
  | .revoke => "revoke"
  | .lost => "lost"

inductive Counter where
  | recordsDelivered
  | commandsApplied (kind : Command.Kind)
  | staleAcknowledgements
  | fatalErrors (kind : RelayError.Kind)
  | partitionsPaused
  | partitionsResumed
  | commits (trigger : CommitTrigger) (success : Bool)
  | commitsDiscarded
  | rebalances (kind : RebalanceKind)
  | emptyRebalances (kind : RebalanceKind)
  deriving DecidableEq, Repr

namespace Counter

def outcome (success : Bool) : String := if success then "success" else "failure"

def name : Counter → String
  | .recordsDelivered => "kafka_poller_records_delivered_total"
  | .commandsApplied k => "kafka_poller_commands_applied_total\x7bcommand=" ++ k.name ++ "\x7d"
  | .staleAcknowledgements => "kafka_poller_stale_acknowledgements_total"
  | .fatalErrors k => "kafka_poller_fatal_errors_total\x7berror_type=" ++ k.name ++ "\x7d"
  | .partitionsPaused => "kafka_poller_partitions_paused_total"
  | .partitionsResumed => "kafka_poller_partitions_resumed_total"
  | .commits t success =>
    "kafka_poller_offset_commits_total\x7boutcome=" ++ outcome success ++ ",trigger=" ++ t.name ++
      "\x7d"
  | .commitsDiscarded => "kafka_poller_commits_discarded_total"
  | .rebalances k => "kafka_poller_rebalance_events_total\x7bevent=" ++ k.name ++ "\x7d"
  | .emptyRebalances k => "kafka_poller_rebalance_empty_skipped_total\x7bevent=" ++ k.name ++ "\x7d"

end Counter

structure Metrics where
  totals : List (Counter × Nat) := []
  pausedPartitions : Option Nat := none
  /-- The sizes of the batches of records, last one first. -/
  batches : List Nat := []

namespace Metrics

def addTo (c : Counter) (n : Nat) : List (Counter × Nat) → List (Counter × Nat)
  | [] => [(c, n)]
  | (d, total) :: rest => if d = c then (d, total + n) :: rest else (d, total) :: addTo c n rest

def add (m : Metrics) (c : Counter) (n : Nat) : Metrics := { m with totals := addTo c n m.totals }

def increment (m : Metrics) (c : Counter) : Metrics := m.add c 1

def addCommit (m : Metrics) (trigger : CommitTrigger) : FlushOutcome → Metrics
  | .idle => m
  | .committed => m.increment (.commits trigger true)
  | .failed _ => m.increment (.commits trigger false)

def addDiscarded (m : Metrics) (n : Nat) : Metrics :=
  if n = 0 then m else m.add .commitsDiscarded n

/-- The total of a counter; none, if it was not touched. -/
def total? (m : Metrics) (c : Counter) : Option Nat := m.totals.lookup c

def total (m : Metrics) (c : Counter) : Nat := (m.total? c).getD 0

def batchSizes (m : Metrics) : List Nat := m.batches.reverse

def pausedPartitionsName : String := "kafka_poller_paused_partitions"

def batchSizesName : String := "kafka_poller_poll_batch_size"

end Metrics

end AckRelay
