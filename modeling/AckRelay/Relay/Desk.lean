import AckRelay.Relay.CatchUp
import AckRelay.Relay.FlowControl
import AckRelay.Relay.Metrics

namespace AckRelay

inductive Mode where
  | grouped (batch : CommitBatch)
  | anonymous (catchUp : CatchUp)

structure Desk (ν : Type) where
  mode : Mode
  notifier : ν
  flow : FlowControl := {}
  metrics : Metrics := {}

def Rebalance.kind : Rebalance → RebalanceKind
  | .assigned _ => .assign
  | .revoked _ => .revoke
  | .lost _ => .lost

namespace Desk

variable {β ν : Type}

def tell [Notifier ν] (n : Notification) : EStateM RelayError (Desk ν) Unit := fun d =>
  match Notifier.emit n d.notifier with
  | .ok () w => .ok () { d with notifier := w }
  | .error e w => .error (.notify e) { d with notifier := w }

def count (c : Counter) (d : Desk ν) : Desk ν := { d with metrics := d.metrics.increment c }

def settle (commit : Committer β) (change : Rebalance) (broker : β) (d : Desk ν) : β × Desk ν :=
  match d.mode, change with
  | .grouped batch, .revoked ps =>
    let (outcome, batch, broker) := batch.revoke commit ps broker
    (broker, { d with mode := .grouped batch, metrics := d.metrics.addCommit .revoke outcome })
  | .grouped batch, .lost ps =>
    let (n, batch) := batch.lose ps
    (broker, { d with mode := .grouped batch, metrics := d.metrics.addDiscarded n })
  | _, _ => (broker, d)

def release (ps : List Partition) (d : Desk ν) : Desk ν :=
  let flow := d.flow.remove ps
  { d with flow, metrics := { d.metrics with pausedPartitions := some flow.paused.size } }

/-- Follows a rebalance and tells the host of it. One of no partition is only counted. -/
def onRebalance [Notifier ν] (commit : Committer β) (change : Rebalance) :
    EStateM RelayError (β × Desk ν) Unit := fun (broker, d) =>
  if change.partitions = [] then .ok () (broker, d.count (.emptyRebalances change.kind))
  else
    -- the desk is settled before the host is told, and stays so if that fails
    let d := d.count (.rebalances change.kind)
    let (broker, d, n) :=
      match change with
      | .assigned ps => (broker, d, Notification.assigned ps)
      | .revoked ps | .lost ps =>
        let (broker, d) := d.settle commit change broker
        (broker, d.release ps, Notification.unassigned ps)
    match tell n d with
    | .ok () d => .ok () (broker, d)
    | .error e d => .error e (broker, d)

def listener [Notifier ν] : Listener β (Desk ν) RelayError where
  notify := onRebalance
  refuse := .broker

end Desk

end AckRelay
