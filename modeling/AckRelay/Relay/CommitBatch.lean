import AckRelay.Broker.Interface

/-!
Acknowledged offsets, collected into periodic commits. Times are milliseconds of a clock that never
goes back.
-/

namespace AckRelay

structure CommitBatch where
  pending : Offsets := ∅
  interval : Nat
  lastFlush : Nat := 0

inductive FlushOutcome where
  | idle
  | committed
  | failed (e : BrokerError)
  deriving DecidableEq, Repr

namespace CommitBatch

def start (interval now : Nat) : CommitBatch := { interval, lastFlush := now }

def record (b : CommitBatch) (p : Partition) (offset : Int64) : CommitBatch :=
  match b.pending.get? p with
  | some o => if offset ≤ o then b else { b with pending := b.pending.insert p offset }
  | none => { b with pending := b.pending.insert p offset }

/-- Commits all that is pending, if it is due or forced. The interval starts again even if there is
nothing to commit; what could not be committed stays pending. -/
def flush {β : Type} (commit : Committer β) (forced : Bool) (now : Nat) (b : CommitBatch)
    (broker : β) : FlushOutcome × CommitBatch × β :=
  if forced = false ∧ now - b.lastFlush < b.interval then (.idle, b, broker)
  else
    let b := { b with lastFlush := now }
    if b.pending.isEmpty then (.idle, b, broker)
    else
      match commit b.pending broker with
      | .ok () broker => (.committed, { b with pending := ∅ }, broker)
      | .error e broker => (.failed e, b, broker)

def take : List Partition → CommitBatch → Offsets × CommitBatch
  | [], b => (∅, b)
  | p :: ps, b =>
    let (taken, rest) := take ps { b with pending := b.pending.erase p }
    -- looked up in the batch as it was, since the rest has lost the offset already
    match b.pending.get? p with
    | some o => (taken.insert p o, rest)
    | none => (taken, rest)

/-- Commits what is pending for partitions that are being revoked. They are forgotten even if that
fails. -/
def revoke {β : Type} (commit : Committer β) (ps : List Partition) (b : CommitBatch) (broker : β) :
    FlushOutcome × CommitBatch × β :=
  let (taken, b) := b.take ps
  if taken.isEmpty then (.idle, b, broker)
  else
    match commit taken broker with
    | .ok () broker => (.committed, b, broker)
    | .error e broker => (.failed e, b, broker)

def lose (ps : List Partition) (b : CommitBatch) : Nat × CommitBatch :=
  let (taken, b) := b.take ps
  (taken.size, b)

end CommitBatch

end AckRelay
