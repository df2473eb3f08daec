import AckRelay.Broker.Client

/-!
A broker on top of a client. Rebalances that the client notices are kept until the poll that noticed
them can tell the listener, and are complete only after that. Once the consumer is closing nobody is
told any more, and they are completed where they arise.
-/

namespace AckRelay

structure Consumer (κ : Type) where
  client : κ
  /-- How long requests wait for an answer, in milliseconds. -/
  timeout : Nat
  maxRecords : Nat
  /-- The rebalances that are not yet complete, oldest first. -/
  pending : List RebalanceEvent := []
  closing : Bool := false
  subscribed : Bool := false

namespace Consumer

variable {κ σ ε : Type}

/-- A consumer at its start. A poll gives one record at least, if there is one. -/
def create (client : κ) (timeout maxRecords : Nat) : Consumer κ where
  client
  timeout
  maxRecords := max 1 maxRecords

/-- Asks the client; the tag tells for what. -/
def ask {α : Type} (tag : String) (op : EStateM ClientError κ α) :
    EStateM BrokerError (Consumer κ) α := fun c =>
  match op c.client with
  | .ok a client => .ok a { c with client }
  | .error e client => .error (.client tag e) { c with client }

/-! ### Commits -/

def successors? : List (Partition × Int64) → Except BrokerError (List Position)
  | [] => .ok []
  | (p, o) :: rest =>
    match (nextOffset? o).filter (fun _ => decide (0 ≤ o)) with
    | some next => (successors? rest).map (⟨p, next⟩ :: ·)
    | none =>
      .error (.rejected Operation.commit.name
        s!"invalid offset {toString o.toInt} for {p.display}")

section Commit

variable [Client κ]

/-- Stores the offset after each of those given. If one of them has none, nothing is stored. -/
def commit (offsets : Offsets) : EStateM BrokerError (Consumer κ) Unit := do
  match successors? offsets.entries with
  | .ok positions => ask Operation.commit.name (Client.store positions)
  | .error e => throw e

end Commit

/-! ### Rebalances -/

variable [Rebalancing κ]

def complete (event : RebalanceEvent) : EStateM BrokerError (Consumer κ) Unit :=
  ask "rebalance" (Rebalancing.complete event)

/-- Completes a rebalance of which nobody is told. That it cannot be completed is nobody's concern
either. -/
def completeQuietly (c : Consumer κ) (event : RebalanceEvent) : Consumer κ :=
  match complete event c with
  | .ok () c | .error _ c => c

def raise (c : Consumer κ) (event : RebalanceEvent) : Consumer κ :=
  -- a consumer that closes has no listener any more
  if c.closing then c.completeQuietly event else { c with pending := c.pending ++ [event] }

/-- From now on rebalances are completed where they arise. Those that are pending are completed at
once. -/
def startClosing (c : Consumer κ) : Consumer κ :=
  c.pending.foldl completeQuietly { c with closing := true, pending := [] }

def meaning : RebalanceEvent → EStateM BrokerError (Consumer κ) Rebalance
  | .change change => pure change
  | .failed _ => return .lost (← ask Operation.assignment.name Client.assignment)

def tell (listener : Listener (Consumer κ) σ ε) (event : RebalanceEvent) :
    EStateM ε (Consumer κ × σ) (List Partition) := fun (c, s) =>
  match meaning event c with
  | .error e c => .error (listener.refuse e) (c, s)
  | .ok change c =>
    match listener.notify commit change (c, s) with
    | .error e w => .error e w
    | .ok () w => .ok change.released w

def dispatch (listener : Listener (Consumer κ) σ ε) (event : RebalanceEvent) :
    EStateM ε (Consumer κ × σ) (List Partition) := fun w =>
  let (told, c, s) :=
    match tell listener event w with
    | .ok released w => (Except.ok released, w)
    | .error e w => (Except.error e, w)
  -- that the rebalance cannot be completed is worse than that nobody was told
  match complete event c, told with
  | .error e c, _ => .error (listener.refuse e) (c, s)
  | .ok () c, .error e => .error e (c, s)
  | .ok () c, .ok released => .ok released (c, s)

def dispatchEach (listener : Listener (Consumer κ) σ ε) :
    List RebalanceEvent → EStateM ε (Consumer κ × σ) (List Partition)
  | [] => pure []
  | event :: rest => do
    -- it is taken off the queue first, so one that fails is not raised again
    modify fun (c, s) => ({ c with pending := rest }, s)
    let released ← dispatch listener event
    return released ++ (← dispatchEach listener rest)

def dispatchAll (listener : Listener (Consumer κ) σ ε) :
    EStateM ε (Consumer κ × σ) (List Partition) := do
  dispatchEach listener (← get).1.pending

/-! ### Polling -/

def pollClient (timeout : Nat) (c : Consumer κ) : Polled × Consumer κ :=
  let (polled, raised, client) := Client.poll timeout c.client
  (polled, raised.foldl raise { c with client })

def keep (released : List Partition) (records : List Record) : List Record :=
  records.filter (fun r => r.partition ∉ released)

/-- Polls for at most `room` records after those read so far, which come last one first. It stops
where the client has no message or partitions are given up; what was read of those is dropped, since
it belongs to their next owner. Only the first poll waits. -/
def pollUpTo (listener : Listener (Consumer κ) σ ε) :
    Nat → Nat → List Record → EStateM ε (Consumer κ × σ) (List Record)
  | 0, _, read => pure read.reverse
  | room + 1, timeout, read => do
    let (c, s) ← get
    let (polled, c) := pollClient timeout c
    set (c, s)
    match polled with
    | .failed e => throw (listener.refuse (.client Operation.poll.name e))
    | .nothing =>
      let released ← dispatchAll listener
      return (keep released read).reverse
    | .message m =>
      let released ← dispatchAll listener
      let read := Record.ofMessage m :: read
      if released = [] then pollUpTo listener room 0 read
      else return (keep released read).reverse

def poll (timeout : Nat) (listener : Listener (Consumer κ) σ ε) :
    EStateM ε (Consumer κ × σ) (List Record) := do
  pollUpTo listener (← get).1.maxRecords timeout []

/-! ### Questions to the brokers -/

def endOffsets : List Partition → EStateM BrokerError (Consumer κ) (List (Partition × Int64))
  | [] => pure []
  | p :: ps => do
    let o ← ask Operation.endOffsets.name (Client.endOffset (← get).timeout p)
    return (p, o) :: (← endOffsets ps)

def partitionsFor (topic : String) : EStateM BrokerError (Consumer κ) (List Partition) := do
  let topics ← ask Operation.partitionsFor.name (Client.metadata (← get).timeout topic)
  match topics.lookup topic with
  | none => throw (.unknownTopic topic)
  | some t =>
    match t.fault with
    | some code => throw (.rejected Operation.partitionsFor.name s!"{topic}: {code.message}")
    | none =>
      if t.numbers = [] then throw (.unknownTopic topic)
      else return t.numbers.map (fun n => ⟨topic, n⟩)

/-! ### Closing -/

def closingPollTime : Nat := 100

/-- Polls, up to the given number of times, until no partition is assigned any more. What it polls
is dropped. The number stands for a deadline: there is no clock here, so each poll counts for all of
its time, and those that return early would leave time for some more. -/
def awaitRelease : Nat → EStateM BrokerError (Consumer κ) Unit
  | 0 => discard (ask Operation.assignment.name Client.assignment)
  | polls + 1 => do
    let ps ← ask Operation.assignment.name Client.assignment
    unless ps = [] do
      modify fun c => (pollClient closingPollTime c).2
      awaitRelease polls

/-- Leaves the group, or gives up the partitions that were assigned by hand. The group has as many
polls to take the partitions back as fit into the timeout if none of them returns early. -/
def close : EStateM BrokerError (Consumer κ) Unit := do
  modify startClosing
  let c ← get
  if c.subscribed then
    set { c with client := Client.unsubscribe c.client }
    awaitRelease ((c.timeout + closingPollTime - 1) / closingPollTime)
  else ask Operation.close.name Client.unassign

end Consumer

instance {κ : Type} [Rebalancing κ] : Broker (Consumer κ) where
  subscribe topics := do
    Consumer.ask Operation.subscribe.name (Client.subscribe topics)
    modify fun c => { c with subscribed := true }
  assign ps := Consumer.ask Operation.assign.name (Client.assign ps)
  assignment := Consumer.ask Operation.assignment.name Client.assignment
  partitionsFor := Consumer.partitionsFor
  endOffsets ps := return PartitionMap.ofList (← Consumer.endOffsets ps)
  committed ps := do
    let stored ← Consumer.ask Operation.committed.name (Client.stored (← get).timeout ps)
    return PartitionMap.ofList (stored.filterMap fun e => e.2.map (fun o => (e.1, o)))
  pause ps := Consumer.ask Operation.pause.name (Client.pause ps)
  resume ps := Consumer.ask Operation.resume.name (Client.resume ps)
  commit := Consumer.commit
  poll := Consumer.poll
  close := Consumer.close

end AckRelay
