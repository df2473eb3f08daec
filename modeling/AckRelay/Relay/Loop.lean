import AckRelay.Relay.Desk

/-!
The relay. In each turn it obeys the commands that have come, pauses and resumes partitions, commits
if that is due, polls the broker, and hands the records to the host. Every error ends it.
-/

namespace AckRelay

structure RelaySettings where
  topics : List String
  /-- The group; without one the relay takes all partitions and commits nothing. -/
  group : Option String
  /-- How long a poll waits, in milliseconds. -/
  pollTimeout : Nat
  /-- The time between two commits, in milliseconds. -/
  commitInterval : Nat
  thresholds : Thresholds := {}
  deriving DecidableEq, Repr

inductive Phase where
  | starting
  | consuming
  | stopped
  deriving DecidableEq, Repr

inductive Flow where
  | goOn
  | stop
  deriving DecidableEq, Repr

structure Relay (β ν : Type) where
  broker : β
  desk : Desk ν
  topics : List String
  pollTimeout : Nat
  phase : Phase := .starting
  queue : List Command := []
  /-- The time, in milliseconds. -/
  now : Nat := 0

structure Turn where
  /-- The time that passes, in milliseconds. -/
  elapsed : Nat := 0
  arrivals : List Command := []
  deriving DecidableEq, Repr

inductive Ending where
  | stopped
  | failed (e : RelayError)
  | crashed
  | running
  deriving DecidableEq, Repr

def Halt.ending : Halt → Ending
  | .failed e => .failed e
  | .crashed => .crashed

namespace Relay

variable {β ν : Type}

def create (settings : RelaySettings) (broker : β) (notifier : ν) (now : Nat) : Relay β ν where
  broker
  desk :=
    { mode :=
        match settings.group with
        | some _ => .grouped (.start settings.commitInterval now)
        | none => .anonymous .disabled
      notifier
      flow := { thresholds := settings.thresholds } }
  topics := settings.topics
  pollTimeout := settings.pollTimeout
  now

def ask {α : Type} (op : EStateM BrokerError β α) : EStateM Halt (Relay β ν) α := fun r =>
  match op r.broker with
  | .ok a b => .ok a { r with broker := b }
  | .error e b => .error (.failed (.broker e)) { r with broker := b }

def tell [Notifier ν] (n : Notification) : EStateM Halt (Relay β ν) Unit := fun r =>
  match Desk.tell n r.desk with
  | .ok () d => .ok () { r with desk := d }
  | .error e d => .error (.failed e) { r with desk := d }

def setMode (mode : Mode) (r : Relay β ν) : Relay β ν := { r with desk := { r.desk with mode } }

def setFlow (flow : FlowControl) (r : Relay β ν) : Relay β ν :=
  { r with desk := { r.desk with flow } }

def measure (f : Metrics → Metrics) : EStateM Halt (Relay β ν) Unit :=
  modify fun r => { r with desk := { r.desk with metrics := f r.desk.metrics } }

variable [Broker β] [Notifier ν]

def partitionsOf : List String → EStateM Halt (Relay β ν) (List Partition)
  | [] => pure []
  | topic :: topics => do
    let ps ← ask (Broker.partitionsFor topic)
    return ps ++ (← partitionsOf topics)

def startAnonymous : EStateM Halt (Relay β ν) Unit := do
  let ps ← partitionsOf (← get).topics
  ask (Broker.assign ps)
  let ends ← ask (Broker.endOffsets ps)
  tell (.assigned ps)
  let (caughtUp, catchUp) := (CatchUp.ofEnds ends).takeCaughtUp
  modify (setMode (.anonymous catchUp))
  if caughtUp then tell .caughtUp
  modify fun r => { r with phase := .consuming }

/-- Starts to consume. A member of a group only subscribes; its partitions come with a poll. -/
def start : EStateM Halt (Relay β ν) Unit := do
  let r ← get
  match r.desk.mode with
  | .grouped _ => ask (Broker.subscribe r.topics)
  | .anonymous _ => startAnonymous

def flush (forced : Bool) : EStateM Halt (Relay β ν) Unit := do
  let r ← get
  match r.desk.mode with
  | .anonymous _ => pure ()
  | .grouped batch =>
    let (outcome, batch, broker) := batch.flush Broker.commit forced r.now r.broker
    set { r.setMode (.grouped batch) with broker }
    measure (·.addCommit (if forced then .forced else .interval) outcome)
    match outcome with
    | .failed e => throw (.failed (.broker e))
    | .idle | .committed => pure ()

def releaseOldest (p : Partition) : EStateM Halt (Relay β ν) Unit := do
  match (← get).desk.flow.acknowledge? p with
  | some flow => modify (setFlow flow)
  | none => throw (.failed (.protocolViolation p))

/-- Takes an acknowledgement. A group ignores one for a partition that was given up meanwhile. -/
def acknowledge (position : Position) : EStateM Halt (Relay β ν) Unit := do
  let r ← get
  match r.desk.mode with
  | .grouped batch =>
    if r.desk.flow.wasReleased position.partition then
      measure (·.increment .staleAcknowledgements)
    else
      releaseOldest position.partition
      modify (setMode (.grouped (batch.record position.partition position.offset)))
  | .anonymous catchUp =>
    releaseOldest position.partition
    let (caughtUp, catchUp) := catchUp.acknowledge position
    modify (setMode (.anonymous catchUp))
    if caughtUp then tell .caughtUp

def reportCommitted : EStateM Halt (Relay β ν) Unit := do
  let ps ← ask Broker.assignment
  let offsets ← ask (Broker.committed ps)
  tell (.ofOffsets offsets)

def stop : EStateM Halt (Relay β ν) Unit := do
  flush true
  ask Broker.close
  modify fun r => { r with phase := .stopped }

def obey (command : Command) : EStateM Halt (Relay β ν) Flow := do
  measure (·.increment (.commandsApplied command.kind))
  match command with
  | .ack position => acknowledge position; return .goOn
  | .committedOffsets => reportCommitted; return .goOn
  | .stop => stop; return .stop
  | .unrecognized raw => throw (.failed (.unknownCommand raw))

/-- Obeys commands in order. Those after a stop or an error are never looked at. -/
def obeyAll : List Command → EStateM Halt (Relay β ν) Flow
  | [] => pure .goOn
  | command :: commands => do
    match ← obey command with
    | .stop => return .stop
    | .goOn => obeyAll commands

def balance : EStateM Halt (Relay β ν) Unit := do
  let ps ← ask Broker.assignment
  let (changes, flow) := (← get).desk.flow.reconcile ps
  -- flow control keeps its decision even if the broker fails to follow it
  modify (setFlow flow)
  unless changes.pause = [] do
    ask (Broker.pause changes.pause)
    measure (·.add .partitionsPaused changes.pause.length)
  unless changes.resume = [] do
    ask (Broker.resume changes.resume)
    measure (·.add .partitionsResumed changes.resume.length)
  unless changes.isEmpty do
    measure fun m => { m with pausedPartitions := some flow.paused.size }

def poll : EStateM Halt (Relay β ν) (List Record) := fun r =>
  match Broker.poll r.pollTimeout Desk.listener (r.broker, r.desk) with
  | .ok rs (b, d) => .ok rs { r with broker := b, desk := d }
  | .error e (b, d) => .error (.failed e) { r with broker := b, desk := d }

def announce : EStateM Halt (Relay β ν) Unit := do
  if (← get).phase = .starting then
    let ps ← ask Broker.assignment
    unless ps = [] do
      tell .consuming
      modify fun r => { r with phase := .consuming }

def track (record : Record) : EStateM Halt (Relay β ν) Unit := do
  match (← get).desk.flow.deliver? record.partition record.size with
  | some flow => modify (setFlow flow)
  | none => throw .crashed

def deliverAll : List Record → EStateM Halt (Relay β ν) Unit
  | [] => pure ()
  | record :: records => do
    tell (.record record)
    -- a record counts only when the host has it
    track record
    deliverAll records

def deliver (records : List Record) : EStateM Halt (Relay β ν) Unit := do
  unless records = [] do
    measure fun m => { m with batches := records.length :: m.batches }
    deliverAll records
    measure (·.add .recordsDelivered records.length)

/-- One turn. It ends early when the relay is told to stop. -/
def turn : EStateM Halt (Relay β ν) Flow := do
  let commands := (← get).queue
  -- commands that come from now on wait for the next turn
  modify fun r => { r with queue := [] }
  match ← obeyAll commands with
  | .stop => return .stop
  | .goOn =>
    balance
    flush false
    let records ← poll
    announce
    deliver records
    return .goOn

def await (t : Turn) (r : Relay β ν) : Relay β ν :=
  { r with now := r.now + t.elapsed, queue := r.queue ++ t.arrivals }

def turns : List Turn → Relay β ν → Ending × Relay β ν
  | [], r => (.running, r)
  | t :: ts, r =>
    match turn (r.await t) with
    | .ok .goOn r => turns ts r
    | .ok .stop r => (.stopped, r)
    | .error h r => (h.ending, r)

def afterError (e : RelayError) (r : Relay β ν) : Relay β ν :=
  { r with
    phase := .stopped
    desk := { r.desk with metrics := r.desk.metrics.increment (.fatalErrors e.kind) } }

def settle : Ending × Relay β ν → Ending × Relay β ν
  | (.failed e, r) => (.failed e, r.afterError e)
  | (ending, r) => (ending, r)

def resume (ts : List Turn) (r : Relay β ν) : Ending × Relay β ν := settle (turns ts r)

def run (ts : List Turn) (r : Relay β ν) : Ending × Relay β ν :=
  match start r with
  | .error h r => settle (h.ending, r)
  | .ok () r => resume ts r

end Relay

end AckRelay
