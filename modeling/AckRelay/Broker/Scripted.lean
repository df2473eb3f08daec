import AckRelay.Broker.Interface

namespace AckRelay

inductive PollStep where
  | records (rs : List Record)
  | rebalance (change : Rebalance)
  | failed
  deriving DecidableEq, Repr

inductive Call where
  | subscribe (topics : List String)
  | partitionsFor (topic : String)
  | assign (partitions : List Partition)
  | endOffsets (partitions : List Partition)
  | assignment
  | pause (partitions : List Partition)
  | resume (partitions : List Partition)
  | commit (offsets : Offsets) (accepted : Bool)
  | committed (partitions : List Partition)
  | poll (timeout : Nat)
  | close
  | handOver (offsets : Offsets) (accepted : Bool)

namespace Call

/-- The operation that a call is one of. A commit from within a poll is none of its own. -/
def operation? : Call → Option Operation
  | .subscribe _ => some .subscribe
  | .partitionsFor _ => some .partitionsFor
  | .assign _ => some .assign
  | .endOffsets _ => some .endOffsets
  | .assignment => some .assignment
  | .pause _ => some .pause
  | .resume _ => some .resume
  | .commit _ _ => some .commit
  | .committed _ => some .committed
  | .poll _ => some .poll
  | .close => some .close
  | .handOver _ _ => none

def accepted? : Call → Option Offsets
  | .commit offsets true | .handOver offsets true => some offsets
  | _ => none

end Call

structure ScriptedBroker where
  topics : List (String × List Int64) := []
  script : List PollStep := []
  finite : Bool := false
  assignment : List Partition := []
  paused : PartitionSet := ∅
  positions : Offsets := ∅
  refusesCommits : Bool := false
  faults : List Operation := []
  closed : Bool := false
  /-- Every call so far, last one first. -/
  log : List Call := []

namespace ScriptedBroker

def calls (b : ScriptedBroker) : List Call := b.log.reverse

def commits (b : ScriptedBroker) : List Offsets := b.calls.filterMap Call.accepted?

def withTopic (b : ScriptedBroker) (name : String) (ends : List Int64) : ScriptedBroker :=
  { b with topics := (name, ends) :: b.topics.filter (fun t => t.1 ≠ name) }

def push (b : ScriptedBroker) (step : PollStep) : ScriptedBroker :=
  { b with script := b.script ++ [step] }

def ends? (b : ScriptedBroker) (topic : String) : Option (List Int64) := b.topics.lookup topic

def endOffset? (b : ScriptedBroker) (p : Partition) : Option Int64 := do
  let ends ← b.ends? p.topic
  if p.number < 0 then none else ends[p.number.toInt.toNat]?

/-- The partitions of a topic by their numbers. The count is cut to the width of a number, and one
that comes out negative gives none. -/
def numbered (topic : String) (count : Nat) : List Partition :=
  (List.range (Int32.ofNat count).toNatClampNeg).map (fun i => ⟨topic, Int32.ofNat i⟩)

def note (call : Call) : EStateM BrokerError ScriptedBroker Unit := fun b =>
  let b := { b with log := call :: b.log }
  match call.operation? with
  | none => .ok () b
  | some o => if o ∈ b.faults then .error (.rejected o.name "fault") b else .ok () b

def store (offsets : Offsets) (b : ScriptedBroker) : ScriptedBroker :=
  { b with
    positions := offsets.entries.foldl (fun m e => m.insert e.1 (e.2 + 1)) b.positions }

def haveNext (offsets : Offsets) : Bool := offsets.entries.all fun e => (nextOffset? e.2).isSome

/-- Commits offsets, or refuses them; `call` makes the note of it. -/
def commitAs (call : Bool → Call) (offsets : Offsets) : EStateM BrokerError ScriptedBroker Unit :=
  fun b =>
    let accepted :=
      !b.refusesCommits && haveNext offsets && !(call true).operation?.any (· ∈ b.faults)
    match note (call accepted) b with
    | .error e b => .error e b
    | .ok () b =>
      if b.refusesCommits then
        .error (.rejected Operation.commit.name "commits disabled for test") b
      else if haveNext offsets then .ok () (b.store offsets)
      else .error (.rejected Operation.commit.name "attempt to add with overflow") b

def commit (offsets : Offsets) : EStateM BrokerError ScriptedBroker Unit :=
  commitAs (.commit offsets) offsets

def handOver (offsets : Offsets) : EStateM BrokerError ScriptedBroker Unit :=
  commitAs (.handOver offsets) offsets

def release (ps : List Partition) (b : ScriptedBroker) : ScriptedBroker :=
  { b with
    assignment := b.assignment.filter (fun p => p ∉ ps)
    paused := ps.foldl PartitionMap.erase b.paused }

def complete (b : ScriptedBroker) : Rebalance → ScriptedBroker
  | .assigned ps => { b with assignment := b.assignment ++ ps }
  | .revoked ps | .lost ps => b.release ps

/-- Tells the listener of a rebalance and then completes it. If the listener fails it stays
incomplete. -/
def rebalance {σ ε : Type} (listener : Listener ScriptedBroker σ ε) (change : Rebalance) :
    EStateM ε (ScriptedBroker × σ) (List Record) := fun w =>
  match listener.notify handOver change w with
  | .ok () (b, s) => .ok [] (b.complete change, s)
  | .error e w => .error e w

def poll {σ ε : Type} (timeout : Nat) (listener : Listener ScriptedBroker σ ε) :
    EStateM ε (ScriptedBroker × σ) (List Record) := fun (b, s) =>
  match note (.poll timeout) b with
  | .error e b => .error (listener.refuse e) (b, s)
  | .ok () b =>
    match b.script with
    | [] =>
      if b.finite then
        .error (listener.refuse (.rejected Operation.poll.name "script exhausted")) (b, s)
      else .ok [] (b, s)
    | step :: rest =>
      -- the step is spent even if the listener fails
      let b := { b with script := rest }
      match step with
      | .records rs => .ok rs (b, s)
      | .rebalance change => rebalance listener change (b, s)
      | .failed => rebalance listener (.lost b.assignment) (b, s)

end ScriptedBroker

instance : Broker ScriptedBroker where
  subscribe topics := ScriptedBroker.note (.subscribe topics)
  assign ps := do
    ScriptedBroker.note (.assign ps)
    modify (fun b => { b with assignment := ps })
  assignment := do
    ScriptedBroker.note .assignment
    return (← get).assignment
  partitionsFor topic := do
    ScriptedBroker.note (.partitionsFor topic)
    match (← get).ends? topic with
    | some ends => return ScriptedBroker.numbered topic ends.length
    | none => throw (.unknownTopic topic)
  endOffsets ps := do
    ScriptedBroker.note (.endOffsets ps)
    let b ← get
    let entries ← ps.mapM fun p =>
      match b.endOffset? p with
      | some o => pure (p, o)
      | none => throw (.unknownTopic p.topic)
    return PartitionMap.ofList entries
  committed ps := do
    ScriptedBroker.note (.committed ps)
    let b ← get
    return PartitionMap.ofList (ps.filterMap (fun p => (b.positions.get? p).map (fun o => (p, o))))
  pause ps := do
    ScriptedBroker.note (.pause ps)
    modify (fun b => { b with paused := ps.foldl (fun m p => m.insert p ()) b.paused })
  resume ps := do
    ScriptedBroker.note (.resume ps)
    modify (fun b => { b with paused := ps.foldl PartitionMap.erase b.paused })
  commit := ScriptedBroker.commit
  poll := ScriptedBroker.poll
  close := do
    ScriptedBroker.note .close
    modify (fun b => { b with closed := true })

end AckRelay
