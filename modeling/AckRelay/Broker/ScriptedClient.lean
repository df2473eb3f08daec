import AckRelay.Broker.Client

namespace AckRelay

structure ClientStep where
  polled : Polled
  raised : List RebalanceEvent := []
  deriving DecidableEq, Repr

structure ScriptedClient where
  script : List ClientStep := []
  assigned : List Partition := []
  cooperative : Bool := true
  fault : Option ClientError := none
  /-- How long each poll was to wait, last one first. -/
  waits : List Nat := []
  /-- What was to be stored, last one first. -/
  stored : List (List Position) := []
  deriving DecidableEq, Repr

namespace ScriptedClient

def check : EStateM ClientError ScriptedClient Unit := fun c =>
  match c.fault with
  | some e => .error e c
  | none => .ok () c

def reassign (f : List Partition → List Partition) : EStateM ClientError ScriptedClient Unit := do
  check
  modify fun c => { c with assigned := f c.assigned }

end ScriptedClient

instance : GroupClient ScriptedClient where
  subscribe _ := pure ()
  unsubscribe c := c
  assign ps := ScriptedClient.reassign fun _ => ps
  unassign := ScriptedClient.reassign fun _ => []
  assignment := return (← get).assigned
  pause _ := pure ()
  resume _ := pure ()
  store positions := do
    modify fun c => { c with stored := positions :: c.stored }
    ScriptedClient.check
  stored _ ps := return ps.map (fun p => (p, none))
  endOffset _ _ := return 0
  metadata _ _ := return []
  poll timeout c :=
    let c := { c with waits := timeout :: c.waits }
    match c.script with
    | [] => (.nothing, [], c)
    | step :: rest => (step.polled, step.raised, { c with script := rest })
  cooperative c := c.cooperative
  incrementalAssign ps := ScriptedClient.reassign (· ++ ps)
  incrementalUnassign ps := ScriptedClient.reassign (·.filter (fun p => p ∉ ps))

end AckRelay
