import AckRelay.Host.Command

namespace AckRelay

structure Channel where
  senders : Nat := 1
  /-- What was sent and not yet taken; nothing, once there is nobody left to take it. -/
  queued : Option (List Command) := some []
  deriving DecidableEq, Repr

namespace Channel

def clone (c : Channel) : Channel :=
  if c.senders = 0 then c else { c with senders := c.senders + 1 }

def send (i : Nat) (command : Command) (c : Channel) : Channel :=
  if i < c.senders then { c with queued := c.queued.map (· ++ [command]) } else c

def drain (c : Channel) : Option (List Command) × Channel :=
  (c.queued, { c with queued := c.queued.map (fun _ => []) })

def close (c : Channel) : Channel := { c with queued := none }

def dropSenders (c : Channel) : Channel := { c with senders := 0 }

end Channel

end AckRelay
