import AckRelay.Log.PartitionMap
import AckRelay.Log.Position

/-!
When an anonymous consumer has read all that there was when it started. The end of each partition at
that time is a target, and it is reached by acknowledging the record right before it.
-/

namespace AckRelay

/-- The targets that are not yet reached; none, when nothing is waited for. -/
structure CatchUp where
  targets : Option Offsets := none

namespace CatchUp

def disabled : CatchUp := {}

/-- Waits for the given ends. Of an empty partition there is nothing to read. -/
def ofEnds (ends : Offsets) : CatchUp :=
  ⟨some (PartitionMap.ofList (ends.entries.filter (fun e => 0 < e.2)))⟩

def isActive (c : CatchUp) : Bool := c.targets.isSome

def remaining (c : CatchUp) : Nat := c.targets.elim 0 PartitionMap.size

def acknowledge (c : CatchUp) (position : Position) : Bool × CatchUp :=
  match c.targets with
  | none => (false, c)
  | some targets =>
    let next := position.next
    if targets.get? next.partition = some next.offset then
      let left := targets.erase next.partition
      if left.isEmpty then (true, disabled) else (false, ⟨some left⟩)
    else (false, c)

def takeCaughtUp (c : CatchUp) : Bool × CatchUp :=
  if c.targets.any PartitionMap.isEmpty then (true, disabled) else (false, c)

end CatchUp

end AckRelay
