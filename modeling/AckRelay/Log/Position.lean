import AckRelay.Log.Partition

namespace AckRelay

/-- The offset after another. The greatest offset has no successor and stands for its own. -/
def nextOffset (o : Int64) : Int64 :=
  if o = Int64.maxValue then o else o + 1

def nextOffset? (o : Int64) : Option Int64 :=
  if o = Int64.maxValue then none else some (o + 1)

def isCommittable (o : Int64) : Bool := decide (0 ≤ o) && decide (o < Int64.maxValue)

/-- An offset within a partition. As an acknowledgement it means that every record up to and
including it is processed; as an end of the log it is the first offset past the last record. -/
structure Position where
  partition : Partition
  offset : Int64
  deriving DecidableEq, Repr

namespace Position

instance : LT Position where
  lt a b := a.partition < b.partition ∨ a.partition = b.partition ∧ a.offset < b.offset

instance (a b : Position) : Decidable (a < b) :=
  inferInstanceAs
    (Decidable (a.partition < b.partition ∨ a.partition = b.partition ∧ a.offset < b.offset))

def next (p : Position) : Position :=
  { p with offset := nextOffset p.offset }

def display (p : Position) : String :=
  p.partition.display ++ "@" ++ toString p.offset.toInt

end Position

end AckRelay
