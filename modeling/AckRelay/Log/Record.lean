import AckRelay.Log.Position

namespace AckRelay

inductive Timestamp where
  | notAvailable
  | created (ms : Int64)
  | appended (ms : Int64)
  deriving DecidableEq, Repr

/-- The milliseconds of a time stamp. The value -1 stands for none as well. -/
def Timestamp.millis? : Timestamp → Option Int64
  | .notAvailable => none
  | .created ms | .appended ms => if ms = -1 then none else some ms

structure Message where
  partition : Partition
  offset : Int64
  timestamp : Timestamp
  key : Option (List UInt8)
  payload : Option (List UInt8)
  deriving DecidableEq, Repr

structure Record where
  partition : Partition
  offset : Int64
  timestamp : Int64
  value : List UInt8
  deriving DecidableEq, Repr

namespace Record

/-- Keeps of a message what the host cares about; no payload counts as an empty one. -/
def ofMessage (m : Message) : Record where
  partition := m.partition
  offset := m.offset
  timestamp := m.timestamp.millis?.getD (-1)
  value := m.payload.getD []

def position (r : Record) : Position := ⟨r.partition, r.offset⟩

def size (r : Record) : UInt64 := r.value.length.toUInt64

end Record

end AckRelay
