import AckRelay.Log.PartitionMap

/-!
Flow control over records that are delivered and not yet acknowledged. Each partition keeps the
sizes of its pending records in the order of their delivery, and an acknowledgement releases the
oldest one.

Partitions are paused and resumed at different thresholds, so that one near the limit does not
change its state all the time.
-/

namespace AckRelay

structure Thresholds where
  pauseMinMessages : Nat := 2
  pauseBytes : Nat := 1000000
  pauseMessages : Nat := 1000
  resumeBytes : Nat := 500000
  resumeMessages : Nat := 500
  deriving DecidableEq, Repr

def Backlog.total : List UInt64 → Nat
  | [] => 0
  | size :: sizes => size.toNat + Backlog.total sizes

structure Backlog where
  sizes : List UInt64 := []
  bytes : UInt64 := 0
  toNat_bytes : bytes.toNat = Backlog.total sizes := by rfl
  deriving DecidableEq, Repr

namespace Backlog

theorem total_cons (size : UInt64) (sizes : List UInt64) :
    total (size :: sizes) = size.toNat + total sizes := rfl

theorem total_append (sizes more : List UInt64) :
    total (sizes ++ more) = total sizes + total more := by
  induction sizes with
  | nil => exact (Nat.zero_add _).symm
  | cons size sizes ih => rw [List.cons_append, total_cons, total_cons, ih, Nat.add_assoc]

theorem total_concat (sizes : List UInt64) (size : UInt64) :
    total (sizes ++ [size]) = total sizes + size.toNat := total_append sizes [size]

def push? (b : Backlog) (size : UInt64) : Option Backlog :=
  if h : b.bytes.toNat + size.toNat < UInt64.size then
    some
      { sizes := b.sizes ++ [size]
        bytes := b.bytes + size
        toNat_bytes := by
          rw [total_concat, ← b.toNat_bytes, UInt64.toNat_add, Nat.mod_eq_of_lt h] }
  else none

def pop? : Backlog → Option Backlog
  | ⟨[], _, _⟩ => none
  | ⟨size :: rest, bytes, h⟩ =>
    some
      { sizes := rest
        bytes := bytes - size
        toNat_bytes := by
          rw [total_cons] at h
          have hle : size ≤ bytes := by
            rw [UInt64.le_iff_toNat_le]
            omega
          rw [UInt64.toNat_sub_of_le _ _ hle]
          omega }

def pending (b : Backlog) : Nat := b.sizes.length

end Backlog

structure Reconciliation where
  pause : List Partition
  resume : List Partition
  deriving DecidableEq, Repr

def Reconciliation.isEmpty (r : Reconciliation) : Bool := r.pause.isEmpty && r.resume.isEmpty

structure FlowControl where
  thresholds : Thresholds := {}
  backlogs : PartitionMap Backlog := ∅
  paused : PartitionSet := ∅
  released : PartitionSet := ∅

namespace FlowControl

/-- Counts a record as pending. There is no flow control after one whose size does not fit into the
sum: the program does not survive it. -/
def deliver? (f : FlowControl) (p : Partition) (size : UInt64) : Option FlowControl := do
  let b ← ((f.backlogs.get? p).getD {}).push? size
  some { f with released := f.released.erase p, backlogs := f.backlogs.insert p b }

def acknowledge? (f : FlowControl) (p : Partition) : Option FlowControl := do
  let b ← (← f.backlogs.get? p).pop?
  some { f with backlogs := f.backlogs.insert p b }

def isTracked (f : FlowControl) (p : Partition) : Bool := f.backlogs.contains p

def wasReleased (f : FlowControl) (p : Partition) : Bool := f.released.contains p

def isPaused (f : FlowControl) (p : Partition) : Bool := f.paused.contains p

def pending (f : FlowControl) (p : Partition) : Nat :=
  (f.backlogs.get? p).elim 0 Backlog.pending

def pendingBytes (f : FlowControl) (p : Partition) : Nat :=
  (f.backlogs.get? p).elim 0 (fun b => b.bytes.toNat)

def shouldPause (f : FlowControl) (p : Partition) : Bool :=
  let t := f.thresholds
  decide (t.pauseMinMessages ≤ f.pending p) &&
    (decide (t.pauseBytes ≤ f.pendingBytes p) || decide (t.pauseMessages ≤ f.pending p))

def shouldResume (f : FlowControl) (p : Partition) : Bool :=
  let t := f.thresholds
  decide (f.pending p < t.pauseMinMessages) ||
    (decide (f.pendingBytes p ≤ t.resumeBytes) && decide (f.pending p ≤ t.resumeMessages))

/-- Decides the state of each of the partitions in turn. Gives those that are to be paused and those
that are to be resumed, last one first. -/
def decideEach : List Partition → Reconciliation → FlowControl → Reconciliation × FlowControl
  | [], r, f => (r, f)
  | p :: ps, r, f =>
    if f.isPaused p then
      if f.shouldResume p then
        decideEach ps { r with resume := p :: r.resume } { f with paused := f.paused.erase p }
      else decideEach ps r f
    else if f.shouldPause p then
      decideEach ps { r with pause := p :: r.pause } { f with paused := f.paused.insert p () }
    else decideEach ps r f

/-- Decides which of the assigned partitions change their state. Partitions that are not assigned
keep theirs. -/
def reconcile (assigned : List Partition) (f : FlowControl) : Reconciliation × FlowControl :=
  let (r, f) := decideEach assigned ⟨[], []⟩ f
  (⟨Partition.sort r.pause, Partition.sort r.resume⟩, f)

def removeOne (f : FlowControl) (p : Partition) : FlowControl :=
  { f with
    released := f.released.insert p ()
    backlogs := f.backlogs.erase p
    paused := f.paused.erase p }

def remove (ps : List Partition) (f : FlowControl) : FlowControl := ps.foldl removeOne f

end FlowControl

end AckRelay
