import AckRelay.Log.Record
import AckRelay.Proofs.PartitionMap
import AckRelay.Relay.FlowControl

namespace AckRelay

namespace Backlog

variable {b c : Backlog} {size : UInt64}

/-- The sizes of the records determine the sum that is kept along. -/
theorem eq_of_sizes (h : b.sizes = c.sizes) : b = c := by
  obtain ⟨sizes, bytes, hb⟩ := b
  obtain ⟨_, other, hc⟩ := c
  obtain rfl : sizes = _ := h
  obtain rfl : bytes = other := UInt64.toNat_inj.1 (hb.trans hc.symm)
  rfl

theorem push?_eq_some_iff :
    b.push? size = some c ↔
      total b.sizes + size.toNat < UInt64.size ∧ c.sizes = b.sizes ++ [size] := by
  rw [← b.toNat_bytes, push?]
  split
  · next hfits =>
    rw [Option.some_inj, and_iff_right hfits]
    exact ⟨fun h => h ▸ rfl, fun h => eq_of_sizes h.symm⟩
  · next hfull => simp [hfull]

theorem pop?_eq_some_iff : b.pop? = some c ↔ ∃ size, b.sizes = size :: c.sizes := by
  obtain ⟨_ | ⟨size, rest⟩, bytes, hb⟩ := b
  · simp [pop?]
  · rw [pop?, Option.some_inj]
    constructor
    · rintro rfl
      exact ⟨size, rfl⟩
    · rintro ⟨_, h⟩
      exact eq_of_sizes (List.cons.inj h).2

theorem pop?_eq_none_iff : b.pop? = none ↔ b.sizes = [] := by
  obtain ⟨_ | ⟨size, rest⟩, bytes, hb⟩ := b <;> simp [pop?]

end Backlog

namespace FlowControl

variable {f g : FlowControl} {p q : Partition}

theorem wasReleased_iff : f.wasReleased p = (f.released.get? p).isSome := rfl

theorem isTracked_iff : f.isTracked p = (f.backlogs.get? p).isSome := rfl

theorem isPaused_iff : f.isPaused p = (f.paused.get? p).isSome := rfl

def sizes (f : FlowControl) (p : Partition) : List UInt64 :=
  (f.backlogs.get? p).elim [] Backlog.sizes

theorem sizes_eq (f : FlowControl) (p : Partition) :
    f.sizes p = ((f.backlogs.get? p).getD {}).sizes := by
  rw [sizes]
  cases f.backlogs.get? p <;> rfl

theorem pending_eq_length (f : FlowControl) (p : Partition) :
    f.pending p = (f.sizes p).length := by
  rw [pending, sizes]
  cases f.backlogs.get? p <;> rfl

/-- The bytes that are kept along are those of the pending records. -/
theorem pendingBytes_eq_total (f : FlowControl) (p : Partition) :
    f.pendingBytes p = Backlog.total (f.sizes p) := by
  rw [pendingBytes, sizes]
  cases f.backlogs.get? p with
  | none => rfl
  | some b => exact b.toNat_bytes

theorem pendingBytes_eq_zero (h : f.pending p = 0) : f.pendingBytes p = 0 := by
  rw [pending_eq_length, List.length_eq_zero_iff] at h
  rw [pendingBytes_eq_total, h]
  rfl

theorem tracked_of_pending (h : 0 < f.pending p) : f.isTracked p = true := by
  rw [isTracked_iff]
  cases hb : f.backlogs.get? p with
  | none => simp [pending, hb] at h
  | some b => rfl

section Deliver

variable {size : UInt64}

theorem deliver?_eq_some_iff :
    f.deliver? p size = some g ↔ ∃ b, ((f.backlogs.get? p).getD {}).push? size = some b ∧
      g = { f with released := f.released.erase p, backlogs := f.backlogs.insert p b } := by
  simp only [deliver?, Option.bind_eq_bind, Option.bind_eq_some_iff, Option.some.injEq,
    @eq_comm _ g]

/-- There is room for a record exactly if its size and those that are pending fit into a word. -/
theorem exists_deliver_iff :
    (∃ g, f.deliver? p size = some g) ↔
      Backlog.total (f.sizes p) + size.toNat < UInt64.size := by
  rw [sizes_eq]
  constructor
  · rintro ⟨g, h⟩
    obtain ⟨b, hb, -⟩ := deliver?_eq_some_iff.1 h
    exact (Backlog.push?_eq_some_iff.1 hb).1
  · intro hfits
    rw [← Backlog.toNat_bytes] at hfits
    exact ⟨_, deliver?_eq_some_iff.2 ⟨_, dif_pos hfits, rfl⟩⟩

variable (h : f.deliver? p size = some g)
include h

theorem sizes_deliver (q : Partition) :
    g.sizes q = f.sizes q ++ if p = q then [size] else [] := by
  obtain ⟨b, hb, rfl⟩ := deliver?_eq_some_iff.1 h
  obtain ⟨-, hsizes⟩ := Backlog.push?_eq_some_iff.1 hb
  rw [← sizes_eq] at hsizes
  by_cases hq : p = q
  · subst hq
    rw [if_pos rfl, ← hsizes, sizes, PartitionMap.get?_insert, if_pos rfl]
    rfl
  · rw [if_neg hq, List.append_nil, sizes, PartitionMap.get?_insert, if_neg hq]
    rfl

theorem pending_deliver (q : Partition) : g.pending q = f.pending q + if p = q then 1 else 0 := by
  rw [pending_eq_length, pending_eq_length, sizes_deliver h, List.length_append]
  split <;> rfl

theorem isTracked_deliver (q : Partition) :
    g.isTracked q = (decide (p = q) || f.isTracked q) := by
  obtain ⟨b, -, rfl⟩ := deliver?_eq_some_iff.1 h
  simp [isTracked, PartitionMap.contains_insert]

theorem wasReleased_deliver (q : Partition) :
    g.wasReleased q = (decide (p ≠ q) && f.wasReleased q) := by
  obtain ⟨b, -, rfl⟩ := deliver?_eq_some_iff.1 h
  simp [wasReleased, PartitionMap.contains_erase]

theorem deliver_eq : g.thresholds = f.thresholds ∧ g.paused = f.paused := by
  obtain ⟨b, -, rfl⟩ := deliver?_eq_some_iff.1 h
  exact ⟨rfl, rfl⟩

end Deliver

section DeliverEach

variable {rs : List Record}

def deliverEach? (f : FlowControl) (rs : List Record) : Option FlowControl :=
  rs.foldlM (fun f record => f.deliver? record.partition record.size) f

theorem deliverEach?_cons {record : Record} :
    f.deliverEach? (record :: rs) = some g ↔
      ∃ next, f.deliver? record.partition record.size = some next ∧
        next.deliverEach? rs = some g := by
  rw [deliverEach?, List.foldlM_cons, Option.bind_eq_bind, Option.bind_eq_some_iff]
  rfl

variable (h : f.deliverEach? rs = some g)
include h

/-- Each record adds one to its own partition and leaves the others. -/
theorem pending_deliverEach (q : Partition) :
    g.pending q = f.pending q + rs.countP (·.partition = q) := by
  induction rs generalizing f with
  | nil =>
    cases h
    rfl
  | cons record rs ih =>
    obtain ⟨next, hnext, hrest⟩ := deliverEach?_cons.1 h
    rw [ih hrest, pending_deliver hnext, List.countP_cons]
    by_cases hq : record.partition = q
    · simp [hq]
      omega
    · simp [hq]

theorem isTracked_deliverEach (q : Partition) :
    g.isTracked q = (decide (∃ record ∈ rs, record.partition = q) || f.isTracked q) := by
  induction rs generalizing f with
  | nil =>
    cases h
    simp
  | cons record rs ih =>
    obtain ⟨next, hnext, hrest⟩ := deliverEach?_cons.1 h
    rw [ih hrest, isTracked_deliver hnext]
    by_cases hq : record.partition = q <;> simp [hq]

theorem wasReleased_deliverEach (q : Partition) :
    g.wasReleased q = (decide (∀ record ∈ rs, record.partition ≠ q) && f.wasReleased q) := by
  induction rs generalizing f with
  | nil =>
    cases h
    simp
  | cons record rs ih =>
    obtain ⟨next, hnext, hrest⟩ := deliverEach?_cons.1 h
    rw [ih hrest, wasReleased_deliver hnext]
    by_cases hq : record.partition = q <;> simp [hq]

theorem deliverEach_eq : g.thresholds = f.thresholds ∧ g.paused = f.paused := by
  induction rs generalizing f with
  | nil =>
    cases h
    exact ⟨rfl, rfl⟩
  | cons record rs ih =>
    obtain ⟨next, hnext, hrest⟩ := deliverEach?_cons.1 h
    obtain ⟨hthresholds, hpaused⟩ := ih hrest
    obtain ⟨hfirst, hfirst'⟩ := deliver_eq hnext
    exact ⟨hthresholds.trans hfirst, hpaused.trans hfirst'⟩

end DeliverEach

section Acknowledge

theorem acknowledge?_eq_some_iff :
    f.acknowledge? p = some g ↔ ∃ b c, f.backlogs.get? p = some b ∧ b.pop? = some c ∧
      g = { f with backlogs := f.backlogs.insert p c } := by
  simp only [acknowledge?, Option.bind_eq_bind, Option.bind_eq_some_iff, Option.some.injEq,
    exists_and_left, @eq_comm _ g]

/-- There is no record to release exactly if none is pending. -/
theorem acknowledge?_eq_none_iff : f.acknowledge? p = none ↔ f.pending p = 0 := by
  rw [acknowledge?, pending_eq_length, sizes, List.length_eq_zero_iff]
  cases f.backlogs.get? p with
  | none => simp
  | some b =>
    have hpop : b.pop? = none ↔ b.sizes = [] := Backlog.pop?_eq_none_iff
    cases hb : b.pop? <;> simp_all

/-- An acknowledgement releases the oldest record. -/
theorem sizes_acknowledge (h : f.acknowledge? p = some g) :
    ∃ size, f.sizes p = size :: g.sizes p ∧ ∀ q, p ≠ q → g.sizes q = f.sizes q := by
  obtain ⟨b, c, hb, hc, rfl⟩ := acknowledge?_eq_some_iff.1 h
  obtain ⟨size, hsizes⟩ := Backlog.pop?_eq_some_iff.1 hc
  refine ⟨size, ?_, fun q hq => ?_⟩
  · simp [sizes, PartitionMap.get?_insert, hb, hsizes]
  · simp [sizes, PartitionMap.get?_insert, hq]

theorem pending_acknowledge (h : f.acknowledge? p = some g) (q : Partition) :
    f.pending q = g.pending q + if p = q then 1 else 0 := by
  obtain ⟨size, holdest, hothers⟩ := sizes_acknowledge h
  rw [pending_eq_length, pending_eq_length]
  by_cases hq : p = q
  · subst hq
    rw [if_pos rfl, holdest, List.length_cons]
  · rw [if_neg hq, hothers q hq, Nat.add_zero]

theorem isTracked_acknowledge (h : f.acknowledge? p = some g) (q : Partition) :
    g.isTracked q = f.isTracked q := by
  obtain ⟨b, c, hb, -, rfl⟩ := acknowledge?_eq_some_iff.1 h
  rw [isTracked_iff, isTracked_iff, PartitionMap.get?_insert]
  by_cases hq : p = q
  · subst hq
    simp [hb]
  · simp [hq]

/-- Releasing a record changes nothing but the backlogs. -/
theorem acknowledge_eq (h : f.acknowledge? p = some g) :
    g.thresholds = f.thresholds ∧ g.paused = f.paused ∧ g.released = f.released := by
  obtain ⟨b, c, -, -, rfl⟩ := acknowledge?_eq_some_iff.1 h
  exact ⟨rfl, rfl, rfl⟩

/-- Records of two partitions, or two of one, are released in either order. -/
theorem acknowledge?_comm (hp : f.acknowledge? p = some g) (hq : g.acknowledge? q = some h) :
    ∃ k, f.acknowledge? q = some k ∧ k.acknowledge? p = some h := by
  by_cases hpq : p = q
  · subst hpq
    exact ⟨g, hp, hq⟩
  · obtain ⟨b, c, hb, hc, rfl⟩ := acknowledge?_eq_some_iff.1 hp
    obtain ⟨b', c', hb', hc', rfl⟩ := acknowledge?_eq_some_iff.1 hq
    simp only [PartitionMap.get?_insert, if_neg hpq] at hb'
    refine ⟨{ f with backlogs := f.backlogs.insert q c' }, ?_, ?_⟩
    · exact acknowledge?_eq_some_iff.2 ⟨b', c', hb', hc', rfl⟩
    · refine acknowledge?_eq_some_iff.2 ⟨b, c, ?_, hc, ?_⟩
      · simp only [PartitionMap.get?_insert, if_neg (Ne.symm hpq), hb]
      · rw [PartitionMap.insert_comm hpq]

theorem wasReleased_acknowledge (h : f.acknowledge? p = some g) (q : Partition) :
    g.wasReleased q = f.wasReleased q := by
  obtain ⟨-, -, hreleased⟩ := acknowledge_eq h
  rw [wasReleased, hreleased]
  rfl

end Acknowledge

section Remove

variable (f) (ps : List Partition) (q)

theorem remove_eq :
    f.remove ps =
      { f with
        released := ps.foldl (fun m p => m.insert p ()) f.released
        backlogs := ps.foldl PartitionMap.erase f.backlogs
        paused := ps.foldl PartitionMap.erase f.paused } := by
  induction ps generalizing f with
  | nil => rfl
  | cons p ps ih =>
    rw [remove, List.foldl_cons]
    exact ih (f.removeOne p)

theorem sizes_remove : (f.remove ps).sizes q = if q ∈ ps then [] else f.sizes q := by
  rw [sizes, remove_eq, PartitionMap.get?_foldl_erase]
  split <;> rfl

@[simp]
theorem pending_remove : (f.remove ps).pending q = if q ∈ ps then 0 else f.pending q := by
  rw [pending_eq_length, sizes_remove, pending_eq_length]
  split <;> rfl

@[simp]
theorem isTracked_remove :
    (f.remove ps).isTracked q = (decide (q ∉ ps) && f.isTracked q) := by
  rw [isTracked_iff, remove_eq, PartitionMap.get?_foldl_erase]
  by_cases h : q ∈ ps <;> simp [h, isTracked_iff]

@[simp]
theorem wasReleased_remove :
    (f.remove ps).wasReleased q = (decide (q ∈ ps) || f.wasReleased q) := by
  rw [wasReleased_iff, remove_eq, PartitionMap.get?_foldl_insert]
  by_cases h : q ∈ ps <;> simp [h, wasReleased_iff]

@[simp]
theorem paused_remove : (f.remove ps).paused = ps.foldl PartitionMap.erase f.paused := by
  rw [remove_eq]

@[simp]
theorem thresholds_remove : (f.remove ps).thresholds = f.thresholds := by
  rw [remove_eq]

end Remove

end FlowControl

end AckRelay
