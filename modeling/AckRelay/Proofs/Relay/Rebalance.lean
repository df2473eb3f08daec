import AckRelay.Proofs.Broker.Scripted
import AckRelay.Proofs.CommitBatch
import AckRelay.Proofs.FlowControl.Steps
import AckRelay.Proofs.Relay.Operations

namespace AckRelay

def Rebalance.news : Rebalance → List Notification
  | .assigned ps => if ps = [] then [] else [.assigned ps]
  | .revoked ps | .lost ps => if ps = [] then [] else [.unassigned ps]

def Rebalance.handsOver (held? : Option Offsets) : Rebalance → Option Offsets
  | .revoked ps => (held?.map (PartitionMap.restrict ps)).filter (fun m => !m.isEmpty)
  | .assigned _ | .lost _ => none

theorem Rebalance.handsOver_eq_some {held? : Option Offsets} {change : Rebalance} {m : Offsets}
    (h : change.handsOver held? = some m) :
    ∃ ps all, change = .revoked ps ∧ held? = some all ∧ m = all.restrict ps := by
  cases change with
  | assigned ps => cases h
  | lost ps => cases h
  | revoked ps =>
    rw [handsOver, Option.filter_eq_some_iff] at h
    obtain ⟨all, hall, rfl⟩ := Option.map_eq_some_iff.1 h.1
    exact ⟨ps, all, rfl, hall, rfl⟩

namespace Desk

variable {ν : Type} {b c : ScriptedBroker} {d e : Desk ν} {change : Rebalance}

def HandedOver (change : Rebalance) (d : Desk ν) (b c : ScriptedBroker) : Prop :=
  ∃ accepted, c.commitCalls =
    b.commitCalls ++ (change.handsOver d.mode.held?).toList.map (fun m => (m, accepted))

structure Settled (change : Rebalance) (b c : ScriptedBroker) (d e : Desk ν) : Prop where
  held : e.mode.held? = d.mode.held?.map (change.released.foldl PartitionMap.erase)
  flow : e.flow = d.flow
  notifier : e.notifier = d.notifier
  assignment : c.assignment = b.assignment
  paused : c.paused = b.paused
  commitCalls : HandedOver change d b c

theorem settled_of_still (hheld : change.handsOver d.mode.held? = none)
    (hr : d.mode.held? = d.mode.held?.map (change.released.foldl PartitionMap.erase)) :
    Settled change b b d d := by
  refine ⟨hr, rfl, rfl, rfl, rfl, true, ?_⟩
  rw [hheld]
  exact (List.append_nil _).symm

theorem handsOver_revoked (batch : CommitBatch) (ps : List Partition) :
    (Rebalance.revoked ps).handsOver (some batch.pending) =
      if (batch.take ps).1.isEmpty then none else some (batch.take ps).1 := by
  rw [CommitBatch.taken_eq]
  simp only [Rebalance.handsOver, Option.map_some, Option.filter_some, Bool.not_eq_true']
  cases (batch.pending.restrict ps).isEmpty <;> rfl

/-- However the commit of a revocation ends, the broker has seen it, and the batch is rid of what
was revoked. -/
theorem revoke_handsOver (batch : CommitBatch) (ps : List Partition) (b : ScriptedBroker) :
    ∃ outcome c, batch.revoke ScriptedBroker.handOver ps b = (outcome, (batch.take ps).2, c) ∧
      c.assignment = b.assignment ∧ c.paused = b.paused ∧
        ∃ accepted, c.commitCalls = b.commitCalls ++
          ((Rebalance.revoked ps).handsOver (some batch.pending)).toList.map
            (fun m => (m, accepted)) := by
  rw [handsOver_revoked]
  rcases batch.revoke_cases ScriptedBroker.handOver b ps with
    ⟨hempty, ho⟩ | ⟨hsome, ⟨next, hc, ho⟩ | ⟨e, next, hc, ho⟩⟩
  · rw [hempty]
    exact ⟨_, b, ho, rfl, rfl, true, (List.append_nil _).symm⟩
  · obtain ⟨ha, hp, accepted, hcalls⟩ := ScriptedBroker.handOver_seen (endState_of_ok hc)
    rw [hsome]
    exact ⟨_, next, ho, ha, hp, accepted, hcalls⟩
  · obtain ⟨ha, hp, accepted, hcalls⟩ := ScriptedBroker.handOver_seen (endState_of_error hc)
    rw [hsome]
    exact ⟨_, next, ho, ha, hp, accepted, hcalls⟩

theorem settled_revoked {batch : CommitBatch} (hm : d.mode = .grouped batch)
    (ps : List Partition) :
    Settled (.revoked ps) b (d.settle ScriptedBroker.handOver (.revoked ps) b).1 d
      (d.settle ScriptedBroker.handOver (.revoked ps) b).2 := by
  have hheld : d.mode.held? = some batch.pending := by rw [hm]; rfl
  obtain ⟨outcome, c, ho, ha, hp, hcalls⟩ := revoke_handsOver batch ps b
  simp only [settle, hm, ho]
  refine ⟨?_, rfl, rfl, ha, hp, ?_⟩
  · rw [hheld]
    exact congrArg some (CommitBatch.pending_take batch ps)
  · rw [HandedOver, hheld]
    exact hcalls

/-- Whatever the mode, the desk settles what is held. -/
theorem settled_settle (change : Rebalance) (b : ScriptedBroker) (d : Desk ν) :
    Settled change b (d.settle ScriptedBroker.handOver change b).1 d
      (d.settle ScriptedBroker.handOver change b).2 := by
  cases hm : d.mode with
  | anonymous catchUp =>
    have hheld : d.mode.held? = none := by rw [hm]; rfl
    simp only [settle, hm]
    refine settled_of_still ?_ (by rw [hheld]; rfl)
    rw [hheld]
    cases change <;> rfl
  | grouped batch =>
    have hheld : d.mode.held? = some batch.pending := by rw [hm]; rfl
    cases change with
    | assigned ps =>
      simp only [settle, hm]
      exact settled_of_still rfl (by rw [hheld]; rfl)
    | revoked ps => exact settled_revoked hm ps
    | lost ps =>
      simp only [settle, hm, CommitBatch.lose]
      refine ⟨?_, rfl, rfl, rfl, rfl, true, (List.append_nil _).symm⟩
      rw [hheld]
      exact congrArg some (CommitBatch.pending_take batch ps)

def adjustedBy {β : Type} (commit : Committer β) (change : Rebalance) (b : β) (d : Desk ν) :
    β × Desk ν :=
  match change with
  | .assigned _ => (b, d)
  | .revoked ps | .lost ps =>
    let (b, d) := d.settle commit change b
    (b, d.release ps)

abbrev adjusted (change : Rebalance) (b : ScriptedBroker) (d : Desk ν) : ScriptedBroker × Desk ν :=
  adjustedBy ScriptedBroker.handOver change b d

theorem settled_adjusted (change : Rebalance) (b : ScriptedBroker) (d : Desk ν) :
    Settled change b (adjusted change b d).1
      { d with flow := d.flow.remove change.released } (adjusted change b d).2 := by
  have h := settled_settle change b d
  cases change with
  | assigned ps =>
    refine settled_of_still rfl ?_
    cases d.mode.held? <;> rfl
  | revoked ps =>
    refine ⟨h.held, ?_, h.notifier, h.assignment, h.paused, h.commitCalls⟩
    exact congrArg (FlowControl.remove ps) h.flow
  | lost ps =>
    refine ⟨h.held, ?_, h.notifier, h.assignment, h.paused, h.commitCalls⟩
    exact congrArg (FlowControl.remove ps) h.flow

variable [Notifier ν]

section Any

variable {β : Type} {commit : Committer β} {b : β}

theorem onRebalance_of_empty (h : change.partitions = []) :
    onRebalance commit change (b, d) = .ok () (b, d.count (.emptyRebalances change.kind)) := by
  simp only [onRebalance, h, ↓reduceIte]

theorem onRebalance_of_some (h : change.partitions ≠ []) :
    ∃ n, change.news = [n] ∧ onRebalance commit change (b, d) =
      match tell n (adjustedBy commit change b (d.count (.rebalances change.kind))).2 with
      | .ok () e => .ok () ((adjustedBy commit change b (d.count (.rebalances change.kind))).1, e)
      | .error x e =>
        .error x ((adjustedBy commit change b (d.count (.rebalances change.kind))).1, e) := by
  cases change with
  | assigned ps =>
    refine ⟨.assigned ps, if_neg h, ?_⟩
    simp only [onRebalance, h, ↓reduceIte]
    rfl
  | revoked ps =>
    refine ⟨.unassigned ps, if_neg h, ?_⟩
    simp only [onRebalance, h, ↓reduceIte]
    rfl
  | lost ps =>
    refine ⟨.unassigned ps, if_neg h, ?_⟩
    simp only [onRebalance, h, ↓reduceIte]
    rfl

end Any

structure Followed (change : Rebalance) (b c : ScriptedBroker) (d e : Desk ν) : Prop where
  held : e.mode.held? = d.mode.held?.map (change.released.foldl PartitionMap.erase)
  flow : e.flow = d.flow.remove change.released
  told : Takes change.news d.notifier e.notifier
  assignment : c.assignment = b.assignment
  paused : c.paused = b.paused
  commitCalls : HandedOver change d b c

theorem Rebalance.released_of_empty (h : change.partitions = []) : change.released = [] := by
  cases change with
  | assigned ps => rfl
  | revoked ps => exact h
  | lost ps => exact h

theorem handsOver_of_empty (h : change.released = []) (held? : Option Offsets) :
    change.handsOver held? = none := by
  cases change with
  | assigned ps => rfl
  | lost ps => rfl
  | revoked ps =>
    have hps : ps = [] := h
    subst hps
    cases held? with
    | none => rfl
    | some m =>
      have hempty : (m.restrict []).isEmpty = true := by
        rw [PartitionMap.isEmpty_iff]
        intro p
        rw [PartitionMap.get?_restrict, if_neg (by simp)]
      simp [Rebalance.handsOver, hempty]

/-- A rebalance is followed, or the host could not be told of it. -/
theorem onRebalance_cases (change : Rebalance) (b : ScriptedBroker) (d : Desk ν) :
    (∃ c e, onRebalance ScriptedBroker.handOver change (b, d) = .ok () (c, e) ∧
        Followed change b c d e) ∨
      ∃ x c e, onRebalance ScriptedBroker.handOver change (b, d) = .error (.notify x) (c, e) ∧
        c.assignment = b.assignment ∧ HandedOver change d b c := by
  by_cases hempty : change.partitions = []
  · have hr := Rebalance.released_of_empty hempty
    refine Or.inl ⟨_, _, onRebalance_of_empty hempty, ?_, ?_, ?_, rfl, rfl, true, ?_⟩
    · rw [hr]
      show d.mode.held? = _
      cases d.mode.held? <;> rfl
    · rw [hr]
      rfl
    · have hnews : change.news = [] := by
        cases change <;> exact if_pos hempty
      rw [hnews]
      exact .nothing _
    · rw [handsOver_of_empty hr]
      exact (List.append_nil _).symm
  · obtain ⟨n, hnews, ho⟩ := onRebalance_of_some hempty (b := b) (d := d)
    have hs := settled_adjusted change b (d.count (.rebalances change.kind))
    rw [ho, tell]
    cases he : Notifier.emit n (adjusted change b (d.count (.rebalances change.kind))).2.notifier with
    | ok _ w =>
      refine Or.inl ⟨_, _, rfl, hs.held, hs.flow, ?_, hs.assignment, hs.paused, hs.commitCalls⟩
      rw [hs.notifier] at he
      rw [hnews]
      exact .one he
    | error x w => exact Or.inr ⟨x, _, _, rfl, hs.assignment, hs.commitCalls⟩

end Desk

end AckRelay
