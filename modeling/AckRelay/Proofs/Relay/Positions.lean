import AckRelay.Proofs.Broker.Moves
import AckRelay.Proofs.Relay.Settlement

namespace AckRelay

open ScriptedBroker (Moves)

namespace Desk

variable {ν : Type} {b c : ScriptedBroker} {d : Desk ν}

theorem moves_settle (change : Rebalance) (b : ScriptedBroker) (d : Desk ν) :
    Moves b (d.settle ScriptedBroker.handOver change b).1 := by
  cases hm : d.mode with
  | anonymous catchUp =>
    simp only [settle, hm]
    exact .refl
  | grouped batch =>
    cases change with
    | assigned ps =>
      simp only [settle, hm]
      exact .refl
    | lost ps =>
      simp only [settle, hm]
      exact .refl
    | revoked ps =>
      simp only [settle, hm]
      rcases batch.revoke_cases ScriptedBroker.handOver b ps with
        ⟨-, ho⟩ | ⟨-, ⟨next, hc, ho⟩ | ⟨e, next, hc, ho⟩⟩
      · rw [ho]
      · rw [ho]
        exact (ScriptedBroker.moves_handOver _).ok hc
      · rw [ho]
        exact (ScriptedBroker.moves_handOver _).error hc

theorem moves_adjusted (change : Rebalance) (b : ScriptedBroker) (d : Desk ν) :
    Moves b (adjusted change b d).1 := by
  cases change with
  | assigned ps => exact .refl
  | revoked ps => exact moves_settle (.revoked ps) b d
  | lost ps => exact moves_settle (.lost ps) b d

/-- A group event moves committed offsets only by the commits that it hands over. -/
theorem moves_onRebalance [Notifier ν] (change : Rebalance) (b : ScriptedBroker) (d : Desk ν) :
    Moves b (endState (onRebalance ScriptedBroker.handOver change) (b, d)).1 := by
  by_cases hempty : change.partitions = []
  · rw [endState_of_ok (onRebalance_of_empty hempty)]
  · obtain ⟨n, -, ho⟩ := onRebalance_of_some hempty (b := b) (d := d)
    have hmoves := moves_adjusted change b (d.count (.rebalances change.kind))
    cases ht : tell n (adjusted change b (d.count (.rebalances change.kind))).2 with
    | ok _ e =>
      rw [ht] at ho
      rw [endState_of_ok ho]
      exact hmoves
    | error x e =>
      rw [ht] at ho
      rw [endState_of_error ho]
      exact hmoves

end Desk

namespace Relay

variable {ν α : Type} {r s : Relay ScriptedBroker ν}

abbrev MovesBroker (op : EStateM Halt (Relay ScriptedBroker ν) α) : Prop :=
  Ends (fun r s => Moves r.broker s.broker) (fun r _ s => Moves r.broker s.broker) op

theorem chains_broker :
    Chains (fun r s : Relay ScriptedBroker ν => Moves r.broker s.broker)
      (fun r (_ : Halt) s => Moves r.broker s.broker) where
  refl _ := .refl
  trans h h' := h.trans h'
  error h h' := h.trans h'

theorem moves_ask {op : EStateM BrokerError ScriptedBroker α} (h : ScriptedBroker.IsMoves op) :
    MovesBroker (ask op : EStateM Halt (Relay ScriptedBroker ν) α) :=
  ends_ask (fun _ _ _ ho => h.ok ho) fun _ _ _ ho => h.error ho

theorem moves_modify {f : Relay ScriptedBroker ν → Relay ScriptedBroker ν}
    (hf : ∀ r, (f r).broker = r.broker) :
    MovesBroker (modify f : EStateM Halt (Relay ScriptedBroker ν) PUnit) :=
  Ends.modify fun r => by rw [hf]

theorem moves_partitionsOf (topics : List String) :
    MovesBroker (partitionsOf topics : EStateM Halt (Relay ScriptedBroker ν) _) := by
  induction topics with
  | nil => exact Ends.pure chains_broker []
  | cons topic topics ih =>
    exact Ends.bind chains_broker (moves_ask (ScriptedBroker.moves_partitionsFor topic)) fun ps =>
      Ends.bind chains_broker ih fun qs => Ends.pure chains_broker (ps ++ qs)

theorem moves_releaseOldest (p : Partition) :
    MovesBroker (releaseOldest p : EStateM Halt (Relay ScriptedBroker ν) Unit) := by
  refine Ends.bind chains_broker (Ends.get chains_broker) fun r => ?_
  split
  · exact moves_modify fun _ => rfl
  · exact Ends.throw fun _ => .refl

theorem moves_flushed {batch : CommitBatch} (forced : Bool) :
    Moves r.broker (batch.flush Broker.commit forced r.now r.broker).2.2 := by
  rcases batch.flush_cases Broker.commit r.broker forced r.now with
    ⟨last, ho, -⟩ | ⟨-, ⟨next, hc, ho⟩ | ⟨e, next, hc, ho⟩⟩
  · rw [ho]
  · rw [ho]
    exact (ScriptedBroker.moves_commit _).ok hc
  · rw [ho]
    exact (ScriptedBroker.moves_commit _).error hc

theorem moves_flush (forced : Bool) :
    MovesBroker (flush forced : EStateM Halt (Relay ScriptedBroker ν) Unit) := by
  constructor
  · intro r u s h
    cases hm : r.desk.mode with
    | anonymous catchUp =>
      rw [flush_of_anonymous hm] at h
      cases h
      exact .refl
    | grouped batch =>
      rw [flush_of_grouped hm rfl] at h
      split at h <;> cases h
      · exact moves_flushed forced
      · exact moves_flushed forced
  · intro r e s h
    cases hm : r.desk.mode with
    | anonymous catchUp =>
      rw [flush_of_anonymous hm] at h
      cases h
    | grouped batch =>
      rw [flush_of_grouped hm rfl] at h
      split at h <;> cases h
      exact moves_flushed forced

/-- Asking for partitions to be paused or resumed moves what the operation itself moves. -/
theorem moves_askFor {op : List Partition → EStateM BrokerError ScriptedBroker Unit}
    (h : ∀ ps, ScriptedBroker.IsMoves (op ps)) (counter : Counter) (ps : List Partition) :
    MovesBroker (askFor op counter ps : EStateM Halt (Relay ScriptedBroker ν) Unit) := by
  rw [askFor]
  split
  · exact Ends.pure chains_broker ()
  · exact Ends.bind chains_broker (moves_ask (h ps)) fun _ => moves_modify fun _ => rfl

theorem moves_balance :
    MovesBroker (balance : EStateM Halt (Relay ScriptedBroker ν) Unit) := by
  have hc := chains_broker (ν := ν)
  rw [balance_eq]
  refine Ends.bind hc (moves_ask ScriptedBroker.moves_assignment) fun ps => ?_
  refine Ends.bind hc (Ends.get hc) fun r => ?_
  refine Ends.bind hc (moves_modify fun _ => rfl) fun _ => ?_
  refine Ends.bind hc (moves_askFor ScriptedBroker.moves_pause _ _) fun _ => ?_
  refine Ends.bind hc (moves_askFor ScriptedBroker.moves_resume _ _) fun _ => ?_
  rw [notePaused]
  split
  · exact Ends.pure hc ()
  · exact moves_modify fun _ => rfl

theorem moves_stop : MovesBroker (stop : EStateM Halt (Relay ScriptedBroker ν) Unit) :=
  Ends.bind chains_broker (moves_flush true) fun _ =>
    Ends.bind chains_broker (moves_ask ScriptedBroker.moves_close) fun _ =>
      moves_modify fun _ => rfl

variable [Notifier ν]

theorem moves_tell (n : Notification) :
    MovesBroker (tell n : EStateM Halt (Relay ScriptedBroker ν) Unit) := by
  constructor
  · intro r u s h
    rw [tell_apply] at h
    cases he : Notifier.emit n r.desk.notifier <;> rw [he] at h <;> cases h
    exact .refl
  · intro r e s h
    rw [tell_apply] at h
    cases he : Notifier.emit n r.desk.notifier <;> rw [he] at h <;> cases h
    exact .refl

theorem moves_tellIf (told : Bool) (n : Notification) :
    MovesBroker (if told then tell n else pure () :
      EStateM Halt (Relay ScriptedBroker ν) Unit) := by
  split
  · exact moves_tell n
  · exact Ends.pure chains_broker ()

theorem moves_start : MovesBroker (start : EStateM Halt (Relay ScriptedBroker ν) Unit) := by
  have hc := chains_broker (ν := ν)
  refine Ends.bind hc (Ends.get hc) fun r => ?_
  split
  · exact moves_ask (ScriptedBroker.moves_subscribe _)
  · refine Ends.bind hc (Ends.get hc) fun r => ?_
    refine Ends.bind hc (moves_partitionsOf r.topics) fun ps => ?_
    refine Ends.bind hc (moves_ask (ScriptedBroker.moves_assign ps)) fun _ => ?_
    refine Ends.bind hc (moves_ask (ScriptedBroker.moves_endOffsets ps)) fun ends => ?_
    refine Ends.bind hc (moves_tell _) fun _ => ?_
    refine Ends.bind hc (moves_modify fun _ => rfl) fun _ => ?_
    split
    · exact Ends.bind hc (moves_tell _) fun _ => moves_modify fun _ => rfl
    · exact moves_modify fun _ => rfl

theorem moves_acknowledge (pos : Position) :
    MovesBroker (acknowledge pos : EStateM Halt (Relay ScriptedBroker ν) Unit) := by
  have hc := chains_broker (ν := ν)
  refine Ends.bind hc (Ends.get hc) fun r => ?_
  split
  · split
    · exact moves_modify fun _ => rfl
    · exact Ends.bind hc (moves_releaseOldest _) fun _ => moves_modify fun _ => rfl
  · exact Ends.bind hc (moves_releaseOldest _) fun _ =>
      Ends.bind hc (moves_modify fun _ => rfl) fun _ => moves_tellIf _ .caughtUp

theorem moves_obey (c : Command) :
    MovesBroker (obey c : EStateM Halt (Relay ScriptedBroker ν) Flow) := by
  have hc := chains_broker (ν := ν)
  refine Ends.bind hc (moves_modify fun _ => rfl) fun _ => ?_
  cases c with
  | ack pos => exact Ends.bind hc (moves_acknowledge pos) fun _ => Ends.pure hc _
  | committedOffsets =>
    refine Ends.bind hc ?_ fun _ => Ends.pure hc _
    refine Ends.bind hc (moves_ask ScriptedBroker.moves_assignment) fun ps => ?_
    exact Ends.bind hc (moves_ask (ScriptedBroker.moves_committed ps)) fun _ => moves_tell _
  | stop => exact Ends.bind hc moves_stop fun _ => Ends.pure hc _
  | unrecognized raw => exact Ends.throw fun _ => .refl

/-- A poll tells its listener first, and then the broker completes the rebalance. -/
theorem moves_poll : MovesBroker (poll : EStateM Halt (Relay ScriptedBroker ν) _) := by
  have hmoves : ∀ r : Relay ScriptedBroker ν, Moves r.broker (endState poll r).broker := by
    intro r
    have hpolled := ScriptedBroker.moves_polled r.pollTimeout r.broker
    cases hchange : r.broker.change? with
    | none =>
      rcases ScriptedBroker.poll_of_records r.pollTimeout Desk.listener r.desk hchange with
        ho | ⟨e, script, ho⟩
      · rw [endState_of_ok (poll_of_ok ho)]
        exact hpolled
      · rw [endState_of_error (poll_of_error ho)]
        have hnoted := @ScriptedBroker.Move.noted r.broker (.poll r.pollTimeout) rfl
        exact (Relation.ReflTransGen.single hnoted).tail (.rearranged _ _ _ script _)
    | some change =>
      have hp := poll_with_change hchange
      have hlistened := Desk.moves_onRebalance change (r.broker.polled r.pollTimeout) r.desk
      cases ho : Desk.onRebalance ScriptedBroker.handOver change
          (r.broker.polled r.pollTimeout, r.desk) with
      | ok u x =>
        rw [ho] at hp
        rw [endState_of_ok ho] at hlistened
        rw [endState_of_ok hp]
        exact (hpolled.trans hlistened).trans (ScriptedBroker.moves_complete x.1 change)
      | error e x =>
        rw [ho] at hp
        rw [endState_of_error ho] at hlistened
        rw [endState_of_error hp]
        exact hpolled.trans hlistened
  constructor
  · intro r rs s h
    have hr := hmoves r
    rwa [endState_of_ok h] at hr
  · intro r e s h
    have hr := hmoves r
    rwa [endState_of_error h] at hr

theorem moves_announce :
    MovesBroker (announce : EStateM Halt (Relay ScriptedBroker ν) Unit) := by
  have hc := chains_broker (ν := ν)
  refine Ends.bind hc (Ends.get hc) fun r => ?_
  split
  · refine Ends.bind hc (moves_ask ScriptedBroker.moves_assignment) fun ps => ?_
    split
    · exact Ends.pure hc ()
    · exact Ends.bind hc (moves_tell _) fun _ => moves_modify fun _ => rfl
  · exact Ends.pure hc ()

omit [Notifier ν] in
theorem moves_track {record : Record} :
    MovesBroker (track record : EStateM Halt (Relay ScriptedBroker ν) Unit) :=
  ends_track (fun _ _ => .refl) fun _ => .refl

theorem moves_deliverAll (rs : List Record) :
    MovesBroker (deliverAll rs : EStateM Halt (Relay ScriptedBroker ν) Unit) := by
  induction rs with
  | nil => exact Ends.pure chains_broker ()
  | cons record rs ih =>
    exact Ends.bind chains_broker (moves_tell _) fun _ =>
      Ends.bind chains_broker moves_track fun _ => ih

theorem moves_deliver (rs : List Record) :
    MovesBroker (deliver rs : EStateM Halt (Relay ScriptedBroker ν) Unit) := by
  rw [deliver]
  split
  · exact Ends.pure chains_broker ()
  · exact Ends.bind chains_broker (moves_modify fun _ => rfl) fun _ =>
      Ends.bind chains_broker (moves_deliverAll rs) fun _ => moves_modify fun _ => rfl

omit [Notifier ν] in
theorem moves_pass (t : Round) (r : Relay ScriptedBroker ν) : Moves r.broker (pass t r).broker :=
  .single (.turned r.broker _ _)

theorem moves_perform (a : Act) :
    MovesBroker (perform a : EStateM Halt (Relay ScriptedBroker ν) Flow) := by
  have hc := chains_broker (ν := ν)
  cases a with
  | start => exact Ends.bind hc moves_start fun _ => Ends.pure hc _
  | await t => exact Ends.bind hc (Ends.modify (moves_pass t)) fun _ => Ends.pure hc _
  | obey c => exact moves_obey c
  | balance => exact Ends.bind hc moves_balance fun _ => Ends.pure hc _
  | flush => exact Ends.bind hc (moves_flush false) fun _ => Ends.pure hc _
  | receive =>
    refine Ends.bind hc ?_ fun _ => Ends.pure hc _
    exact Ends.bind hc moves_poll fun rs => Ends.bind hc moves_announce fun _ => moves_deliver rs

/-- The positions after a moment are those before it and what its commits have stored. -/
theorem positions_after (m : Moment ν) :
    m.after.broker.positions = ScriptedBroker.stored m.calls m.before.broker.positions := by
  have hmoves : Moves m.before.broker m.after.broker := (moves_perform m.act).atEnd m.before
  obtain ⟨calls, hcalls, hpositions⟩ := ScriptedBroker.positions_of_moves hmoves
  rw [calls_of_append hcalls, hpositions]

end Relay

end AckRelay
