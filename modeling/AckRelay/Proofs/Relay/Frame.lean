import AckRelay.Proofs.Broker.Telling
import AckRelay.Proofs.Relay.Powers

namespace AckRelay

variable {β ν α : Type} [Broker β]

structure Broker.Within (Q : β → β → Prop) : Prop where
  subscribe : ∀ topics, Ends Q (fun b _ c => Q b c) (Broker.subscribe topics : EStateM _ β _)
  assign : ∀ ps, Ends Q (fun b _ c => Q b c) (Broker.assign ps : EStateM _ β _)
  assignment : Ends Q (fun b _ c => Q b c) (Broker.assignment : EStateM _ β _)
  partitionsFor : ∀ topic, Ends Q (fun b _ c => Q b c) (Broker.partitionsFor topic : EStateM _ β _)
  endOffsets : ∀ ps, Ends Q (fun b _ c => Q b c) (Broker.endOffsets ps : EStateM _ β _)
  committed : ∀ ps, Ends Q (fun b _ c => Q b c) (Broker.committed ps : EStateM _ β _)
  pause : ∀ ps, Ends Q (fun b _ c => Q b c) (Broker.pause ps : EStateM _ β _)
  resume : ∀ ps, Ends Q (fun b _ c => Q b c) (Broker.resume ps : EStateM _ β _)
  close : Ends Q (fun b _ c => Q b c) (Broker.close : EStateM _ β _)

def Metrics.applied (m : Metrics) (k : Command.Kind) : Nat := m.total (.commandsApplied k)

namespace Metrics

def CountsNoCommand (f : Metrics → Metrics) : Prop := ∀ m k, (f m).applied k = m.applied k

theorem applied_add (m : Metrics) (c : Counter) (n : Nat) (k : Command.Kind) :
    (m.add c n).applied k = if c = .commandsApplied k then m.applied k + n else m.applied k := by
  rw [applied, applied, total, total?_add]
  by_cases hc : Counter.commandsApplied k = c
  · rw [if_pos hc, if_pos hc.symm, ← hc]
    rfl
  · rw [if_neg hc, if_neg (Ne.symm hc)]
    rfl

/-- Counting anything but a command leaves the counts of commands alone. -/
theorem countsNoCommand_add {c : Counter} (hc : ∀ k, c ≠ .commandsApplied k) (n : Nat) :
    CountsNoCommand (·.add c n) := by
  intro m k
  rw [applied_add, if_neg (hc k)]

theorem countsNoCommand_addCommit (trigger : CommitTrigger) (outcome : FlushOutcome) :
    CountsNoCommand (·.addCommit trigger outcome) := by
  intro m k
  cases outcome with
  | idle => rfl
  | committed => exact countsNoCommand_add (fun _ h => by cases h) 1 m k
  | failed e => exact countsNoCommand_add (fun _ h => by cases h) 1 m k

theorem countsNoCommand_addDiscarded (n : Nat) : CountsNoCommand (·.addDiscarded n) := by
  intro m k
  show (if n = 0 then m else m.add .commitsDiscarded n).applied k = _
  split
  · rfl
  · exact countsNoCommand_add (fun _ h => by cases h) n m k

end Metrics

namespace Relay

variable [Notifier ν]

/-- The relation holds over every small change that the acts of a relay are made of. Of the
acknowledgements only some are considered. -/
structure Minds (Q : β → β → Prop) (A : Position → Prop) (R : Relay β ν → Relay β ν → Prop) :
    Prop where
  refl : ∀ r, R r r
  trans : ∀ {r s t}, R r s → R s t → R r t
  requests : Broker.Within Q
  broker : ∀ {r b}, Q r.broker b → R r { r with broker := b }
  phase : ∀ r phase, R r { r with phase }
  notifier : ∀ r notifier, R r { r with desk := { r.desk with notifier } }
  flow : ∀ r flow, R r (r.setFlow flow)
  metrics : ∀ {f}, Metrics.CountsNoCommand f → ∀ r : Relay β ν,
    R r { r with desk := { r.desk with metrics := f r.desk.metrics } }
  catchUp : ∀ r catchUp, R r (r.setMode (.anonymous catchUp))
  record : ∀ {r batch position}, A position → r.desk.mode = .grouped batch →
    R r (r.setMode (.grouped (batch.record position.partition position.offset)))
  flush : ∀ {r batch} forced, r.desk.mode = .grouped batch →
    let flushed := batch.flush Broker.commit forced r.now r.broker
    R r { r.setMode (.grouped flushed.2.1) with broker := flushed.2.2 }
  poll : Ends R (fun r _ s => R r s) (poll : EStateM Halt (Relay β ν) _)

namespace Minds

variable {Q : β → β → Prop} {A : Position → Prop} {R : Relay β ν → Relay β ν → Prop}
  (h : Minds Q A R)
include h

theorem chains : Chains R (fun r (_ : Halt) s => R r s) := ⟨h.refl, h.trans, h.trans⟩

theorem ask {op : EStateM BrokerError β α} (hop : Ends Q (fun b _ c => Q b c) op) :
    Ends R (fun r _ s => R r s) (ask op) :=
  ends_ask (fun _ _ _ ho => h.broker (hop.ok ho)) (fun _ _ _ ho => h.broker (hop.error ho))

theorem tell (n : Notification) : Ends R (fun r _ s => R r s) (tell n) := by
  refine Ends.of_atEnd fun r => ?_
  rw [endState, tell_apply]
  cases Notifier.emit n r.desk.notifier with
  | ok u w => exact h.notifier r w
  | error e w => exact h.notifier r w

theorem measure {f : Metrics → Metrics} (hf : Metrics.CountsNoCommand f) :
    Ends R (fun r _ s => R r s) (measure f) :=
  Ends.modify (h.metrics hf)

theorem partitionsOf (topics : List String) :
    Ends R (fun r _ s => R r s) (partitionsOf topics) := by
  induction topics with
  | nil => exact Ends.pure h.chains []
  | cons topic topics ih =>
    refine Ends.bind h.chains (h.ask (h.requests.partitionsFor topic)) fun ps => ?_
    exact Ends.bind h.chains ih fun qs => Ends.pure h.chains (ps ++ qs)

theorem startAnonymous : Ends R (fun r _ s => R r s) startAnonymous := by
  have hc := h.chains
  refine Ends.bind hc (Ends.get hc) fun r => ?_
  refine Ends.bind hc (h.partitionsOf r.topics) fun ps => ?_
  refine Ends.bind hc (h.ask (h.requests.assign ps)) fun _ => ?_
  refine Ends.bind hc (h.ask (h.requests.endOffsets ps)) fun ends => ?_
  refine Ends.bind hc (h.tell _) fun _ => ?_
  refine Ends.bind hc (Ends.modify fun r => h.catchUp r _) fun _ => ?_
  split
  · exact Ends.bind hc (h.tell .caughtUp) fun _ => Ends.modify fun r => h.phase r _
  · exact Ends.modify fun r => h.phase r _

theorem start : Ends R (fun r _ s => R r s) start := by
  refine Ends.bind h.chains (Ends.get h.chains) fun r => ?_
  split
  · exact h.ask (h.requests.subscribe r.topics)
  · exact h.startAnonymous

/-- A flush moves the relay only as the relation allows, through the commit of its batch. -/
theorem flush_acts (forced : Bool) : Ends R (fun r _ s => R r s) (Relay.flush forced) := by
  refine Ends.of_atEnd fun r => ?_
  rw [endState]
  cases hm : r.desk.mode with
  | anonymous catchUp =>
    simp only [Relay.flush, bind_apply, get_apply, hm]
    exact h.refl r
  | grouped batch =>
    have hflush := h.flush forced hm
    simp only [Relay.flush, bind_apply, get_apply, hm, set_apply, Relay.measure, modify_apply]
    generalize batch.flush Broker.commit forced r.now r.broker = flushed at hflush
    obtain ⟨outcome, batch, broker⟩ := flushed
    have hcount := h.trans hflush (h.metrics (Metrics.countsNoCommand_addCommit
      (if forced then .forced else .interval) outcome) _)
    cases outcome <;> exact hcount

theorem releaseOldest (p : Partition) : Ends R (fun r _ s => R r s) (releaseOldest p) := by
  refine Ends.bind h.chains (Ends.get h.chains) fun r => ?_
  split
  · exact Ends.modify fun r => h.flow r _
  · exact Ends.throw h.refl

theorem acknowledge {position : Position} (hA : A position) :
    Ends R (fun r _ s => R r s) (acknowledge position) := by
  have hc := h.chains
  refine Ends.of_atEnd fun r => ?_
  cases hm : r.desk.mode with
  | anonymous catchUp =>
    have hrest : Ends R (fun r _ s => R r s) (do
        Relay.releaseOldest position.partition
        modify (setMode (.anonymous (catchUp.acknowledge position).2))
        if (catchUp.acknowledge position).1 then Relay.tell .caughtUp) := by
      refine Ends.bind hc (h.releaseOldest _) fun _ => ?_
      refine Ends.bind hc (Ends.modify fun r => h.catchUp r _) fun _ => ?_
      split
      · exact h.tell .caughtUp
      · exact Ends.pure hc ()
    have hsame : endState (Relay.acknowledge position) r = endState _ r :=
      endState_congr (by simp only [Relay.acknowledge, bind_apply, get_apply, hm]; rfl)
    rw [hsame]
    exact hrest.atEnd r
  | grouped batch =>
    have hstale : Metrics.CountsNoCommand (·.increment .staleAcknowledgements) :=
      Metrics.countsNoCommand_add (fun _ hk => by cases hk) 1
    rw [endState]
    simp only [Relay.acknowledge, bind_apply, get_apply, hm]
    cases r.desk.flow.wasReleased position.partition with
    | true => exact h.metrics hstale r
    | false =>
      simp only [Bool.false_eq_true, ↓reduceIte, bind_apply, Relay.releaseOldest, get_apply]
      cases r.desk.flow.acknowledge? position.partition with
      | none => exact h.refl r
      | some flow => exact h.trans (h.flow r flow) (h.record hA hm)

theorem reportCommitted : Ends R (fun r _ s => R r s) reportCommitted := by
  have hc := h.chains
  refine Ends.bind hc (h.ask h.requests.assignment) fun ps => ?_
  refine Ends.bind hc (h.ask (h.requests.committed ps)) fun offsets => ?_
  exact h.tell _

theorem stop : Ends R (fun r _ s => R r s) stop := by
  have hc := h.chains
  refine Ends.bind hc (h.flush_acts true) fun _ => ?_
  refine Ends.bind hc (h.ask h.requests.close) fun _ => ?_
  exact Ends.modify fun r => h.phase r _

theorem askFor {op : List Partition → EStateM BrokerError β Unit}
    (hop : ∀ ps, Ends Q (fun b _ c => Q b c) (op ps)) {counter : Counter}
    (hcounter : ∀ k, counter ≠ .commandsApplied k) (ps : List Partition) :
    Ends R (fun r _ s => R r s) (askFor op counter ps) := by
  rw [Relay.askFor]
  split
  · exact Ends.pure h.chains ()
  · exact Ends.bind h.chains (h.ask (hop ps)) fun _ =>
      h.measure (Metrics.countsNoCommand_add hcounter _)

theorem balance : Ends R (fun r _ s => R r s) balance := by
  have hc := h.chains
  rw [balance_eq]
  refine Ends.bind hc (h.ask h.requests.assignment) fun ps => ?_
  refine Ends.bind hc (Ends.get hc) fun r => ?_
  refine Ends.bind hc (Ends.modify fun r => h.flow r _) fun _ => ?_
  refine Ends.bind hc (h.askFor h.requests.pause (fun _ hk => by cases hk) _) fun _ => ?_
  refine Ends.bind hc (h.askFor h.requests.resume (fun _ hk => by cases hk) _) fun _ => ?_
  rw [notePaused]
  split
  · exact Ends.pure hc ()
  · exact h.measure fun _ _ => rfl

theorem announce : Ends R (fun r _ s => R r s) announce := by
  have hc := h.chains
  refine Ends.bind hc (Ends.get hc) fun r => ?_
  split
  · refine Ends.bind hc (h.ask h.requests.assignment) fun ps => ?_
    split
    · exact Ends.pure hc ()
    · exact Ends.bind hc (h.tell .consuming) fun _ => Ends.modify fun r => h.phase r _
  · exact Ends.pure hc ()

theorem deliverAll (records : List Record) : Ends R (fun r _ s => R r s) (deliverAll records) := by
  have hc := h.chains
  induction records with
  | nil => exact Ends.pure hc ()
  | cons record records ih =>
    refine Ends.bind hc (h.tell _) fun _ => ?_
    exact Ends.bind hc (ends_track h.flow hc.refl) fun _ => ih

theorem deliver (records : List Record) : Ends R (fun r _ s => R r s) (deliver records) := by
  have hc := h.chains
  have hcount : Metrics.CountsNoCommand (·.add .recordsDelivered records.length) :=
    Metrics.countsNoCommand_add (fun _ hk => by cases hk) _
  rw [Relay.deliver]
  split
  · exact Ends.pure hc ()
  · refine Ends.bind hc (h.measure fun _ _ => rfl) fun _ => ?_
    exact Ends.bind hc (h.deliverAll records) fun _ => h.measure hcount

theorem receive : Ends R (fun r _ s => R r s) receive := by
  have hc := h.chains
  refine Ends.bind hc h.poll fun records => ?_
  exact Ends.bind hc h.announce fun _ => h.deliver records

theorem work : Ends R (fun r _ s => R r s) work := by
  have hc := h.chains
  refine Ends.bind hc h.balance fun _ => ?_
  refine Ends.bind hc (h.flush_acts false) fun _ => ?_
  exact Ends.bind hc h.receive fun _ => Ends.pure hc Flow.goOn

end Minds

def carryOut : Command → EStateM Halt (Relay β ν) Flow
  | .ack position => do acknowledge position; return .goOn
  | .committedOffsets => do reportCommitted; return .goOn
  | .stop => do stop; return .stop
  | .unrecognized raw => throw (.failed (.unknownCommand raw))

/-- To obey a command is to count it under its kind and then to carry it out. -/
theorem obey_eq (command : Command) (r : Relay β ν) :
    obey command r = carryOut command
      { r with
        desk := { r.desk with
          metrics := r.desk.metrics.increment (.commandsApplied command.kind) } } := by
  cases command <;> rfl

/-- What each operation keeps, a command keeps as well. -/
theorem Minds.carryOut {Q : β → β → Prop} {A : Position → Prop}
    {R : Relay β ν → Relay β ν → Prop} (h : Minds Q A R) {command : Command}
    (hA : ∀ position, command = .ack position → A position) :
    Ends R (fun r _ s => R r s) (carryOut command) := by
  have hc := h.chains
  cases command with
  | ack position => exact Ends.bind hc (h.acknowledge (hA position rfl)) fun _ => Ends.pure hc _
  | stop => exact Ends.bind hc h.stop fun _ => Ends.pure hc _
  | committedOffsets => exact Ends.bind hc h.reportCommitted fun _ => Ends.pure hc _
  | unrecognized raw => exact Ends.throw h.refl

/-- A poll changes the broker and the desk and nothing else. -/
theorem endState_poll (r : Relay β ν) :
    endState poll r =
      { r with
        broker := (endState (Broker.poll r.pollTimeout Desk.listener) (r.broker, r.desk)).1
        desk := (endState (Broker.poll r.pollTimeout Desk.listener) (r.broker, r.desk)).2 } := by
  rw [endState, endState, poll]
  cases Broker.poll r.pollTimeout Desk.listener (r.broker, r.desk) <;> rfl

end Relay

namespace Desk

variable {γ : Type} (commit : Committer γ) (change : Rebalance) (b : γ) (d : Desk ν)

theorem applied_count {c : Counter} (hc : ∀ k, c ≠ .commandsApplied k) (k : Command.Kind) :
    (d.count c).metrics.applied k = d.metrics.applied k :=
  Metrics.countsNoCommand_add hc 1 d.metrics k

/-- Settling a rebalance counts no command. -/
theorem applied_settle (k : Command.Kind) :
    (d.settle commit change b).2.metrics.applied k = d.metrics.applied k := by
  cases hm : d.mode with
  | anonymous catchUp => simp only [settle, hm]
  | grouped batch =>
    cases change with
    | assigned ps => simp only [settle, hm]
    | revoked ps =>
      simp only [settle, hm]
      exact Metrics.countsNoCommand_addCommit .revoke _ d.metrics k
    | lost ps =>
      simp only [settle, hm]
      exact Metrics.countsNoCommand_addDiscarded _ d.metrics k

theorem applied_adjustedBy (k : Command.Kind) :
    (adjustedBy commit change b d).2.metrics.applied k = d.metrics.applied k := by
  cases change with
  | assigned ps => rfl
  | revoked ps => exact applied_settle commit (.revoked ps) b d k
  | lost ps => exact applied_settle commit (.lost ps) b d k

/-- A rebalance only changes the desk by what was adjusted, and tells the host. -/
theorem endState_onRebalance_of_some [Notifier ν] (hsome : change.partitions ≠ []) :
    ∃ notifier, endState (onRebalance commit change) (b, d) =
      ((adjustedBy commit change b (d.count (.rebalances change.kind))).1,
        { (adjustedBy commit change b (d.count (.rebalances change.kind))).2 with notifier }) := by
  obtain ⟨n, -, ho⟩ : ∃ n, change.news = [n] ∧ onRebalance commit change (b, d) = _ :=
    onRebalance_of_some hsome
  rw [endState, ho, tell]
  cases Notifier.emit n
      (adjustedBy commit change b (d.count (.rebalances change.kind))).2.notifier with
  | ok u w => exact ⟨w, rfl⟩
  | error e w => exact ⟨w, rfl⟩

theorem endState_onRebalance [Notifier ν] :
    endState (onRebalance commit change) (b, d) = (b, d.count (.emptyRebalances change.kind)) ∨
      ∃ notifier, endState (onRebalance commit change) (b, d) =
        ((adjustedBy commit change b (d.count (.rebalances change.kind))).1,
          { (adjustedBy commit change b (d.count (.rebalances change.kind))).2 with notifier }) := by
  by_cases hempty : change.partitions = []
  · exact Or.inl (endState_of_ok (onRebalance_of_empty hempty))
  · exact Or.inr (endState_onRebalance_of_some commit change b d hempty)

/-- No group event is counted as a command, be it the first, an empty or a later one. -/
theorem applied_onRebalance [Notifier ν] (k : Command.Kind) :
    (endState (onRebalance commit change) (b, d)).2.metrics.applied k = d.metrics.applied k := by
  rcases endState_onRebalance commit change b d with hend | ⟨notifier, hend⟩
  · rw [hend]
    exact applied_count d (fun _ hk => by cases hk) k
  · rw [hend]
    refine (applied_adjustedBy commit change b _ k).trans ?_
    exact applied_count d (fun _ hk => by cases hk) k

end Desk

namespace Relay

structure SameCommands (r s : Relay β ν) : Prop where
  queue : s.queue = r.queue
  applied : ∀ k, s.desk.metrics.applied k = r.desk.metrics.applied k

omit [Broker β] in
theorem SameCommands.trans {r s t : Relay β ν} (hs : SameCommands r s) (ht : SameCommands s t) :
    SameCommands r t :=
  ⟨ht.queue.trans hs.queue, fun k => (ht.applied k).trans (hs.applied k)⟩

theorem Broker.within_true : Broker.Within fun (_ _ : β) => True := by
  constructor <;> intros <;> exact ⟨fun _ => trivial, fun _ => trivial⟩

variable [Notifier ν]

/-- Polls count no commands and take none off the queue. -/
theorem sameCommands_poll [OnlyTells β] :
    Ends SameCommands (fun r _ s => SameCommands r s)
      (poll : EStateM Halt (Relay β ν) _) := by
  refine Ends.of_atEnd fun r => ?_
  rw [endState_poll]
  refine ⟨rfl, fun k => ?_⟩
  refine poll_keeps (I := fun d : Desk ν => d.metrics.applied k = r.desk.metrics.applied k)
    (fun commit change b d hd => ?_) r.pollTimeout rfl
  exact (Desk.applied_onRebalance commit change b d k).trans hd

/-- Nothing but a command adds to the commands. -/
theorem minds_sameCommands [OnlyTells β] :
    Minds (fun (_ _ : β) => True) (fun _ => True) (SameCommands (β := β) (ν := ν)) where
  refl _ := ⟨rfl, fun _ => rfl⟩
  trans := SameCommands.trans
  requests := Broker.within_true
  broker _ := ⟨rfl, fun _ => rfl⟩
  phase _ _ := ⟨rfl, fun _ => rfl⟩
  notifier _ _ := ⟨rfl, fun _ => rfl⟩
  flow _ _ := ⟨rfl, fun _ => rfl⟩
  metrics hf r := ⟨rfl, hf r.desk.metrics⟩
  catchUp _ _ := ⟨rfl, fun _ => rfl⟩
  record _ _ := ⟨rfl, fun _ => rfl⟩
  flush _ _ := ⟨rfl, fun _ => rfl⟩
  poll := sameCommands_poll

/-- A command is counted once, under its kind. -/
theorem applied_obey [OnlyTells β] (command : Command) (r : Relay β ν) :
    (endState (obey command) r).queue = r.queue ∧
      ∀ k, (endState (obey command) r).desk.metrics.applied k =
        r.desk.metrics.applied k + if command.kind = k then 1 else 0 := by
  have hcarry : Ends SameCommands (fun r _ s => SameCommands r s)
      (carryOut command : EStateM Halt (Relay β ν) Flow) :=
    minds_sameCommands.carryOut fun _ _ => trivial
  have hrest := hcarry.atEnd
    { r with
      desk := { r.desk with metrics := r.desk.metrics.increment (.commandsApplied command.kind) } }
  rw [← endState_congr (obey_eq command r)] at hrest
  refine ⟨hrest.queue, fun k => (hrest.applied k).trans ?_⟩
  refine (Metrics.applied_add r.desk.metrics _ 1 k).trans ?_
  simp only [Counter.commandsApplied.injEq]
  split <;> rfl

/-- Obeying commands leaves what is queued as it is. -/
theorem queue_obeyAll [OnlyTells β] (commands : List Command) (r : Relay β ν) :
    (endState (obeyAll commands) r).queue = r.queue := by
  induction commands generalizing r with
  | nil => rfl
  | cons command commands ih =>
    have hqueue := (applied_obey command r).1
    rw [endState] at hqueue ⊢
    simp only [obeyAll, bind_apply]
    cases ho : obey command r with
    | error e s => simpa only [ho] using hqueue
    | ok flow s =>
      rw [ho] at hqueue
      cases flow with
      | stop => exact hqueue
      | goOn => exact (ih s).trans hqueue

/-- A turn leaves no command in the queue, however it ends. -/
theorem queue_turn [OnlyTells β] (r : Relay β ν) : (endState turn r).queue = [] := by
  have hobey := queue_obeyAll r.queue { r with queue := [] }
  rw [endState] at hobey ⊢
  rw [turn_eq]
  cases ho : obeyAll r.queue { r with queue := [] } with
  | error e s => simpa only [ho] using hobey
  | ok flow s =>
    rw [ho] at hobey
    cases flow with
    | stop => exact hobey
    | goOn => exact ((minds_sameCommands.work).atEnd s).queue.trans hobey

end Relay

end AckRelay
