import AckRelay.Proofs.FlowControl.Reconcile
import AckRelay.Proofs.Relay.Life
import AckRelay.Proofs.Relay.Rebalance

namespace AckRelay.Relay

variable {β ν : Type} {r s t : Relay ScriptedBroker ν} {p : Partition}

section Balance

structure Repaused (f : PartitionSet → PartitionSet) (r s : Relay ScriptedBroker ν) : Prop where
  queue : s.queue = r.queue
  held : s.desk.mode.held? = r.desk.mode.held?
  flow : s.desk.flow = r.desk.flow
  assignment : s.broker.assignment = r.broker.assignment
  paused : s.broker.paused = f r.broker.paused
  notifier : s.desk.notifier = r.desk.notifier

theorem Repaused.trans {f g : PartitionSet → PartitionSet} (hs : Repaused f r s)
    (ht : Repaused g s t) : Repaused (g ∘ f) r t :=
  ⟨ht.queue.trans hs.queue, ht.held.trans hs.held, ht.flow.trans hs.flow,
    ht.assignment.trans hs.assignment, ht.paused.trans (congrArg g hs.paused),
    ht.notifier.trans hs.notifier⟩

def askFor (op : List Partition → EStateM BrokerError β Unit) (counter : Counter)
    (ps : List Partition) : EStateM Halt (Relay β ν) Unit := do
  unless ps = [] do
    ask (op ps)
    measure (·.add counter ps.length)

def notePaused (changes : Reconciliation) (flow : FlowControl) :
    EStateM Halt (Relay β ν) Unit := do
  unless changes.isEmpty do
    measure fun m => { m with pausedPartitions := some flow.paused.size }

theorem balance_eq [Broker β] :
    (balance : EStateM Halt (Relay β ν) Unit) = (do
      let ps ← ask Broker.assignment
      let r ← get
      let (changes, flow) := r.desk.flow.reconcile ps
      modify (setFlow flow)
      askFor Broker.pause .partitionsPaused changes.pause
      askFor Broker.resume .partitionsResumed changes.resume
      notePaused changes flow) := by
  rw [balance]
  congr 1
  funext ps
  congr 1
  funext r
  simp only [askFor, notePaused]
  congr 1
  funext _
  split
  · split <;> simp
  · split <;> simp [*]

theorem repaused_notePaused {changes : Reconciliation} {flow : FlowControl} {u : Unit}
    (h : notePaused changes flow r = .ok u s) : Repaused id r s := by
  rw [notePaused] at h
  split at h
  · cases h
    exact ⟨rfl, rfl, rfl, rfl, rfl, rfl⟩
  · cases h
    exact ⟨rfl, rfl, rfl, rfl, rfl, rfl⟩

/-- A request for a change of no partition is not made, and would change nothing. -/
theorem repaused_askFor {call : List Partition → Call}
    {change : PartitionSet → Partition → PartitionSet} {counter : Counter} {ps : List Partition}
    {u : Unit}
    (h : askFor (fun ps => do
        ScriptedBroker.note (call ps)
        modify fun b => { b with paused := ps.foldl change b.paused }) counter ps r = .ok u s) :
    Repaused (fun paused => ps.foldl change paused) r s := by
  rw [askFor] at h
  split at h
  · next hps =>
    cases h
    subst hps
    exact ⟨rfl, rfl, rfl, rfl, rfl, rfl⟩
  · obtain ⟨_, t, ha, h⟩ := bind_eq_ok.1 h
    cases h
    rw [change_eq_ok ha]
    exact ⟨rfl, rfl, rfl, rfl, rfl, rfl⟩

theorem silent_askFor {call : List Partition → Call} (hcall : ∀ ps, (call ps).commit? = none)
    {change : PartitionSet → Partition → PartitionSet} (counter : Counter) (ps : List Partition) :
    Silent (askFor (fun ps => do
        ScriptedBroker.note (call ps)
        modify fun b => { b with paused := ps.foldl change b.paused }) counter ps :
      EStateM Halt (Relay ScriptedBroker ν) Unit) := by
  have hc := chains_uncommitted (ν := ν)
  rw [askFor]
  split
  · exact Ends.pure hc ()
  · exact Ends.bind hc (silent_change (hcall ps) fun _ => rfl) fun _ => Ends.modify fun _ => rfl

theorem silent_notePaused (changes : Reconciliation) (flow : FlowControl) :
    Silent (notePaused changes flow : EStateM Halt (Relay ScriptedBroker ν) Unit) := by
  rw [notePaused]
  split
  · exact Ends.pure chains_uncommitted ()
  · exact Ends.modify fun _ => rfl

theorem assignment_of_ask {ps : List Partition} (h : ask Broker.assignment r = .ok ps s) :
    ps = r.broker.assignment := by
  rw [ask_apply] at h
  cases ho : (Broker.assignment : EStateM _ ScriptedBroker _) r.broker with
  | error e c =>
    rw [ho] at h
    cases h
  | ok qs c =>
    rw [ho] at h
    cases h
    obtain ⟨_, b, hn, hb⟩ := bind_eq_ok.1 ho
    cases hb
    exact ((ScriptedBroker.still_note rfl).ok hn).assignment

variable [Notifier ν]

theorem silent_balance : Silent (balance : EStateM Halt (Relay ScriptedBroker ν) Unit) := by
  have hc := chains_uncommitted (ν := ν)
  rw [balance_eq]
  refine Ends.bind hc (calm_ask ScriptedBroker.still_assignment).silent fun ps => ?_
  refine Ends.bind hc (Ends.get hc) fun r => ?_
  refine Ends.bind hc (Ends.modify fun _ => rfl) fun _ => ?_
  refine Ends.bind hc (silent_askFor (fun _ => rfl) .partitionsPaused _) fun _ => ?_
  refine Ends.bind hc (silent_askFor (fun _ => rfl) .partitionsResumed _) fun _ => ?_
  exact silent_notePaused _ _

structure Balanced (r s : Relay ScriptedBroker ν) : Prop where
  queue : s.queue = r.queue
  held : s.desk.mode.held? = r.desk.mode.held?
  flow : s.desk.flow = (r.desk.flow.reconcile r.broker.assignment).2
  assignment : s.broker.assignment = r.broker.assignment
  paused : s.broker.paused =
    FlowControl.repause (r.desk.flow.reconcile r.broker.assignment).1.pause
      (r.desk.flow.reconcile r.broker.assignment).1.resume r.broker.paused
  commitCalls : s.broker.commitCalls = r.broker.commitCalls
  told : HearsNoRecords r.desk.notifier s.desk.notifier

theorem balanced_of_ok {u : Unit} (h : balance r = .ok u s) : Balanced r s := by
  have hcalls := silent_balance.ok h
  rw [balance_eq] at h
  obtain ⟨ps, r₁, hps, h⟩ := bind_eq_ok.1 h
  obtain ⟨_, _, hget, h⟩ := bind_eq_ok.1 h
  cases hget
  obtain ⟨_, r₂, hset, h⟩ := bind_eq_ok.1 h
  obtain ⟨_, r₃, hpause, h⟩ := bind_eq_ok.1 h
  obtain ⟨_, r₄, hresume, h⟩ := bind_eq_ok.1 h
  have hq : Quiet r r₁ := (calm_ask ScriptedBroker.still_assignment).ok hps
  have hps := assignment_of_ask hps
  have hr := ((repaused_askFor hpause).trans (repaused_askFor hresume)).trans
    (repaused_notePaused h)
  cases hset
  subst hps
  rw [hq.flow] at hr
  refine ⟨hr.queue.trans hq.queue, hr.held.trans hq.held, hr.flow, hr.assignment.trans hq.assignment,
    ?_, hcalls, ?_⟩
  · rw [hr.paused, ← hq.paused]
    rfl
  · rw [hr.notifier]
    exact hq.told

end Balance

section Poll

open ScriptedBroker

variable [Notifier ν]

structure Polled (r s : Relay ScriptedBroker ν) : Prop where
  queue : s.queue = r.queue
  held : s.desk.mode.held? =
    r.desk.mode.held?.map (r.broker.surrendered.foldl PartitionMap.erase)
  flow : s.desk.flow = r.desk.flow.remove r.broker.surrendered
  assignment : s.broker.assignment =
    r.broker.assignment.filter (· ∉ r.broker.surrendered) ++ r.broker.granted
  paused : s.broker.paused = r.broker.surrendered.foldl PartitionMap.erase r.broker.paused
  told : Takes (r.broker.change?.elim [] Rebalance.news) r.desk.notifier s.desk.notifier

def HandsOver (r s : Relay ScriptedBroker ν) : Prop :=
  ∃ accepted, s.broker.commitCalls = r.broker.commitCalls ++
    (r.broker.change?.bind (Rebalance.handsOver r.desk.mode.held?)).toList.map
      (fun m => (m, accepted))

omit [Notifier ν] in
theorem HandsOver.uncommitted (h : HandsOver r s)
    (hnone : r.broker.change?.bind (Rebalance.handsOver r.desk.mode.held?) = none) :
    Uncommitted r s := by
  obtain ⟨accepted, hcalls⟩ := h
  rw [hnone] at hcalls
  exact hcalls.trans (List.append_nil _)

theorem poll_of_ok {rs : List Record} {b : ScriptedBroker} {d : Desk ν}
    (h : ScriptedBroker.poll r.pollTimeout Desk.listener (r.broker, r.desk) = .ok rs (b, d)) :
    poll r = .ok rs { r with broker := b, desk := d } := by
  have hp : (Broker.poll r.pollTimeout Desk.listener : EStateM RelayError _ _) (r.broker, r.desk) =
      .ok rs (b, d) := h
  rw [poll, hp]

theorem poll_of_error {e : RelayError} {b : ScriptedBroker} {d : Desk ν}
    (h : ScriptedBroker.poll r.pollTimeout Desk.listener (r.broker, r.desk) = .error e (b, d)) :
    poll r = .error (.failed e) { r with broker := b, desk := d } := by
  have hp : (Broker.poll r.pollTimeout Desk.listener : EStateM RelayError _ _) (r.broker, r.desk) =
      .error e (b, d) := h
  rw [poll, hp]

theorem commitCalls_polled (timeout : Nat) (b : ScriptedBroker) :
    (b.polled timeout).commitCalls = b.commitCalls :=
  (commitCalls_noted (.poll timeout) b).trans (List.append_nil _)

/-- A poll without a rebalance gives the records that are due. -/
theorem poll_of_none (h : r.broker.change? = none) :
    (∃ s, poll r = .ok r.broker.arriving s ∧ Polled r s ∧ HandsOver r s) ∨
      ∃ e s, poll r = .error e s ∧ e.Blameless ∧ HandsOver r s := by
  have hsurrendered : r.broker.surrendered = [] := by rw [surrendered, h]; rfl
  have hgranted : r.broker.granted = [] := by rw [granted, h]; rfl
  have hover : (r.broker.change?.bind (Rebalance.handsOver r.desk.mode.held?)).toList.map
      (fun m => (m, true)) = [] := by rw [h]; rfl
  rcases poll_of_records r.pollTimeout Desk.listener r.desk h with ho | ⟨e, script, ho⟩
  · refine Or.inl ⟨_, poll_of_ok ho, ⟨rfl, ?_, ?_, ?_, ?_, ?_⟩, true, ?_⟩
    · rw [hsurrendered]
      cases r.desk.mode.held? <;> rfl
    · rw [hsurrendered]
      rfl
    · simp [hsurrendered, hgranted, polled, noted]
    · rw [hsurrendered]
      rfl
    · rw [h]
      exact .nothing _
    · rw [hover, commitCalls_polled, List.append_nil]
  · refine Or.inr ⟨_, _, poll_of_error ho, Halt.blameless_broker e, true, ?_⟩
    rw [hover]
    exact commitCalls_noted (.poll r.pollTimeout) r.broker

/-- A poll with a rebalance gives no records. The listener is told before the broker changes its
assignment. -/
theorem poll_with_change {change : Rebalance} (h : r.broker.change? = some change) :
    poll r =
      match Desk.onRebalance ScriptedBroker.handOver change
        (r.broker.polled r.pollTimeout, r.desk) with
      | .ok () (c, d) => .ok [] { r with broker := c.complete change, desk := d }
      | .error e (c, d) => .error (.failed e) { r with broker := c, desk := d } := by
  have hpoll := poll_of_change r.pollTimeout Desk.listener r.desk h
  have hnotify : (Desk.listener : Listener ScriptedBroker (Desk ν) RelayError).notify handOver change =
      Desk.onRebalance handOver change := rfl
  rw [rebalance, hnotify] at hpoll
  cases ho : Desk.onRebalance handOver change (r.broker.polled r.pollTimeout, r.desk) with
  | ok u x =>
    rw [ho] at hpoll
    exact poll_of_ok hpoll
  | error e x =>
    rw [ho] at hpoll
    exact poll_of_error hpoll

theorem poll_of_some {change : Rebalance} (h : r.broker.change? = some change) :
    (∃ s, poll r = .ok r.broker.arriving s ∧ Polled r s ∧ HandsOver r s) ∨
      ∃ e s, poll r = .error e s ∧ e.Blameless ∧ HandsOver r s := by
  have hsurrendered : r.broker.surrendered = change.released := by rw [surrendered, h]; rfl
  have hgranted : r.broker.granted = gained change := by rw [granted, h]; rfl
  have hover : ∀ {c}, Desk.HandedOver change r.desk (r.broker.polled r.pollTimeout) c →
      ∃ accepted, c.commitCalls = r.broker.commitCalls ++
        (r.broker.change?.bind (Rebalance.handsOver r.desk.mode.held?)).toList.map
          (fun m => (m, accepted)) := by
    rintro c ⟨accepted, hc⟩
    exact ⟨accepted, by rw [hc, commitCalls_polled, h]; rfl⟩
  rw [poll_with_change h]
  rcases Desk.onRebalance_cases change (r.broker.polled r.pollTimeout) r.desk with
    ⟨c, e, ho, hf⟩ | ⟨x, c, e, ho, -, hc⟩
  · rw [ho, arriving_of_change h]
    obtain ⟨accepted, hcalls⟩ := hover hf.commitCalls
    refine Or.inl ⟨_, rfl, ⟨rfl, ?_, ?_, ?_, ?_, ?_⟩, accepted, ?_⟩
    · rw [hsurrendered]
      exact hf.held
    · rw [hsurrendered]
      exact hf.flow
    · rw [hsurrendered, hgranted, assignment_complete, hf.assignment]
      rfl
    · rw [hsurrendered, paused_complete, hf.paused]
      rfl
    · rw [h]
      exact hf.told
    · rw [commitCalls_complete, hcalls]
  · rw [ho]
    exact Or.inr ⟨_, _, rfl, Halt.blameless_notify x, hover hc⟩

theorem poll_cases (r : Relay ScriptedBroker ν) :
    (∃ s, poll r = .ok r.broker.arriving s ∧ Polled r s ∧ HandsOver r s) ∨
      ∃ e s, poll r = .error e s ∧ e.Blameless ∧ HandsOver r s := by
  cases h : r.broker.change? with
  | none => exact poll_of_none h
  | some change => exact poll_of_some h

end Poll

section Receive

variable [Notifier ν]

theorem calm_announce : Calm (announce : EStateM Halt (Relay ScriptedBroker ν) Unit) := by
  have hc := Quiet.chains (ν := ν)
  refine Ends.bind hc (Ends.get hc) fun r => ?_
  split
  · refine Ends.bind hc (calm_ask ScriptedBroker.still_assignment) fun ps => ?_
    split
    · exact Ends.pure hc ()
    · exact Ends.bind hc (calm_tell rfl) fun _ => Ends.modify fun r => .of_phase r .consuming
  · exact Ends.pure hc ()

structure Delivered (rs : List Record) (r s : Relay ScriptedBroker ν) : Prop where
  queue : s.queue = r.queue
  held : s.desk.mode.held? = r.desk.mode.held?
  flow : r.desk.flow.deliverEach? rs = some s.desk.flow
  assignment : s.broker.assignment = r.broker.assignment
  paused : s.broker.paused = r.broker.paused
  told : Takes (rs.map Notification.record) r.desk.notifier s.desk.notifier

theorem noCommit_deliverAll (rs : List Record) :
    Ends Uncommitted (fun r _ s => Uncommitted r s)
      (deliverAll rs : EStateM Halt (Relay ScriptedBroker ν) Unit) := by
  have hc := chains_noCommit (ν := ν)
  induction rs with
  | nil => exact Ends.pure hc ()
  | cons record rs ih =>
    exact Ends.bind hc ((silent_tell (.record record)).mono id And.left) fun _ =>
      Ends.bind hc (ends_track (fun _ _ => rfl) fun _ => rfl) fun _ => ih

theorem noCommit_deliver (rs : List Record) :
    Ends Uncommitted (fun r _ s => Uncommitted r s)
      (deliver rs : EStateM Halt (Relay ScriptedBroker ν) Unit) := by
  have hc := chains_noCommit (ν := ν)
  rw [deliver]
  split
  · exact Ends.pure hc ()
  · exact Ends.bind hc (Ends.modify fun _ => rfl) fun _ =>
      Ends.bind hc (noCommit_deliverAll rs) fun _ => Ends.modify fun _ => rfl

/-- The records are handed over until the host does not take one, or there is no room to count
one. -/
theorem deliverAll_eq_error {rs : List Record} {e : Halt} (h : deliverAll rs r = .error e s) :
    e.Blameless ∨ e = .crashed ∧ r.desk.flow.deliverEach? rs = none := by
  induction rs generalizing r with
  | nil => cases h
  | cons record rs ih =>
    rw [deliverAll, bind_apply] at h
    cases htell : tell (.record record) r with
    | error e' t =>
      rw [htell] at h
      cases h
      exact Or.inl ((silent_tell _).error htell).2
    | ok u t =>
      obtain ⟨w, -, rfl⟩ := tell_eq_ok htell
      rw [htell] at h
      simp only [bind_apply, track_apply] at h
      rw [FlowControl.deliverEach?, List.foldlM_cons]
      cases hflow : r.desk.flow.deliver? record.partition record.size with
      | none =>
        simp only [hflow] at h
        cases h
        exact Or.inr ⟨rfl, rfl⟩
      | some flow =>
        simp only [hflow] at h
        exact ih h

theorem deliver_eq_error {rs : List Record} {e : Halt} (h : deliver rs r = .error e s) :
    e.Blameless ∨ e = .crashed ∧ r.desk.flow.deliverEach? rs = none := by
  rw [deliver] at h
  split at h
  · cases h
  · simp only [bind_apply, measure_apply] at h
    split at h
    · cases h
    · next hall =>
      cases h
      have herror := deliverAll_eq_error hall
      exact herror

theorem delivered_of_deliverAll {rs : List Record} {u : Unit} (h : deliverAll rs r = .ok u s) :
    Delivered rs r s := by
  induction rs generalizing r with
  | nil =>
    cases h
    exact ⟨rfl, rfl, rfl, rfl, rfl, .nothing _⟩
  | cons record rs ih =>
    obtain ⟨_, t, htell, h⟩ := bind_eq_ok.1 h
    obtain ⟨_, _, htrack, h⟩ := bind_eq_ok.1 h
    obtain ⟨w, hw, rfl⟩ := tell_eq_ok htell
    obtain ⟨flow, hflow, rfl⟩ := track_eq_ok htrack
    have hd := ih h
    refine ⟨hd.queue, hd.held, ?_, hd.assignment, hd.paused, hw.append hd.told⟩
    exact FlowControl.deliverEach?_cons.2 ⟨flow, hflow, hd.flow⟩

theorem delivered_of_ok {rs : List Record} {u : Unit} (h : deliver rs r = .ok u s) :
    Delivered rs r s := by
  rw [deliver] at h
  split at h
  · next hrs =>
    cases h
    subst hrs
    exact ⟨rfl, rfl, rfl, rfl, rfl, .nothing _⟩
  · obtain ⟨_, _, hbatch, h⟩ := bind_eq_ok.1 h
    cases hbatch
    obtain ⟨_, t, hall, h⟩ := bind_eq_ok.1 h
    have hd := delivered_of_deliverAll hall
    cases h
    exact ⟨hd.queue, hd.held, hd.flow, hd.assignment, hd.paused, hd.told⟩

structure Received (r s : Relay ScriptedBroker ν) : Prop where
  queue : s.queue = r.queue
  held : s.desk.mode.held? =
    r.desk.mode.held?.map (r.broker.surrendered.foldl PartitionMap.erase)
  flow : (r.desk.flow.remove r.broker.surrendered).deliverEach? r.broker.arriving =
    some s.desk.flow
  assignment : s.broker.assignment =
    r.broker.assignment.filter (· ∉ r.broker.surrendered) ++ r.broker.granted
  paused : s.broker.paused = r.broker.surrendered.foldl PartitionMap.erase r.broker.paused
  told : ∃ ns, Takes (r.broker.change?.elim [] Rebalance.news ++
      (ns ++ r.broker.arriving.map Notification.record)) r.desk.notifier s.desk.notifier ∧
    ∀ n ∈ ns, n.isOfRecords = false

theorem received_of_ok {u : Unit} (h : receive r = .ok u s) : Received r s := by
  obtain ⟨rs, r₁, hpoll, h⟩ := bind_eq_ok.1 h
  obtain ⟨_, r₂, hannounce, h⟩ := bind_eq_ok.1 h
  rcases poll_cases r with ⟨t, ho, hp, -⟩ | ⟨e, t, ho, -⟩
  · cases ho.symm.trans hpoll
    have hq := calm_announce.ok hannounce
    have hd := delivered_of_ok h
    obtain ⟨ns, hns, hquiet⟩ := hq.told
    exact ⟨hd.queue.trans (hq.queue.trans hp.queue), hd.held.trans (hq.held.trans hp.held),
      by rw [← hp.flow, ← hq.flow, hd.flow], hd.assignment.trans (hq.assignment.trans hp.assignment),
      hd.paused.trans (hq.paused.trans hp.paused), ns, hp.told.append (hns.append hd.told), hquiet⟩
  · cases ho.symm.trans hpoll

theorem noCommit_handOn (rs : List Record) :
    Ends Uncommitted (fun r _ s => Uncommitted r s)
      (do announce; deliver rs : EStateM Halt (Relay ScriptedBroker ν) Unit) :=
  Ends.bind chains_noCommit (calm_announce.silent.mono id And.left) fun _ => noCommit_deliver rs

/-- What comes after a poll commits nothing, even if it fails. -/
theorem uncommitted_receive {rs : List Record} (h : poll r = .ok rs t) :
    Uncommitted t (endState receive r) := by
  have hend : endState receive r = endState (do announce; deliver rs) t := by
    refine endState_congr ?_
    rw [receive, bind_apply, h]
  rw [hend]
  exact (noCommit_handOn rs).atEnd t

theorem endState_receive_of_error {e : Halt} (h : poll r = .error e t) :
    endState receive r = t := by
  apply endState_of_error (e := e)
  rw [receive, bind_apply, h]

/-- A poll makes its commit even if it comes to nothing in the end. -/
theorem handsOver_receive (r : Relay ScriptedBroker ν) : HandsOver r (endState receive r) := by
  rcases poll_cases r with ⟨t, ho, -, hover⟩ | ⟨e, t, ho, -, hover⟩
  · obtain ⟨accepted, hcalls⟩ := hover
    exact ⟨accepted, (uncommitted_receive ho).trans hcalls⟩
  · rwa [endState_receive_of_error ho]

def listened (change : Rebalance) (r : Relay ScriptedBroker ν) : ScriptedBroker :=
  (endState (Desk.onRebalance ScriptedBroker.handOver change)
    (r.broker.polled r.pollTimeout, r.desk)).1

/-- By then all commits are made, and the assignment is what it was. -/
theorem listened_eq {change : Rebalance} (h : r.broker.change? = some change) :
    (listened change r).assignment = r.broker.assignment ∧
      (endState receive r).broker.commitCalls = (listened change r).commitCalls := by
  have hp := poll_with_change h
  rw [listened]
  rcases Desk.onRebalance_cases change (r.broker.polled r.pollTimeout) r.desk with
    ⟨c, e, ho, hf⟩ | ⟨x, c, e, ho, ha, -⟩
  · rw [ho] at hp
    rw [endState_of_ok ho]
    exact ⟨hf.assignment, (uncommitted_receive hp).trans (ScriptedBroker.commitCalls_complete c change)⟩
  · rw [ho] at hp
    rw [endState_of_error ho, endState_receive_of_error hp]
    exact ⟨ha, rfl⟩

/-- The poll brings records whose sizes do not fit with those that are pending. -/
def Overflows (r : Relay ScriptedBroker ν) : Prop :=
  (r.desk.flow.remove r.broker.surrendered).deliverEach? r.broker.arriving = none

theorem receive_eq_error {e : Halt} (h : receive r = .error e s) :
    e.Blameless ∨ e = .crashed ∧ r.Overflows := by
  rcases poll_cases r with ⟨t, ho, hp, -⟩ | ⟨e', t, ho, he, -⟩
  · rw [receive, bind_apply, ho] at h
    simp only [bind_apply] at h
    cases ha : announce t with
    | error e' u =>
      rw [ha] at h
      cases h
      exact Or.inl (calm_announce.error ha).2
    | ok _ u =>
      rw [ha] at h
      rw [Overflows, ← hp.flow, ← (calm_announce.ok ha).flow]
      exact deliver_eq_error h
  · rw [receive, bind_apply, ho] at h
    cases h
    exact Or.inl he

end Receive

end AckRelay.Relay
