import AckRelay.Proofs.Relay.Step

/-!
Flow control, the broker and the gauge each hold an account of what is paused, and they are brought
up to date in different ways. Here they are found to agree between any two acts of a relay
(`pauses_stay_in_step`).
-/

namespace AckRelay

namespace FlowControl

/-- What is decided about further partitions is added to what was decided before. -/
theorem decideEach_grows (ps : List Partition) (d : Reconciliation) (f : FlowControl) :
    d.pause <:+ (decideEach ps d f).1.pause ∧ d.resume <:+ (decideEach ps d f).1.resume := by
  induction ps generalizing d f with
  | nil => exact ⟨List.suffix_rfl, List.suffix_rfl⟩
  | cons p ps ih =>
    rw [decideEach]
    split
    · split
      · have hrest := ih { d with resume := p :: d.resume } { f with paused := f.paused.erase p }
        exact ⟨hrest.1, (List.suffix_cons p d.resume).trans hrest.2⟩
      · exact ih d f
    · split
      · have hrest := ih { d with pause := p :: d.pause } { f with paused := f.paused.insert p () }
        exact ⟨(List.suffix_cons p d.pause).trans hrest.1, hrest.2⟩
      · exact ih d f

/-- A reconciliation that asks for nothing changes no switch. -/
theorem decideEach_still (ps : List Partition) (f : FlowControl)
    (h : (decideEach ps ⟨[], []⟩ f).1 = ⟨[], []⟩) : (decideEach ps ⟨[], []⟩ f).2 = f := by
  induction ps with
  | nil => rfl
  | cons p ps ih =>
    rw [decideEach] at h ⊢
    split at h
    · next hpaused =>
      rw [if_pos hpaused]
      split at h
      · have hgrows := (decideEach_grows ps ⟨[], [p]⟩ { f with paused := f.paused.erase p }).2
        rw [h] at hgrows
        exact absurd (List.suffix_nil.1 hgrows) (by simp)
      · next hresume =>
        rw [if_neg hresume]
        exact ih h
    · next hpaused =>
      rw [if_neg hpaused]
      split at h
      · have hgrows := (decideEach_grows ps ⟨[p], []⟩ { f with paused := f.paused.insert p () }).1
        rw [h] at hgrows
        exact absurd (List.suffix_nil.1 hgrows) (by simp)
      · next hpause =>
        rw [if_neg hpause]
        exact ih h

/-- If no partition is to be paused or resumed, flow control stays as it is. -/
theorem reconcile_still {f : FlowControl} {ps : List Partition}
    (h : (f.reconcile ps).1.isEmpty = true) : (f.reconcile ps).2 = f := by
  have hempty : ∀ {l : List Partition}, (Partition.sort l).isEmpty = true → l = [] := by
    intro l hl
    have hlength : (Partition.sort l).length = l.length := List.length_mergeSort l
    rw [List.isEmpty_iff.1 hl] at hlength
    exact List.eq_nil_of_length_eq_zero hlength.symm
  rw [Reconciliation.isEmpty, Bool.and_eq_true] at h
  have hnone : (decideEach ps ⟨[], []⟩ f).1 = ⟨[], []⟩ := by
    have hpause := hempty h.1
    have hresume := hempty h.2
    cases hd : (decideEach ps ⟨[], []⟩ f).1
    rw [hd] at hpause hresume
    exact congr (congrArg Reconciliation.mk hpause) hresume
  exact decideEach_still ps f hnone

end FlowControl

/-- The partitions that a poll brings are new to the assignment, and each is named once. -/
def Moment.BringsNew {ν : Type} (m : Moment ν) : Prop :=
  m.act = .receive → m.before.broker.granted.Nodup ∧
    ∀ p ∈ m.before.broker.granted, p ∉ m.before.broker.assignment

instance {ν : Type} (m : Moment ν) : Decidable m.BringsNew := inferInstanceAs (Decidable (_ → _))

namespace Relay

variable {ν : Type} {r s t : Relay ScriptedBroker ν}

def Gauged (r s : Relay ScriptedBroker ν) : Prop :=
  (s.desk.metrics.pausedPartitions = r.desk.metrics.pausedPartitions ∧
      s.desk.flow.paused = r.desk.flow.paused) ∨
    s.desk.metrics.pausedPartitions = some s.desk.flow.paused.size

abbrev KeepsGauge {α : Type} (op : EStateM Halt (Relay ScriptedBroker ν) α) : Prop :=
  Ends Gauged (fun _ _ _ => True) op

theorem chains_gauged : Chains (Gauged (ν := ν)) (fun _ (_ : Halt) _ => True) where
  refl _ := Or.inl ⟨rfl, rfl⟩
  trans := by
    intro r s t hs ht
    rcases ht with ⟨hgauge, hpaused⟩ | ht
    · rcases hs with ⟨hgauge', hpaused'⟩ | hs
      · exact Or.inl ⟨hgauge.trans hgauge', hpaused.trans hpaused'⟩
      · refine Or.inr ?_
        rw [hgauge, hs, hpaused]
    · exact Or.inr ht
  error _ _ := trivial

section Operations

variable {α : Type}

theorem gauged_ask (op : EStateM BrokerError ScriptedBroker α) :
    KeepsGauge (ask op : EStateM Halt (Relay ScriptedBroker ν) α) :=
  ends_ask (fun _ _ _ _ => Or.inl ⟨rfl, rfl⟩) fun _ _ _ _ => trivial

theorem gauged_measure {f : Metrics → Metrics}
    (hf : ∀ m, (f m).pausedPartitions = m.pausedPartitions) :
    KeepsGauge (measure f : EStateM Halt (Relay ScriptedBroker ν) Unit) :=
  Ends.modify fun r => Or.inl ⟨hf r.desk.metrics, rfl⟩

theorem gauged_releaseOldest (p : Partition) :
    KeepsGauge (releaseOldest p : EStateM Halt (Relay ScriptedBroker ν) Unit) := by
  refine ⟨fun {r u s} h => ?_, fun _ => trivial⟩
  rw [releaseOldest_apply] at h
  cases hflow : r.desk.flow.acknowledge? p with
  | none =>
    rw [hflow] at h
    cases h
  | some flow =>
    rw [hflow] at h
    cases h
    have hpaused := (FlowControl.acknowledge_eq hflow).2.1
    exact Or.inl ⟨rfl, hpaused⟩

theorem gauged_flush (forced : Bool) :
    KeepsGauge (flush forced : EStateM Halt (Relay ScriptedBroker ν) Unit) := by
  refine ⟨fun {r u s} h => ?_, fun _ => trivial⟩
  cases hm : r.desk.mode with
  | anonymous catchUp =>
    rw [flush_of_anonymous hm] at h
    cases h
    exact Or.inl ⟨rfl, rfl⟩
  | grouped batch =>
    rw [flush_of_grouped hm rfl] at h
    have hcount : ∀ trigger outcome, (r.desk.metrics.addCommit trigger outcome).pausedPartitions =
        r.desk.metrics.pausedPartitions := by
      intro trigger outcome
      cases outcome <;> rfl
    split at h
    · cases h
    · cases h
      exact Or.inl ⟨hcount _ _, rfl⟩
    · cases h
      exact Or.inl ⟨hcount _ _, rfl⟩

theorem gauged_askFor (op : List Partition → EStateM BrokerError ScriptedBroker Unit)
    (counter : Counter) (ps : List Partition) :
    KeepsGauge (askFor op counter ps : EStateM Halt (Relay ScriptedBroker ν) Unit) := by
  rw [askFor]
  split
  · exact Ends.pure chains_gauged ()
  · exact Ends.bind chains_gauged (gauged_ask _) fun _ => gauged_measure fun _ => rfl

/-- The gauge is set unless nothing has changed. -/
theorem gauged_balance :
    KeepsGauge (balance : EStateM Halt (Relay ScriptedBroker ν) Unit) := by
  refine ⟨fun {r u s} h => ?_, fun _ => trivial⟩
  rw [balance_eq] at h
  obtain ⟨ps, r₁, hps, h⟩ := bind_eq_ok.1 h
  obtain ⟨_, _, hget, h⟩ := bind_eq_ok.1 h
  cases hget
  cases hdecided : r₁.desk.flow.reconcile ps with
  | mk changes flow =>
    rw [hdecided] at h
    obtain ⟨_, r₂, hset, hrest⟩ := bind_eq_ok.1 h
    obtain ⟨_, r₃, hpause, hrest⟩ := bind_eq_ok.1 hrest
    obtain ⟨_, r₄, hresume, hnote⟩ := bind_eq_ok.1 hrest
    cases hset
    have hfirst : Gauged r r₁ := (gauged_ask _).ok hps
    have hlast : Gauged (r₁.setFlow flow) r₄ :=
      chains_gauged.trans ((gauged_askFor _ _ _).ok hpause) ((gauged_askFor _ _ _).ok hresume)
    have hflow : r₄.desk.flow = flow :=
      (repaused_askFor hresume).flow.trans (repaused_askFor hpause).flow
    rw [notePaused] at hnote
    split at hnote
    · next hempty =>
      cases hnote
      have hsame : flow = r₁.desk.flow := by
        have hstill := @FlowControl.reconcile_still r₁.desk.flow ps
        rw [hdecided] at hstill
        exact hstill hempty
      rw [hsame] at hlast
      exact chains_gauged.trans hfirst hlast
    · cases hnote
      have hsize : some flow.paused.size = some r₄.desk.flow.paused.size := by rw [hflow]
      exact Or.inr hsize

theorem gauged_partitionsOf (topics : List String) :
    KeepsGauge (partitionsOf topics : EStateM Halt (Relay ScriptedBroker ν) _) := by
  induction topics with
  | nil => exact Ends.pure chains_gauged []
  | cons topic topics ih =>
    exact Ends.bind chains_gauged (gauged_ask _) fun ps =>
      Ends.bind chains_gauged ih fun qs => Ends.pure chains_gauged (ps ++ qs)

theorem gauged_stop : KeepsGauge (stop : EStateM Halt (Relay ScriptedBroker ν) Unit) :=
  Ends.bind chains_gauged (gauged_flush true) fun _ =>
    Ends.bind chains_gauged (gauged_ask _) fun _ => Ends.modify fun _ => Or.inl ⟨rfl, rfl⟩

variable [Notifier ν]

theorem gauged_tell (n : Notification) :
    KeepsGauge (tell n : EStateM Halt (Relay ScriptedBroker ν) Unit) := by
  refine ⟨fun h => ?_, fun _ => trivial⟩
  obtain ⟨w, -, rfl⟩ := tell_eq_ok h
  exact Or.inl ⟨rfl, rfl⟩

theorem gauged_start : KeepsGauge (start : EStateM Halt (Relay ScriptedBroker ν) Unit) := by
  have hc := chains_gauged (ν := ν)
  refine Ends.bind hc (Ends.get hc) fun r => ?_
  split
  · exact gauged_ask _
  · refine Ends.bind hc (Ends.get hc) fun r => ?_
    refine Ends.bind hc (gauged_partitionsOf r.topics) fun ps => ?_
    refine Ends.bind hc (gauged_ask _) fun _ => ?_
    refine Ends.bind hc (gauged_ask _) fun ends => ?_
    refine Ends.bind hc (gauged_tell _) fun _ => ?_
    refine Ends.bind hc (Ends.modify fun _ => Or.inl ⟨rfl, rfl⟩) fun _ => ?_
    split
    · exact Ends.bind hc (gauged_tell _) fun _ => Ends.modify fun _ => Or.inl ⟨rfl, rfl⟩
    · exact Ends.modify fun _ => Or.inl ⟨rfl, rfl⟩

theorem gauged_acknowledge (pos : Position) :
    KeepsGauge (acknowledge pos : EStateM Halt (Relay ScriptedBroker ν) Unit) := by
  have hc := chains_gauged (ν := ν)
  refine Ends.bind hc (Ends.get hc) fun r => ?_
  split
  · split
    · exact gauged_measure fun _ => rfl
    · exact Ends.bind hc (gauged_releaseOldest _) fun _ => Ends.modify fun _ => Or.inl ⟨rfl, rfl⟩
  · next catchUp _ =>
    have htell : ∀ caughtUp : Bool,
        KeepsGauge (if caughtUp then tell .caughtUp else pure () :
          EStateM Halt (Relay ScriptedBroker ν) Unit) := by
      intro caughtUp
      split
      · exact gauged_tell .caughtUp
      · exact Ends.pure hc ()
    exact Ends.bind hc (gauged_releaseOldest _) fun _ =>
      Ends.bind hc (Ends.modify fun _ => Or.inl ⟨rfl, rfl⟩) fun _ => htell _

theorem gauged_obey (c : Command) :
    KeepsGauge (obey c : EStateM Halt (Relay ScriptedBroker ν) Flow) := by
  have hc := chains_gauged (ν := ν)
  refine Ends.bind hc (gauged_measure fun _ => rfl) fun _ => ?_
  cases c with
  | ack pos => exact Ends.bind hc (gauged_acknowledge pos) fun _ => Ends.pure hc _
  | committedOffsets =>
    refine Ends.bind hc ?_ fun _ => Ends.pure hc _
    exact Ends.bind hc (gauged_ask _) fun _ => Ends.bind hc (gauged_ask _) fun _ => gauged_tell _
  | stop => exact Ends.bind hc gauged_stop fun _ => Ends.pure hc _
  | unrecognized raw => exact Ends.throw fun _ => trivial

/-- A rebalance sets the gauge if it takes partitions away, and only then. -/
theorem gauged_onRebalance {change : Rebalance} {b c : ScriptedBroker} {d e : Desk ν} {u : Unit}
    (h : Desk.onRebalance ScriptedBroker.handOver change (b, d) = .ok u (c, e)) :
    (e.metrics.pausedPartitions = d.metrics.pausedPartitions ∧ e.flow.paused = d.flow.paused) ∨
      e.metrics.pausedPartitions = some e.flow.paused.size := by
  by_cases hempty : change.partitions = []
  · rw [Desk.onRebalance_of_empty hempty] at h
    cases h
    exact Or.inl ⟨rfl, rfl⟩
  · obtain ⟨n, -, ho⟩ := Desk.onRebalance_of_some hempty (b := b) (d := d)
    rw [ho, Desk.tell] at h
    cases hn : Notifier.emit n
        (Desk.adjusted change b (d.count (.rebalances change.kind))).2.notifier with
    | error x w =>
      rw [hn] at h
      cases h
    | ok _ w =>
      rw [hn] at h
      cases h
      cases change with
      | assigned ps => exact Or.inl ⟨rfl, rfl⟩
      | revoked ps => exact Or.inr rfl
      | lost ps => exact Or.inr rfl

theorem gauged_poll : KeepsGauge (poll : EStateM Halt (Relay ScriptedBroker ν) _) := by
  refine ⟨fun {r rs s} h => ?_, fun _ => trivial⟩
  cases hchange : r.broker.change? with
  | none =>
    rcases ScriptedBroker.poll_of_records r.pollTimeout Desk.listener r.desk hchange with
      ho | ⟨e, script, ho⟩
    · cases (poll_of_ok ho).symm.trans h
      exact Or.inl ⟨rfl, rfl⟩
    · cases (poll_of_error ho).symm.trans h
  | some change =>
    rw [poll_with_change hchange] at h
    cases ho : Desk.onRebalance ScriptedBroker.handOver change
        (r.broker.polled r.pollTimeout, r.desk) with
    | error e x =>
      rw [ho] at h
      cases h
    | ok u x =>
      rw [ho] at h
      cases h
      exact gauged_onRebalance ho

omit [Notifier ν] in
theorem gauged_track {record : Record} :
    KeepsGauge (track record : EStateM Halt (Relay ScriptedBroker ν) Unit) := by
  refine ⟨fun h => ?_, fun _ => trivial⟩
  obtain ⟨flow, hflow, rfl⟩ := track_eq_ok h
  exact Or.inl ⟨rfl, (FlowControl.deliver_eq hflow).2⟩

theorem gauged_deliverAll (rs : List Record) :
    KeepsGauge (deliverAll rs : EStateM Halt (Relay ScriptedBroker ν) Unit) := by
  induction rs with
  | nil => exact Ends.pure chains_gauged ()
  | cons record rs ih =>
    exact Ends.bind chains_gauged (gauged_tell _) fun _ =>
      Ends.bind chains_gauged gauged_track fun _ => ih

theorem gauged_receive :
    KeepsGauge (receive : EStateM Halt (Relay ScriptedBroker ν) Unit) := by
  have hc := chains_gauged (ν := ν)
  refine Ends.bind hc gauged_poll fun rs => Ends.bind hc ?_ fun _ => ?_
  · refine Ends.bind hc (Ends.get hc) fun r => ?_
    split
    · refine Ends.bind hc (gauged_ask _) fun ps => ?_
      split
      · exact Ends.pure hc ()
      · exact Ends.bind hc (gauged_tell _) fun _ => Ends.modify fun _ => Or.inl ⟨rfl, rfl⟩
    · exact Ends.pure hc ()
  · rw [deliver]
    split
    · exact Ends.pure hc ()
    · exact Ends.bind hc (gauged_measure fun _ => rfl) fun _ =>
        Ends.bind hc (gauged_deliverAll rs) fun _ => gauged_measure fun _ => rfl

theorem gauged_perform (a : Act) :
    KeepsGauge (perform a : EStateM Halt (Relay ScriptedBroker ν) Flow) := by
  have hc := chains_gauged (ν := ν)
  cases a with
  | start => exact Ends.bind hc gauged_start fun _ => Ends.pure hc _
  | await t => exact Ends.bind hc (Ends.modify fun _ => Or.inl ⟨rfl, rfl⟩) fun _ => Ends.pure hc _
  | obey c => exact gauged_obey c
  | balance => exact Ends.bind hc gauged_balance fun _ => Ends.pure hc _
  | flush => exact Ends.bind hc (gauged_flush false) fun _ => Ends.pure hc _
  | receive => exact Ends.bind hc gauged_receive fun _ => Ends.pure hc _

end Operations

structure Agreeing (r : Relay ScriptedBroker ν) : Prop where
  agree : r.desk.flow.paused = r.broker.paused
  nodup : r.broker.assignment.Nodup

namespace Agreeing

theorem congr (h : Agreeing r) (hflow : s.desk.flow.paused = r.desk.flow.paused)
    (hbroker : s.broker.paused = r.broker.paused)
    (hassigned : s.broker.assignment = r.broker.assignment) : Agreeing s := by
  constructor
  · rw [hflow, hbroker]
    exact h.agree
  · rw [hassigned]
    exact h.nodup

variable [Notifier ν]

/-- Where nothing is paused, told or assigned, agreement stays. -/
theorem of_quiet (h : Agreeing r) (hq : Quiet r s) : Agreeing s :=
  h.congr (congrArg FlowControl.paused hq.flow) hq.paused hq.assignment

theorem acked {pos : Position} (h : Agreeing r) (ha : Acked pos r s) : Agreeing s :=
  h.congr (FlowControl.acknowledge_eq ha.flow).2.1 ha.paused ha.assignment

theorem balanced (h : Agreeing r) (hb : Balanced r s) : Agreeing s := by
  constructor
  · rw [hb.flow, hb.paused]
    exact (FlowControl.repause_decided r.desk.flow h.nodup _ h.agree.symm).symm
  · rw [hb.assignment]
    exact h.nodup

theorem received (h : Agreeing r) (hr : Received r s)
    (hnew : r.broker.granted.Nodup ∧ ∀ p ∈ r.broker.granted, p ∉ r.broker.assignment) :
    Agreeing s := by
  have hdelivered : s.desk.flow.paused =
      r.broker.surrendered.foldl PartitionMap.erase r.desk.flow.paused := by
    rw [(FlowControl.deliverEach_eq hr.flow).2, FlowControl.paused_remove]
  constructor
  · rw [hdelivered, hr.paused, h.agree]
  · rw [hr.assignment]
    refine List.nodup_append.2 ⟨h.nodup.filter _, hnew.1, ?_⟩
    intro p hp q hq hpq
    apply hnew.2 q hq
    rw [← hpq]
    exact (List.mem_filter.1 hp).1

theorem step {a : Act} (h : Agreeing r) (hs : Step r s a)
    (hstart : a = .start → r.desk.mode.held? = none → r.topics.Nodup)
    (hnew : (⟨r, a⟩ : Moment ν).BringsNew) : Agreeing s := by
  cases hs with
  | started _ hq => exact h.of_quiet hq
  | assumed hheld ha =>
    refine ⟨?_, ha.assignment (hstart rfl hheld)⟩
    rw [ha.flow, ha.paused]
    exact h.agree
  | passed _ hq => exact h.of_quiet hq
  | reported hq => exact h.of_quiet hq
  | ignored _ _ hq => exact h.of_quiet hq
  | acknowledged _ _ ha => exact h.acked ha
  | balanced hb => exact h.balanced hb
  | idled hq => exact h.of_quiet hq
  | committed _ hc => exact h.congr (congrArg FlowControl.paused hc.flow) hc.paused hc.assignment
  | received hr => exact h.received hr (hnew rfl)

end Agreeing

section Stop

variable [Notifier ν] {a : Act}

/-- A stop that succeeds leaves the tracker and the partitions of the broker as they were. -/
theorem stop_eq_ok {u : Unit} (h : stop r = .ok u s) :
    s.desk.flow = r.desk.flow ∧ s.broker.paused = r.broker.paused ∧
      s.broker.assignment = r.broker.assignment := by
  obtain ⟨_, t, hflush, hleave⟩ := bind_eq_ok.1 h
  have hq : Quiet t s := calm_leave.ok hleave
  rcases flush_eq_ok hflush with ⟨hq', -⟩ | ⟨offsets, hc⟩
  · exact ⟨hq.flow.trans hq'.flow, hq.paused.trans hq'.paused,
      hq.assignment.trans hq'.assignment⟩
  · exact ⟨hq.flow.trans hc.flow, hq.paused.trans hc.paused, hq.assignment.trans hc.assignment⟩

/-- Only the command to stop ends a relay well. -/
theorem stopped_of_perform (h : perform a r = .ok .stop s) :
    a = .obey .stop ∧ s.desk.flow = r.desk.flow ∧ s.broker.paused = r.broker.paused ∧
      s.broker.assignment = r.broker.assignment := by
  have hgo : ∀ {op : EStateM Halt (Relay ScriptedBroker ν) Unit} {q : Relay ScriptedBroker ν},
      (do op; return Flow.goOn) q ≠ .ok .stop s := by
    intro op q hq
    obtain ⟨_, t, -, ht⟩ := bind_eq_ok.1 hq
    cases ht
  cases a with
  | start => exact absurd h hgo
  | await t => exact absurd h hgo
  | balance => exact absurd h hgo
  | flush => exact absurd h hgo
  | receive => exact absurd h hgo
  | obey c =>
    rw [perform, obey_apply] at h
    cases c with
    | ack pos => exact absurd h hgo
    | committedOffsets => exact absurd h hgo
    | unrecognized raw => cases h
    | stop =>
      obtain ⟨_, t, hstop, ht⟩ := bind_eq_ok.1 h
      cases ht
      exact ⟨rfl, stop_eq_ok (r := r.counting .stop) hstop⟩

end Stop

def Shown (r : Relay ScriptedBroker ν) : Prop :=
  ∀ n, r.desk.metrics.pausedPartitions = some n → n = r.desk.flow.paused.size

theorem Shown.gauged (h : Shown r) (hs : Gauged r s) : Shown s := by
  intro n hn
  rcases hs with ⟨hgauge, hpaused⟩ | hset
  · rw [hpaused]
    exact h n (hgauge ▸ hn)
  · rw [hset] at hn
    exact (Option.some.inj hn).symm

/-- Flow control and the broker have the same partitions paused, and the gauge shows their number if
it was ever set. -/
structure InStep (r : Relay ScriptedBroker ν) : Prop where
  paused : r.desk.flow.paused = r.broker.paused
  gauge : ∀ n, r.desk.metrics.pausedPartitions = some n → n = r.broker.paused.size

/-- Agreement and a gauge that shows it are what it means to be in step. -/
theorem inStep_of (h : Agreeing r) (hs : Shown r) : InStep r := by
  refine ⟨h.agree, fun n hn => ?_⟩
  rw [← h.agree]
  exact hs n hn

section Life

variable [Notifier ν] {settings : RelaySettings} {b : ScriptedBroker} {w : ν} {now : Nat}
  {ts : List Round} {past : List (Moment ν)} {m : Moment ν}

omit [Notifier ν] in
/-- A relay starts in agreement if the broker has nothing paused and no partition twice. -/
theorem agreeing_create (hpaused : b.paused = ∅) (hnodup : b.assignment.Nodup) :
    Agreeing (create settings b w now) :=
  ⟨hpaused.symm, hnodup⟩

omit [Notifier ν] in
theorem shown_create : Shown (create settings b w now : Relay ScriptedBroker ν) := by
  intro n hn
  cases hn

/-- Without a group the relay starts with the topics that it was created with. -/
theorem nodup_of_start (htopics : settings.group = none → settings.topics.Nodup)
    (h : past ++ [m] <+: trail (lifeOf ts) (create settings b w now)) (hm : m.act = .start)
    (hheld : m.before.desk.mode.held? = none) : m.before.topics.Nodup := by
  rw [before_of_start h hm] at hheld ⊢
  apply htopics
  cases hg : settings.group with
  | none => rfl
  | some g => simp [create, hg, Mode.held?] at hheld

theorem agreeing_of_trail (hpaused : b.paused = ∅) (hnodup : b.assignment.Nodup)
    (htopics : settings.group = none → settings.topics.Nodup)
    (hnew : ∀ m ∈ trail (lifeOf ts) (create settings b w now), m.BringsNew)
    (h : past ++ [m] <+: trail (lifeOf ts) (create settings b w now)) :
    Agreeing m.before ∧ Shown m.before := by
  refine trail_induction (I := fun _ m => Agreeing m.before ∧ Shown m.before)
    (fun m hm => ?_) (fun past m n hn hm => ?_) past m h
  · rw [before_of_first hm]
    exact ⟨agreeing_create hpaused hnodup, shown_create⟩
  · have hp := perform_of_next hn
    have hstart := nodup_of_start htopics (prefix_of_next hn)
    exact ⟨hm.1.step (step_of_perform hp) hstart (hnew m (mem_of_next hn)),
      hm.2.gauged ((gauged_perform m.act).ok hp)⟩

/-- What is paused never drifts: between any two acts, and when the relay has come to its end
without a failure, flow control and the broker have the same partitions paused, and the gauge shows
their number if it was ever set. Nothing is paused at the start, no partition is assigned twice, and
each poll assigns only partitions that are new, each once. -/
theorem pauses_stay_in_step (settings : RelaySettings) (b : ScriptedBroker) (w : ν) (now : Nat)
    (ts : List Round) (hpaused : b.paused = ∅) (hnodup : b.assignment.Nodup)
    (htopics : settings.group = none → settings.topics.Nodup)
    (hnew : ∀ m ∈ trail (lifeOf ts) (create settings b w now), m.BringsNew) :
    (∀ m ∈ trail (lifeOf ts) (create settings b w now), InStep m.before) ∧
      ∀ ending r, live (lifeOf ts) (create settings b w now) = (ending, r) →
        ending = .stopped ∨ ending = .running → InStep r := by
  constructor
  · intro m hm
    obtain ⟨past, hpast⟩ := exists_past hm
    have hinv := agreeing_of_trail hpaused hnodup htopics hnew hpast
    exact inStep_of hinv.1 hinv.2
  · intro ending r hr hending
    rcases hending with rfl | rfl
    · obtain ⟨past, m, hm, hp⟩ := last_of_stopped hr
      have hinv := agreeing_of_trail hpaused hnodup htopics hnew hm
      obtain ⟨-, hflow, hbroker, hassigned⟩ := stopped_of_perform hp
      have hagree := hinv.1.congr (congrArg FlowControl.paused hflow) hbroker hassigned
      exact inStep_of hagree (hinv.2.gauged ((gauged_perform m.act).ok hp))
    · rcases last_of_running hr with rfl | ⟨past, m, hm, hp⟩
      · exact inStep_of (agreeing_create hpaused hnodup) shown_create
      · have hinv := agreeing_of_trail hpaused hnodup htopics hnew hm
        have hagree := hinv.1.step (step_of_perform hp) (nodup_of_start htopics hm)
          (hnew m (mem_of_past hm))
        exact inStep_of hagree (hinv.2.gauged ((gauged_perform m.act).ok hp))

/-- A partition is paused, and two others are lost of which one was never owned. -/
theorem pauses_stay_in_step_at_loss :
    ∃ m ∈ trail (lifeOf [{}, {}, {}, {}])
        (create { topics := ["t"], group := some "g", pollTimeout := 0, commitInterval := 1,
                  thresholds := { pauseMinMessages := 1, pauseMessages := 1, resumeMessages := 0 } }
          { script := [.rebalance (.assigned [⟨"t", 0⟩, ⟨"t", 1⟩]),
              .records [⟨⟨"t", 0⟩, 7, 0, []⟩], .rebalance (.lost [⟨"t", 1⟩, ⟨"u", 0⟩])] }
          Host.listening 0),
      m.before.desk.metrics.pausedPartitions = some 1 ∧ m.before.broker.paused.size = 1 ∧
        InStep m.before := by
  refine ⟨_, List.get_mem _ ⟨13, by decide +kernel⟩, by decide +kernel, by decide +kernel, ?_⟩
  exact (pauses_stay_in_step _ _ _ _ _ rfl (by decide) (by decide) (by decide +kernel)).1 _
    (List.get_mem _ _)

def hasty : RelaySettings where
  topics := ["t"]
  group := some "g"
  pollTimeout := 0
  commitInterval := 1
  thresholds := { pauseMinMessages := 1, pauseMessages := 1, resumeMessages := 1 }

def doubled : ScriptedBroker where
  assignment := [⟨"t", 0⟩, ⟨"t", 0⟩]
  script :=
    [.records [⟨⟨"t", 0⟩, 7, 0, []⟩, ⟨⟨"t", 0⟩, 8, 0, []⟩], .records [],
      .records [⟨⟨"t", 0⟩, 9, 0, []⟩, ⟨⟨"t", 0⟩, 10, 0, []⟩],
      .records [⟨⟨"t", 0⟩, 11, 0, []⟩, ⟨⟨"t", 0⟩, 12, 0, []⟩]]

def oneAcknowledged : List Round := [{}, {}, { arrivals := [.ack ⟨⟨"t", 0⟩, 7⟩] }]

/-- A partition that is assigned twice is decided about twice in a turn. It is resumed and paused
again, and the broker, which is asked for the pauses first, is left with it resumed. -/
theorem pauses_drift_from_doubled_assignment :
    ¬ ∀ (settings : RelaySettings) (b : ScriptedBroker) (ts : List Round), b.paused = ∅ →
      (settings.group = none → settings.topics.Nodup) →
      (∀ m ∈ trail (lifeOf ts) (create settings b Host.listening 0), m.BringsNew) →
      ∀ r, live (lifeOf ts) (create settings b Host.listening 0) = (.running, r) → InStep r := by
  intro h
  have hend : live (lifeOf oneAcknowledged) (create hasty doubled Host.listening 0) =
      (.running, _) := Prod.ext (by decide +kernel) rfl
  have hpaused := (h hasty doubled oneAcknowledged rfl (by decide) (by decide +kernel) _ hend).paused
  exact absurd (congrArg PartitionMap.size hpaused) (by decide +kernel)

end Life

end Relay

end AckRelay
