import AckRelay.Proofs.CommitBatch
import AckRelay.Proofs.FlowControl.Steps
import AckRelay.Proofs.Relay.Operations

namespace AckRelay.Relay

variable {ν : Type} {r s : Relay ScriptedBroker ν} {p : Partition}

section Partitions

/-- The numbered partitions of a topic are distinct. -/
theorem nodup_numbered (topic : String) (count : Nat) :
    (ScriptedBroker.numbered topic count).Nodup := by
  rw [ScriptedBroker.numbered, List.Nodup, List.pairwise_map]
  refine List.nodup_range.imp_of_mem fun {i j} hi hj hne heq => hne ?_
  -- the numbers do not wrap, since there are no more of them than the count itself
  have hbound : (Int32.ofNat count).toNatClampNeg < 2 ^ 31 := by
    have hlt := (Int32.ofNat count).toInt_lt
    rw [Int32.toNatClampNeg]
    omega
  have hi' := List.mem_range.1 hi
  have hj' := List.mem_range.1 hj
  have hnumbers : Int32.ofNat i = Int32.ofNat j := congrArg Partition.number heq
  have hints := congrArg Int32.toInt hnumbers
  rw [Int32.toInt_ofNat_of_lt (by omega), Int32.toInt_ofNat_of_lt (by omega)] at hints
  omega

theorem topic_of_numbered {topic : String} {count : Nat}
    (h : p ∈ ScriptedBroker.numbered topic count) : p.topic = topic := by
  obtain ⟨i, -, rfl⟩ := List.mem_map.1 h
  rfl

theorem numbered_of_ask {topic : String} {ps : List Partition}
    (h : ask (Broker.partitionsFor topic) r = .ok ps s) :
    ∃ ends, r.broker.ends? topic = some ends ∧
      ps = ScriptedBroker.numbered topic ends.length ∧
      s = { r with broker := r.broker.noted (.partitionsFor topic) } := by
  rw [ask_apply] at h
  rcases ScriptedBroker.partitionsFor_cases topic r.broker with ⟨ends, hends, ho⟩ | ⟨e, ho⟩
  · rw [ho] at h
    cases h
    exact ⟨ends, hends, rfl, rfl⟩
  · rw [ho] at h
    cases h

/-- The partitions of distinct topics are distinct. -/
theorem nodup_partitionsOf {topics : List String} {ps : List Partition}
    (h : partitionsOf topics r = .ok ps s) :
    (∀ p ∈ ps, p.topic ∈ topics) ∧ (topics.Nodup → ps.Nodup) := by
  induction topics generalizing r ps with
  | nil =>
    cases h
    simp
  | cons topic topics ih =>
    obtain ⟨qs, t, hqs, h⟩ := bind_eq_ok.1 h
    obtain ⟨rs, u, hrs, h⟩ := bind_eq_ok.1 h
    cases h
    obtain ⟨ends, -, rfl, -⟩ := numbered_of_ask hqs
    obtain ⟨hmem, hnodup⟩ := ih hrs
    constructor
    · intro p hp
      rcases List.mem_append.1 hp with hp | hp
      · exact List.mem_cons.2 (Or.inl (topic_of_numbered hp))
      · exact List.mem_cons_of_mem _ (hmem p hp)
    · intro hn
      obtain ⟨htopic, hn⟩ := List.nodup_cons.1 hn
      refine List.nodup_append.2 ⟨nodup_numbered topic ends.length, hnodup hn, ?_⟩
      intro p hp q hq hpq
      -- a partition of both would have its topic twice in the list
      apply htopic
      rw [← topic_of_numbered hp, hpq]
      exact hmem q hq

variable [Notifier ν]

theorem calm_partitionsOf (topics : List String) :
    Calm (partitionsOf topics : EStateM Halt (Relay ScriptedBroker ν) _) := by
  induction topics with
  | nil => exact Ends.pure Quiet.chains []
  | cons topic topics ih =>
    refine Ends.bind Quiet.chains (calm_ask (ScriptedBroker.still_partitionsFor topic)) fun ps => ?_
    exact Ends.bind Quiet.chains ih fun qs => Ends.pure Quiet.chains (ps ++ qs)

end Partitions

variable [Notifier ν]

section Start

theorem start_of_grouped {batch : CommitBatch} (hm : r.desk.mode = .grouped batch) :
    start r = ask (Broker.subscribe r.topics) r := by
  simp only [start, bind_apply, get_apply, hm]

theorem start_of_anonymous {catchUp : CatchUp} (hm : r.desk.mode = .anonymous catchUp) :
    start r = startAnonymous r := by
  simp only [start, bind_apply, get_apply, hm]

theorem silent_startAnonymous :
    Silent (startAnonymous : EStateM Halt (Relay ScriptedBroker ν) Unit) := by
  have hc := chains_uncommitted (ν := ν)
  refine Ends.bind hc (Ends.get hc) fun r => ?_
  refine Ends.bind hc (calm_partitionsOf r.topics).silent fun ps => ?_
  refine Ends.bind hc (silent_change rfl fun _ => rfl) fun _ => ?_
  refine Ends.bind hc (calm_ask (ScriptedBroker.still_endOffsets ps)).silent fun ends => ?_
  refine Ends.bind hc (silent_tell _) fun _ => ?_
  refine Ends.bind hc (Ends.modify fun _ => rfl) fun _ => ?_
  split
  · exact Ends.bind hc (silent_tell .caughtUp) fun _ => Ends.modify fun _ => rfl
  · exact Ends.modify fun _ => rfl

theorem silent_start : Silent (start : EStateM Halt (Relay ScriptedBroker ν) Unit) := by
  refine Ends.bind chains_uncommitted (Ends.get chains_uncommitted) fun r => ?_
  split
  · exact (calm_ask (ScriptedBroker.still_subscribe r.topics)).silent
  · exact silent_startAnonymous

theorem quiet_start {batch : CommitBatch} (hm : r.desk.mode = .grouped batch) {u : Unit}
    (h : start r = .ok u s) : Quiet r s := by
  rw [start_of_grouped hm] at h
  exact (calm_ask (ScriptedBroker.still_subscribe r.topics)).ok h

structure Assumed (r s : Relay ScriptedBroker ν) : Prop where
  queue : s.queue = r.queue
  held : s.desk.mode.held? = none
  flow : s.desk.flow = r.desk.flow
  paused : s.broker.paused = r.broker.paused
  assignment : r.topics.Nodup → s.broker.assignment.Nodup

/-- A start without a group, taken apart. -/
theorem startAnonymous_eq_ok {u : Unit} (h : startAnonymous r = .ok u s) :
    ∃ ps ends r₁ r₂ r₃ r₄, partitionsOf r.topics r = .ok ps r₁ ∧
      ask (Broker.assign ps) r₁ = .ok () r₂ ∧ ask (Broker.endOffsets ps) r₂ = .ok ends r₃ ∧
      tell (.assigned ps) r₃ = .ok () r₄ ∧
      (do
        if (CatchUp.ofEnds ends).takeCaughtUp.1 then tell .caughtUp
        modify fun r => { r with phase := .consuming } :
          EStateM Halt (Relay ScriptedBroker ν) Unit)
        (setMode (.anonymous (CatchUp.ofEnds ends).takeCaughtUp.2) r₄) = .ok u s := by
  rw [startAnonymous] at h
  obtain ⟨_, _, hget, h⟩ := bind_eq_ok.1 h
  cases hget
  obtain ⟨ps, r₁, hps, h⟩ := bind_eq_ok.1 h
  obtain ⟨_, r₂, hassign, h⟩ := bind_eq_ok.1 h
  obtain ⟨ends, r₃, hends, h⟩ := bind_eq_ok.1 h
  obtain ⟨_, r₄, htell, h⟩ := bind_eq_ok.1 h
  obtain ⟨_, r₅, hmode, h⟩ := bind_eq_ok.1 h
  cases hmode
  exact ⟨ps, ends, r₁, r₂, r₃, r₄, hps, hassign, hends, htell, h⟩

theorem assumed_start {catchUp : CatchUp} (hm : r.desk.mode = .anonymous catchUp) {u : Unit}
    (h : start r = .ok u s) : Assumed r s := by
  rw [start_of_anonymous hm] at h
  obtain ⟨ps, ends, r₁, r₂, r₃, r₄, hps, hassign, hends, htell, h⟩ := startAnonymous_eq_ok h
  have h₁ : Quiet r r₁ := (calm_partitionsOf r.topics).ok hps
  have h₂ := change_eq_ok hassign
  have h₄ : Quiet r₂ r₄ :=
    ((calm_ask (ScriptedBroker.still_endOffsets ps)).ok hends).trans ((calm_tell rfl).ok htell)
  have hlast : Quiet (setMode (.anonymous (CatchUp.ofEnds ends).takeCaughtUp.2) r₄) s := by
    split at h
    · obtain ⟨_, r₆, hcaught, h⟩ := bind_eq_ok.1 h
      cases h
      exact ((calm_tell rfl).ok hcaught).trans (.of_phase _ _)
    · cases h
      exact .of_phase _ _
  have hassignment : s.broker.assignment = ps := by
    rw [hlast.assignment]
    exact h₄.assignment.trans (by rw [h₂])
  refine ⟨?_, hlast.held, ?_, ?_, fun hn => hassignment ▸ (nodup_partitionsOf hps).2 hn⟩
  · exact hlast.queue.trans (h₄.queue.trans (by rw [h₂]; exact h₁.queue))
  · exact hlast.flow.trans (h₄.flow.trans (by rw [h₂]; exact h₁.flow))
  · exact hlast.paused.trans (h₄.paused.trans (by rw [h₂]; exact h₁.paused))

end Start

section Acknowledge

omit [Notifier ν] in
theorem releaseOldest_apply {β : Type} (p : Partition) (r : Relay β ν) :
    releaseOldest p r =
      match r.desk.flow.acknowledge? p with
      | some flow => .ok () (r.setFlow flow)
      | none => .error (.failed (.protocolViolation p)) r := by
  simp only [releaseOldest, bind_apply, get_apply]
  cases r.desk.flow.acknowledge? p <;> rfl

theorem calm_caughtUp (caughtUp : Bool) :
    Calm (if caughtUp then tell .caughtUp else pure () :
      EStateM Halt (Relay ScriptedBroker ν) Unit) := by
  split
  · exact calm_tell rfl
  · exact Ends.pure Quiet.chains ()

/-- With a group, an acknowledgement is ignored for a released partition and held for commit
otherwise. -/
theorem acknowledge_of_grouped {β : Type} {r : Relay β ν} {batch : CommitBatch}
    (hm : r.desk.mode = .grouped batch) (pos : Position) :
    acknowledge pos r =
      if r.desk.flow.wasReleased pos.partition then
        measure (·.increment .staleAcknowledgements) r
      else
        match r.desk.flow.acknowledge? pos.partition with
        | some flow =>
          .ok () ((r.setFlow flow).setMode (.grouped (batch.record pos.partition pos.offset)))
        | none => .error (.failed (.protocolViolation pos.partition)) r := by
  simp only [acknowledge, bind_apply, get_apply, hm]
  split
  · rfl
  · rw [bind_apply, releaseOldest_apply]
    cases r.desk.flow.acknowledge? pos.partition <;> rfl

/-- Without a group, an acknowledgement takes the oldest record and may catch up. -/
theorem acknowledge_of_anonymous {β : Type} {r : Relay β ν} {catchUp : CatchUp}
    (hm : r.desk.mode = .anonymous catchUp) (pos : Position) :
    acknowledge pos r =
      match r.desk.flow.acknowledge? pos.partition with
      | some flow =>
        (if (catchUp.acknowledge pos).1 then tell .caughtUp else pure ())
          ((r.setFlow flow).setMode (.anonymous (catchUp.acknowledge pos).2))
      | none => .error (.failed (.protocolViolation pos.partition)) r := by
  simp only [acknowledge, bind_apply, get_apply, hm, releaseOldest_apply]
  cases r.desk.flow.acknowledge? pos.partition <;> rfl

structure Acked (pos : Position) (r s : Relay ScriptedBroker ν) : Prop where
  queue : s.queue = r.queue
  flow : r.desk.flow.acknowledge? pos.partition = some s.desk.flow
  held : s.desk.mode.held? = r.desk.mode.held?.map fun offsets =>
    offsets.insert pos.partition
      (CommitBatch.higher pos.offset (offsets.get? pos.partition))
  assignment : s.broker.assignment = r.broker.assignment
  paused : s.broker.paused = r.broker.paused
  commitCalls : s.broker.commitCalls = r.broker.commitCalls
  told : HearsNoRecords r.desk.notifier s.desk.notifier

/-- Whether the relay ignores an acknowledgement of the partition. -/
def ignores (r : Relay ScriptedBroker ν) (p : Partition) : Bool :=
  r.desk.mode.held?.isSome && r.desk.flow.wasReleased p

/-- An acknowledgement that succeeds was ignored, or was carried out in full. -/
theorem acknowledge_eq_ok {pos : Position} {u : Unit} (h : acknowledge pos r = .ok u s) :
    if r.ignores pos.partition then Quiet r s else Acked pos r s := by
  rw [ignores]
  cases hm : r.desk.mode with
  | grouped batch =>
    rw [acknowledge_of_grouped hm] at h
    cases hreleased : r.desk.flow.wasReleased pos.partition with
    | true =>
      rw [hreleased, if_pos rfl] at h
      exact (calm_measure _).ok h
    | false =>
      rw [hreleased] at h
      cases hflow : r.desk.flow.acknowledge? pos.partition with
      | none =>
        rw [hflow] at h
        cases h
      | some flow =>
        rw [hflow] at h
        cases h
        refine ⟨rfl, hflow, ?_, rfl, rfl, rfl, .refl _⟩
        rw [hm]
        exact congrArg some (CommitBatch.pending_record batch pos.partition pos.offset)
  | anonymous catchUp =>
    rw [acknowledge_of_anonymous hm] at h
    cases hflow : r.desk.flow.acknowledge? pos.partition with
    | none =>
      rw [hflow] at h
      cases h
    | some flow =>
      rw [hflow] at h
      have hq := (calm_caughtUp (catchUp.acknowledge pos).1).ok h
      refine ⟨hq.queue, hflow.trans (congrArg some hq.flow.symm), ?_, hq.assignment, hq.paused,
        hq.commitCalls, hq.told⟩
      rw [hm]
      exact hq.held

/-- Only an acknowledgement with nothing to release is blamed on the host. -/
theorem acknowledge_eq_error {pos : Position} {e : Halt} (h : acknowledge pos r = .error e s) :
    Harmless r e s ∨
      e = .failed (.protocolViolation pos.partition) ∧ Uncommitted r s ∧ r.ignores pos.partition = false ∧
        r.desk.flow.acknowledge? pos.partition = none := by
  rw [ignores]
  cases hm : r.desk.mode with
  | grouped batch =>
    rw [acknowledge_of_grouped hm] at h
    cases hreleased : r.desk.flow.wasReleased pos.partition with
    | true =>
      rw [hreleased, if_pos rfl] at h
      cases h
    | false =>
      rw [hreleased] at h
      cases hflow : r.desk.flow.acknowledge? pos.partition with
      | none =>
        rw [hflow] at h
        cases h
        exact Or.inr ⟨rfl, rfl, Bool.and_false _, rfl⟩
      | some flow =>
        rw [hflow] at h
        cases h
  | anonymous catchUp =>
    rw [acknowledge_of_anonymous hm] at h
    cases hflow : r.desk.flow.acknowledge? pos.partition with
    | none =>
      rw [hflow] at h
      cases h
      exact Or.inr ⟨rfl, rfl, rfl, rfl⟩
    | some flow =>
      rw [hflow] at h
      have he := (calm_caughtUp (catchUp.acknowledge pos).1).error h
      exact Or.inl he

end Acknowledge

section Flush

structure Committed (offsets : Offsets) (r s : Relay ScriptedBroker ν) : Prop where
  queue : s.queue = r.queue
  before : r.desk.mode.held? = some offsets
  nonempty : offsets.isEmpty = false
  held : s.desk.mode.held? = some ∅
  flow : s.desk.flow = r.desk.flow
  assignment : s.broker.assignment = r.broker.assignment
  paused : s.broker.paused = r.broker.paused
  commitCalls : s.broker.commitCalls = r.broker.commitCalls ++ [(offsets, true)]
  notifier : s.desk.notifier = r.desk.notifier

structure Tried (offsets : Offsets) (accepted : Bool) (r s : Relay ScriptedBroker ν) : Prop where
  before : r.desk.mode.held? = some offsets
  nonempty : offsets.isEmpty = false
  assignment : s.broker.assignment = r.broker.assignment
  commitCalls : s.broker.commitCalls = r.broker.commitCalls ++ [(offsets, accepted)]

def Flushes (forced : Bool) (r s : Relay ScriptedBroker ν) : Prop :=
  (Uncommitted r s ∧ (forced = true → ∀ offsets, r.desk.mode.held? = some offsets →
      offsets.isEmpty = true)) ∨
    ∃ offsets accepted, Tried offsets accepted r s

omit [Notifier ν] in
theorem flush_of_anonymous {catchUp : CatchUp} (hm : r.desk.mode = .anonymous catchUp)
    (forced : Bool) : flush forced r = .ok () r := by
  simp only [flush, bind_apply, get_apply, hm, pure_apply]

def flushed (forced : Bool) (out : FlushOutcome × CommitBatch × ScriptedBroker)
    (r : Relay ScriptedBroker ν) : Relay ScriptedBroker ν :=
  { r with
    broker := out.2.2
    desk :=
      { r.desk with
        mode := .grouped out.2.1
        metrics := r.desk.metrics.addCommit (if forced then .forced else .interval) out.1 } }

omit [Notifier ν] in
/-- A flush of a group does with the relay what it does with the batch, and fails as the batch
fails. -/
theorem flush_of_grouped {batch : CommitBatch} (hm : r.desk.mode = .grouped batch)
    {forced : Bool} {out : FlushOutcome × CommitBatch × ScriptedBroker}
    (ho : batch.flush Broker.commit forced r.now r.broker = out) :
    flush forced r =
      match out.1 with
      | .failed e => .error (.failed (.broker e)) (r.flushed forced out)
      | .idle | .committed => .ok () (r.flushed forced out) := by
  simp only [flush, bind_apply, get_apply, hm, ho, set_apply, measure_apply]
  obtain ⟨outcome, batch', broker⟩ := out
  cases outcome <;> rfl

/-- A flush that succeeds is quiet, or it commits all that is held. -/
theorem flush_eq_ok {forced : Bool} {u : Unit} (h : flush forced r = .ok u s) :
    (Quiet r s ∧ (forced = true → ∀ offsets, r.desk.mode.held? = some offsets →
        offsets.isEmpty = true)) ∨
      ∃ offsets, Committed offsets r s := by
  cases hm : r.desk.mode with
  | anonymous catchUp =>
    rw [flush_of_anonymous hm] at h
    cases h
    exact Or.inl ⟨.refl r, fun _ offsets ho => by cases ho⟩
  | grouped batch =>
    have hheld : r.desk.mode.held? = some batch.pending := by rw [hm]; rfl
    rcases batch.flush_cases Broker.commit r.broker forced r.now with
      ⟨last, ho, hempty⟩ | ⟨hsome, ⟨next, hc, ho⟩ | ⟨e, next, hc, ho⟩⟩
    · rw [flush_of_grouped hm ho] at h
      cases h
      refine Or.inl ⟨⟨rfl, hheld.symm, rfl, rfl, rfl, rfl, .refl _⟩, ?_⟩
      intro hf offsets hoff
      cases hoff
      exact hempty hf
    · rw [flush_of_grouped hm ho] at h
      cases h
      rcases ScriptedBroker.commit_cases batch.pending r.broker with hb | ⟨e, hb⟩
      · cases hb.symm.trans hc
        refine Or.inr ⟨_, rfl, hheld, hsome, rfl, rfl, rfl, rfl, ?_, rfl⟩
        exact ScriptedBroker.commitCalls_noted (.commit batch.pending true) r.broker
      · cases hb.symm.trans hc
    · rw [flush_of_grouped hm ho] at h
      cases h

omit [Notifier ν] in
/-- A flush that fails has tried to commit all that is held. -/
theorem flush_eq_error {forced : Bool} {e : Halt} (h : flush forced r = .error e s) :
    Flushes forced r s ∧ e.Blameless := by
  cases hm : r.desk.mode with
  | anonymous catchUp =>
    rw [flush_of_anonymous hm] at h
    cases h
  | grouped batch =>
    have hheld : r.desk.mode.held? = some batch.pending := by rw [hm]; rfl
    rcases batch.flush_cases Broker.commit r.broker forced r.now with
      ⟨last, ho, hempty⟩ | ⟨hsome, ⟨next, hc, ho⟩ | ⟨e, next, hc, ho⟩⟩
    · rw [flush_of_grouped hm ho] at h
      cases h
    · rw [flush_of_grouped hm ho] at h
      cases h
    · rw [flush_of_grouped hm ho] at h
      cases h
      rcases ScriptedBroker.commit_cases batch.pending r.broker with hb | ⟨e', hb⟩
      · cases hb.symm.trans hc
      · cases hb.symm.trans hc
        refine ⟨Or.inr ⟨_, false, hheld, hsome, rfl, ?_⟩, Halt.blameless_broker _⟩
        exact ScriptedBroker.commitCalls_noted (.commit batch.pending false) r.broker

theorem flushes_flush (forced : Bool) (r : Relay ScriptedBroker ν) :
    Flushes forced r (endState (flush forced) r) := by
  cases h : flush forced r with
  | error e s =>
    rw [endState_of_error h]
    exact (flush_eq_error h).1
  | ok u s =>
    rw [endState_of_ok h]
    rcases flush_eq_ok h with ⟨hq, hempty⟩ | ⟨offsets, hc⟩
    · exact Or.inl ⟨hq.commitCalls, hempty⟩
    · exact Or.inr ⟨offsets, true, hc.before, hc.nonempty, hc.assignment, hc.commitCalls⟩

theorem calm_leave :
    Calm (do ask Broker.close; modify fun r => { r with phase := .stopped } :
      EStateM Halt (Relay ScriptedBroker ν) Unit) :=
  Ends.bind Quiet.chains (calm_ask ScriptedBroker.still_close) fun _ =>
    Ends.modify fun r => .of_phase r .stopped

omit [Notifier ν] in
theorem still_leave :
    Ends (fun r s : Relay ScriptedBroker ν => ScriptedBroker.Still r.broker s.broker)
      (fun r _ s => ScriptedBroker.Still r.broker s.broker)
      (do ask Broker.close; modify fun r => { r with phase := .stopped } :
        EStateM Halt (Relay ScriptedBroker ν) Unit) :=
  Ends.bind chains_still (still_ask ScriptedBroker.still_close) fun _ =>
    Ends.modify fun _ => ⟨rfl, rfl, rfl⟩

theorem flushes_stop (r : Relay ScriptedBroker ν) : Flushes true r (endState stop r) := by
  have hflush := flushes_flush true r
  cases h : flush true r with
  | error e t =>
    rw [endState_of_error h] at hflush
    have hstop : stop r = .error e t := by rw [stop, bind_apply, h]
    rwa [endState_of_error hstop]
  | ok u t =>
    rw [endState_of_ok h] at hflush
    -- what comes after the flush commits nothing, even if it fails
    have hleave : ScriptedBroker.Still t.broker (endState stop r).broker := by
      have hstop : endState stop r = endState (do ask Broker.close
                                                  modify fun r => { r with phase := .stopped }) t := by
        rw [endState, stop, bind_apply, h]
        rfl
      rw [hstop]
      exact still_leave.atEnd t
    rcases hflush with ⟨hu, hempty⟩ | ⟨offsets, accepted, ht⟩
    · exact Or.inl ⟨hleave.commitCalls.trans hu, hempty⟩
    · exact Or.inr ⟨offsets, accepted, ht.before, ht.nonempty,
        hleave.assignment.trans ht.assignment, hleave.commitCalls.trans ht.commitCalls⟩

/-- A stop that fails is the fault of the broker or of the writer. -/
theorem blameless_stop {e : Halt} (h : stop r = .error e s) : e.Blameless := by
  rw [stop, bind_apply] at h
  cases hf : flush true r with
  | error e' t =>
    rw [hf] at h
    cases h
    exact (flush_eq_error hf).2
  | ok u t =>
    rw [hf] at h
    exact (calm_leave.error h).2

end Flush

section Obey

theorem calm_reportCommitted :
    Calm (reportCommitted : EStateM Halt (Relay ScriptedBroker ν) Unit) :=
  Ends.bind Quiet.chains (calm_ask ScriptedBroker.still_assignment) fun ps =>
    Ends.bind Quiet.chains (calm_ask (ScriptedBroker.still_committed ps)) fun _ => calm_tell rfl

theorem Acked.of_quiet {pos : Position} {t : Relay ScriptedBroker ν} (hq : Quiet r t)
    (h : Acked pos t s) : Acked pos r s := by
  exact ⟨h.queue.trans hq.queue, hq.flow ▸ h.flow, hq.held ▸ h.held,
    h.assignment.trans hq.assignment, h.paused.trans hq.paused,
    h.commitCalls.trans hq.commitCalls, hq.told.trans h.told⟩

omit [Notifier ν] in
def counting (c : Command) (r : Relay ScriptedBroker ν) : Relay ScriptedBroker ν :=
  { r with desk := { r.desk with metrics := r.desk.metrics.increment (.commandsApplied c.kind) } }

theorem quiet_counting (c : Command) (r : Relay ScriptedBroker ν) : Quiet r (r.counting c) :=
  ⟨rfl, rfl, rfl, rfl, rfl, rfl, .refl _⟩

theorem obey_apply (c : Command) (r : Relay ScriptedBroker ν) :
    obey c r =
      match c with
      | .ack pos => (do acknowledge pos; return Flow.goOn) (r.counting c)
      | .committedOffsets => (do reportCommitted; return Flow.goOn) (r.counting c)
      | .stop => (do stop; return Flow.stop) (r.counting c)
      | .unrecognized raw => .error (.failed (.unknownCommand raw)) (r.counting c) := by
  cases c <;> rfl

/-- After an obeyed command the relay goes on only if it was about records or offsets. -/
theorem obey_eq_goOn {c : Command} (h : obey c r = .ok .goOn s) :
    (c = .committedOffsets ∧ Quiet r s) ∨
      ∃ pos, c = .ack pos ∧ if r.ignores pos.partition then Quiet r s else Acked pos r s := by
  have hc := quiet_counting c r
  rw [obey_apply] at h
  cases c with
  | ack pos =>
    have ha := ok_of_bind_pure h
    refine Or.inr ⟨pos, rfl, ?_⟩
    have hignores : (r.counting (.ack pos)).ignores pos.partition = r.ignores pos.partition := rfl
    have hacked := acknowledge_eq_ok ha
    rw [hignores] at hacked
    split at hacked
    · next hi => exact (if_pos hi).symm ▸ hc.trans hacked
    · next hi => exact (if_neg hi).symm ▸ hacked.of_quiet hc
  | committedOffsets =>
    exact Or.inl ⟨rfl, hc.trans (calm_reportCommitted.ok (ok_of_bind_pure h))⟩
  | stop =>
    obtain ⟨_, t, -, ht⟩ := bind_eq_ok.1 h
    cases ht
  | unrecognized raw => cases h

/-- An error of a command blames the host only if it acknowledges what is not pending. -/
theorem obey_eq_error {c : Command} {e : Halt} (h : obey c r = .error e s) :
    e.Blameless ∨ ∃ pos, c = .ack pos ∧ e = .failed (.protocolViolation pos.partition) ∧
      r.ignores pos.partition = false ∧ r.desk.flow.acknowledge? pos.partition = none := by
  rw [obey_apply] at h
  cases c with
  | ack pos =>
    rcases acknowledge_eq_error (error_of_bind_pure h) with he | ⟨he, -, hi, hf⟩
    · exact Or.inl he.2
    · exact Or.inr ⟨pos, rfl, he, hi, hf⟩
  | committedOffsets => exact Or.inl (calm_reportCommitted.error (error_of_bind_pure h)).2
  | stop => exact Or.inl (blameless_stop (error_of_bind_pure h))
  | unrecognized raw =>
    cases h
    exact Or.inl ⟨_, rfl, fun p hp => by cases hp⟩

theorem uncommitted_acknowledge (pos : Position) (r : Relay ScriptedBroker ν) :
    Uncommitted r (endState (acknowledge pos) r) := by
  cases h : acknowledge pos r with
  | ok u s =>
    rw [endState_of_ok h]
    have hs := acknowledge_eq_ok h
    split at hs
    · exact hs.commitCalls
    · exact hs.commitCalls
  | error e s =>
    rw [endState_of_error h]
    rcases acknowledge_eq_error h with he | ⟨-, hu, -, -⟩
    · exact he.1
    · exact hu

/-- Of the commands, only the one to stop commits. -/
theorem calls_obey (c : Command) (r : Relay ScriptedBroker ν) :
    if c = .stop then Flushes true r (endState (obey c) r)
    else Uncommitted r (endState (obey c) r) := by
  have heq := obey_apply c r
  cases c with
  | ack pos =>
    have hs : endState (obey (.ack pos)) r = endState (acknowledge pos) (r.counting (.ack pos)) :=
      (endState_congr heq).trans (endState_bind_pure (acknowledge pos) Flow.goOn _)
    rw [if_neg (by simp), hs]
    exact uncommitted_acknowledge pos (r.counting (.ack pos))
  | committedOffsets =>
    have hs : endState (obey .committedOffsets) r =
        endState reportCommitted (r.counting .committedOffsets) :=
      (endState_congr heq).trans (endState_bind_pure reportCommitted Flow.goOn _)
    rw [if_neg (by simp), hs]
    exact (calm_reportCommitted.silent.mono id And.left).atEnd (r.counting .committedOffsets)
  | stop =>
    have hs : endState (obey .stop) r = endState stop (r.counting .stop) :=
      (endState_congr heq).trans (endState_bind_pure stop Flow.stop _)
    rw [if_pos rfl, hs]
    rcases flushes_stop (r.counting .stop) with hnone | ⟨offsets, accepted, ht⟩
    · exact Or.inl hnone
    · exact Or.inr ⟨offsets, accepted, ht.before, ht.nonempty, ht.assignment, ht.commitCalls⟩
  | unrecognized raw =>
    rw [if_neg (by simp), endState_of_error heq]
    rfl

end Obey

end AckRelay.Relay
