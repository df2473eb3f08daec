import AckRelay.Proofs.Relay.Positions

/-!
What each act of a relay may do at most (`within_perform`): which of them can change the assignment,
close the broker, go on to another phase, change what is waited for, and tell the host something of
each kind. No act counts a fatal error. Whatever a moment tells the host is heard in order after all
that was told before (`sent_live`).
-/

namespace AckRelay

namespace Metrics

/-- Adding to one total leaves every other as it is. -/
theorem lookup_addTo (c d : Counter) (n : Nat) (totals : List (Counter × Nat)) :
    (addTo c n totals).lookup d =
      if d = c then some ((totals.lookup c).getD 0 + n) else totals.lookup d := by
  induction totals with
  | nil =>
    by_cases h : d = c
    · simp [addTo, h]
    · have hbeq : (d == c) = false := beq_eq_false_iff_ne.2 h
      simp [addTo, h, List.lookup_cons, hbeq]
  | cons t totals ih =>
    obtain ⟨e, total⟩ := t
    rw [addTo]
    by_cases he : e = c
    · subst he
      by_cases h : d = e
      · simp [h]
      · have hbeq : (d == e) = false := beq_eq_false_iff_ne.2 h
        simp [h, List.lookup_cons, hbeq]
    · rw [if_neg he]
      have hce : (c == e) = false := beq_eq_false_iff_ne.2 (Ne.symm he)
      simp only [List.lookup_cons, hce, ih]
      by_cases h : d = e
      · subst h
        simp [he]
      · have hbeq : (d == e) = false := beq_eq_false_iff_ne.2 h
        simp [hbeq]

theorem total?_add (m : Metrics) (c d : Counter) (n : Nat) :
    (m.add c n).total? d = if d = c then some (m.total c + n) else m.total? d :=
  lookup_addTo c d n m.totals

def CountsNoError (f : Metrics → Metrics) : Prop :=
  ∀ m k, (f m).total? (.fatalErrors k) = m.total? (.fatalErrors k)

theorem countsNoError_add {c : Counter} (hc : ∀ k, c ≠ .fatalErrors k) (n : Nat) :
    CountsNoError (·.add c n) := by
  intro m k
  rw [total?_add, if_neg (hc k).symm]

theorem countsNoError_addCommit (trigger : CommitTrigger) (outcome : FlushOutcome) :
    CountsNoError (·.addCommit trigger outcome) := by
  intro m k
  cases outcome with
  | idle => rfl
  | committed => exact countsNoError_add (fun _ h => by cases h) 1 m k
  | failed e => exact countsNoError_add (fun _ h => by cases h) 1 m k

theorem countsNoError_addDiscarded (n : Nat) : CountsNoError (·.addDiscarded n) := by
  intro m k
  show (if n = 0 then m else m.add .commitsDiscarded n).total? _ = _
  split
  · rfl
  · exact countsNoError_add (fun _ h => by cases h) n m k

end Metrics

namespace ScriptedBroker

/-- The broker keeps its assignment, is as closed as before, and fails the same operations. -/
structure Steady (b c : ScriptedBroker) : Prop where
  assignment : c.assignment = b.assignment
  closed : c.closed = b.closed
  faults : c.faults = b.faults

theorem Steady.refl (b : ScriptedBroker) : Steady b b := ⟨rfl, rfl, rfl⟩

theorem Steady.trans {b c d : ScriptedBroker} (hc : Steady b c) (hd : Steady c d) : Steady b d :=
  ⟨hd.assignment.trans hc.assignment, hd.closed.trans hc.closed, hd.faults.trans hc.faults⟩

theorem chains_steady : Chains Steady (fun b (_ : BrokerError) c => Steady b c) :=
  ⟨Steady.refl, Steady.trans, Steady.trans⟩

abbrev StaysSteady {α : Type} (op : EStateM BrokerError ScriptedBroker α) : Prop :=
  Ends Steady (fun b _ c => Steady b c) op

theorem steady_note (call : Call) : StaysSteady (note call) := by
  constructor
  · intro b _ c hb
    rcases note_cases call b with hn | ⟨e, hn⟩ <;> rw [hn] at hb <;> cases hb
    exact ⟨rfl, rfl, rfl⟩
  · intro b e c hb
    rcases note_cases call b with hn | ⟨e', hn⟩ <;> rw [hn] at hb <;> cases hb
    exact ⟨rfl, rfl, rfl⟩

theorem steady_answer {α : Type} (call : Call)
    {f : ScriptedBroker → EStateM BrokerError ScriptedBroker α} (hf : ∀ b, StaysSteady (f b)) :
    StaysSteady (do note call; f (← get)) :=
  Ends.bind chains_steady (steady_note call) fun _ =>
    Ends.bind chains_steady (Ends.get chains_steady) hf

theorem steady_partitionsFor (topic : String) :
    StaysSteady (Broker.partitionsFor topic : EStateM _ ScriptedBroker _) := by
  refine steady_answer _ fun b => ?_
  split
  · exact Ends.pure chains_steady _
  · exact Ends.throw Steady.refl

theorem steady_endOffsets (ps : List Partition) :
    StaysSteady (Broker.endOffsets ps : EStateM _ ScriptedBroker _) := by
  refine steady_answer _ fun b => ?_
  refine Ends.bind chains_steady (Ends.mapM chains_steady (fun p => ?_) ps) fun _ =>
    Ends.pure chains_steady _
  split
  · exact Ends.pure chains_steady _
  · exact Ends.throw Steady.refl

theorem steady_assignment : StaysSteady (Broker.assignment : EStateM _ ScriptedBroker _) :=
  steady_answer _ fun _ => Ends.pure chains_steady _

theorem steady_committed (ps : List Partition) :
    StaysSteady (Broker.committed ps : EStateM _ ScriptedBroker _) :=
  steady_answer _ fun _ => Ends.pure chains_steady _

theorem steady_commitAs {call : Bool → Call} {offsets : Offsets}
    (hop : (call true).operation? = (call false).operation?) :
    StaysSteady (commitAs call offsets) := by
  constructor
  · intro b _ c hb
    rcases commitAs_cases call offsets b hop with hn | ⟨e, hn⟩ <;> rw [hn] at hb <;> cases hb
    exact ⟨rfl, rfl, rfl⟩
  · intro b e c hb
    rcases commitAs_cases call offsets b hop with hn | ⟨e', hn⟩ <;> rw [hn] at hb <;> cases hb
    exact ⟨rfl, rfl, rfl⟩

end ScriptedBroker

def Mode.waiting? : Mode → Option CatchUp
  | .anonymous catchUp => some catchUp
  | .grouped _ => none

inductive Power where
  | reassign
  | close
  | advance
  | expect
  | upset
  | tell (kind : Notification.Kind)
  deriving DecidableEq

def Act.powers (grouped : Bool) : Act → List Power
  | .start =>
    if grouped then [] else [.reassign, .tell .assigned, .expect, .tell .caughtUp, .advance]
  | .obey (.ack _) => if grouped then [] else [.expect, .tell .caughtUp]
  | .obey .committedOffsets => [.tell .committed]
  | .obey .stop => [.close, .advance]
  | .receive =>
    [.reassign, .tell .assigned, .tell .unassigned, .tell .consuming, .advance, .tell .record]
  | .await _ => [.upset]
  | .obey (.unrecognized _) | .balance | .flush => []

namespace Act

variable {a : Act} {grouped : Bool}

theorem reassign_mem_powers :
    .reassign ∈ a.powers grouped ↔ (a = .start ∧ grouped = false) ∨ a = .receive := by
  cases a with
  | obey c => cases c <;> cases grouped <;> simp [powers]
  | _ => cases grouped <;> simp [powers]

theorem close_mem_powers : .close ∈ a.powers grouped ↔ a = .obey .stop := by
  cases a with
  | obey c => cases c <;> cases grouped <;> simp [powers]
  | _ => cases grouped <;> simp [powers]

theorem advance_mem_powers : .advance ∈ a.powers grouped ↔
    (a = .start ∧ grouped = false) ∨ a = .obey .stop ∨ a = .receive := by
  cases a with
  | obey c => cases c <;> cases grouped <;> simp [powers]
  | _ => cases grouped <;> simp [powers]

theorem expect_mem_powers : .expect ∈ a.powers grouped ↔
    grouped = false ∧ (a = .start ∨ ∃ pos, a = .obey (.ack pos)) := by
  cases a with
  | obey c => cases c <;> cases grouped <;> simp [powers]
  | _ => cases grouped <;> simp [powers]

/-- What is waited for changes only where the host may be told that nothing is left of it. -/
theorem caughtUp_mem_powers : .tell .caughtUp ∈ a.powers grouped ↔ .expect ∈ a.powers grouped := by
  cases a with
  | obey c => cases c <;> cases grouped <;> simp [powers]
  | _ => cases grouped <;> simp [powers]

theorem committed_mem_powers :
    .tell .committed ∈ a.powers grouped ↔ a = .obey .committedOffsets := by
  cases a with
  | obey c => cases c <;> cases grouped <;> simp [powers]
  | _ => cases grouped <;> simp [powers]

end Act

/-- The host is offered notifications of the kinds that are allowed. It need not take them. -/
def Offered {ν : Type} [Notifier ν] (powers : List Power) : ν → ν → Prop :=
  Relation.ReflTransGen fun u v =>
    ∃ n : Notification, .tell n.kind ∈ powers ∧ endState (Notifier.emit n) u = v

namespace Offered

variable {ν : Type} [Notifier ν] {powers : List Power} {u v : ν}

theorem one {n : Notification} (h : .tell n.kind ∈ powers) (u : ν) :
    Offered powers u (endState (Notifier.emit n) u) :=
  .single ⟨n, h, rfl⟩

theorem eq_of_silent (h : Offered powers u v) (hsilent : ∀ kind, .tell kind ∉ powers) : v = u := by
  obtain rfl | ⟨_, -, n, hkind, -⟩ := Relation.ReflTransGen.cases_tail h
  · rfl
  · exact absurd hkind (hsilent n.kind)

theorem sent_emit (n : Notification) (t : Transcript ν) :
    (endState (Notifier.emit n) t).sent = t.sent ∨
      (endState (Notifier.emit n) t).sent = t.sent ++ [n] := by
  simp only [endState, Notifier.emit]
  cases Notifier.emit n t.through with
  | ok u w => exact Or.inr List.reverse_cons
  | error e w => exact Or.inl rfl

/-- A transcript only grows, by notifications of the kinds that are allowed. -/
theorem sent {t t' : Transcript ν} (h : Offered powers t t') :
    ∃ ns, t'.sent = t.sent ++ ns ∧ ∀ n ∈ ns, .tell n.kind ∈ powers := by
  induction h with
  | refl => exact ⟨[], (List.append_nil _).symm, fun n hn => by cases hn⟩
  | @tail u v _ hn ih =>
    obtain ⟨ns, hns, hkinds⟩ := ih
    obtain ⟨n, hkind, rfl⟩ := hn
    rcases sent_emit n u with hsame | hmore
    · exact ⟨ns, hsame.trans hns, hkinds⟩
    · refine ⟨ns ++ [n], ?_, ?_⟩
      · rw [hmore, hns, List.append_assoc]
      · intro k hk
        rcases List.mem_append.1 hk with hold | hnew
        · exact hkinds k hold
        · rw [List.mem_singleton.1 hnew]
          exact hkind

/-- Whether the host listens does not depend on what it is offered. -/
theorem through {t t' : Transcript Host} (h : Offered powers t t') : t'.through = t.through := by
  induction h with
  | refl => rfl
  | @tail u v _ hn ih =>
    obtain ⟨n, -, rfl⟩ := hn
    refine Eq.trans ?_ ih
    simp only [endState, Notifier.emit]
    cases u.through <;> rfl

end Offered

namespace Relay

variable {ν α : Type} [Notifier ν] {powers : List Power} {r s t : Relay ScriptedBroker ν}

/-- The relay changes only what it has the power to change. Whatever is not said otherwise stays the
same by definition. -/
structure Within (powers : List Power) (r s : Relay ScriptedBroker ν) : Prop where
  assignment : .reassign ∉ powers → s.broker.assignment = r.broker.assignment := by
    exact fun _ => rfl
  closed : .close ∉ powers → s.broker.closed = r.broker.closed := by exact fun _ => rfl
  faults : .upset ∉ powers → s.broker.faults = r.broker.faults := by exact fun _ => rfl
  phase : .advance ∉ powers → s.phase = r.phase := by exact fun _ => rfl
  waiting : .expect ∉ powers → s.desk.mode.waiting? = r.desk.mode.waiting? := by exact fun _ => rfl
  errors : ∀ k, s.desk.metrics.total? (.fatalErrors k) =
      r.desk.metrics.total? (.fatalErrors k) := by
    exact fun _ => rfl
  told : Offered powers r.desk.notifier s.desk.notifier := by exact .refl

namespace Within

/-- What keeps the broker steady, the phase, what is waited for and the errors counted so far, and
does not talk to the host, needs no power. -/
theorem of_same (hbroker : ScriptedBroker.Steady r.broker s.broker) (hphase : s.phase = r.phase)
    (hwaiting : s.desk.mode.waiting? = r.desk.mode.waiting?)
    (herrors : ∀ k, s.desk.metrics.total? (.fatalErrors k) = r.desk.metrics.total? (.fatalErrors k))
    (hhost : s.desk.notifier = r.desk.notifier) : Within powers r s := by
  constructor
  · exact fun _ => hbroker.assignment
  · exact fun _ => hbroker.closed
  · exact fun _ => hbroker.faults
  · exact fun _ => hphase
  · exact fun _ => hwaiting
  · exact herrors
  · rw [hhost]
    exact .refl

theorem refl (r : Relay ScriptedBroker ν) : Within powers r r :=
  of_same (.refl r.broker) rfl rfl (fun _ => rfl) rfl

theorem trans (hs : Within powers r s) (ht : Within powers s t) : Within powers r t := by
  constructor
  · intro h
    exact (ht.assignment h).trans (hs.assignment h)
  · intro h
    exact (ht.closed h).trans (hs.closed h)
  · intro h
    exact (ht.faults h).trans (hs.faults h)
  · intro h
    exact (ht.phase h).trans (hs.phase h)
  · intro h
    exact (ht.waiting h).trans (hs.waiting h)
  · intro k
    exact (ht.errors k).trans (hs.errors k)
  · exact hs.told.trans ht.told

theorem chains (powers : List Power) :
    Chains (Within powers) fun (r : Relay ScriptedBroker ν) (_ : Halt) s =>
      Within powers r s :=
  ⟨refl, trans, trans⟩

theorem of_steady {b : ScriptedBroker} (h : ScriptedBroker.Steady r.broker b) :
    Within powers r { r with broker := b } :=
  of_same h rfl rfl (fun _ => rfl) rfl

theorem of_count {f : Metrics → Metrics} (hf : Metrics.CountsNoError f) :
    Within powers r { r with desk := { r.desk with metrics := f r.desk.metrics } } :=
  of_same (.refl r.broker) rfl rfl (hf r.desk.metrics) rfl

theorem of_flow (flow : FlowControl) : Within powers r (r.setFlow flow) :=
  of_same (.refl r.broker) rfl rfl (fun _ => rfl) rfl

theorem of_phase (h : .advance ∈ powers) (phase : Phase) : Within powers r { r with phase } where
  phase hn := absurd h hn

/-- A change of the batch needs no power. -/
theorem of_batch {batch : CommitBatch} (hm : r.desk.mode = .grouped batch) (next : CommitBatch) :
    Within powers r (r.setMode (.grouped next)) := by
  have hwaiting : none = r.desk.mode.waiting? := by
    rw [hm]
    rfl
  exact of_same (.refl r.broker) rfl hwaiting (fun _ => rfl) rfl

theorem of_catchUp (h : .expect ∈ powers) (mode : Mode) : Within powers r (r.setMode mode) where
  waiting hn := absurd h hn

theorem of_offer {n : Notification} (h : .tell n.kind ∈ powers) :
    Within powers r
      { r with
        desk := { r.desk with notifier := endState (Notifier.emit n) r.desk.notifier } } where
  told := .one h _

end Within

abbrev StaysWithin (powers : List Power) (op : EStateM Halt (Relay ScriptedBroker ν) α) :
    Prop :=
  Ends (Within powers) (fun r _ s => Within powers r s) op

section Operations

theorem within_ask {op : EStateM BrokerError ScriptedBroker α} (h : ScriptedBroker.StaysSteady op) :
    StaysWithin powers (ask op : EStateM Halt (Relay ScriptedBroker ν) α) :=
  ends_ask (fun _ _ _ ho => .of_steady (h.ok ho)) fun _ _ _ ho => .of_steady (h.error ho)

/-- A change of the broker that needs a power. -/
theorem within_change (call : Call) {f : ScriptedBroker → ScriptedBroker}
    (hf : ∀ r : Relay ScriptedBroker ν, Within powers r { r with broker := f r.broker }) :
    StaysWithin powers (ask (do ScriptedBroker.note call; modify f) :
      EStateM Halt (Relay ScriptedBroker ν) Unit) := by
  have hnoted : ∀ r : Relay ScriptedBroker ν,
      Within powers r { r with broker := r.broker.noted call } :=
    fun r => .of_steady ⟨rfl, rfl, rfl⟩
  refine ends_ask (fun r a b ho => ?_) (fun r e b ho => ?_)
  · rcases ScriptedBroker.change_cases call f r.broker with hb | ⟨e, hb⟩ <;> rw [hb] at ho <;>
      cases ho
    exact (hnoted r).trans (hf { r with broker := r.broker.noted call })
  · rcases ScriptedBroker.change_cases call f r.broker with hb | ⟨e', hb⟩ <;> rw [hb] at ho <;>
      cases ho
    exact hnoted r

theorem within_measure {f : Metrics → Metrics} (hf : Metrics.CountsNoError f) :
    StaysWithin powers (measure f : EStateM Halt (Relay ScriptedBroker ν) Unit) :=
  Ends.modify fun _ => .of_count hf

theorem within_tell {n : Notification} (h : .tell n.kind ∈ powers) :
    StaysWithin powers (tell n : EStateM Halt (Relay ScriptedBroker ν) Unit) := by
  apply Ends.of_atEnd
  intro r
  rw [endState_tell]
  exact .of_offer h

theorem within_partitionsOf (topics : List String) :
    StaysWithin powers (partitionsOf topics : EStateM Halt (Relay ScriptedBroker ν) _) := by
  induction topics with
  | nil => exact Ends.pure (Within.chains _) []
  | cons topic topics ih =>
    have hc := Within.chains (ν := ν) powers
    exact Ends.bind hc (within_ask (ScriptedBroker.steady_partitionsFor topic)) fun ps =>
      Ends.bind hc ih fun qs => Ends.pure hc (ps ++ qs)

theorem within_startAnonymous :
    StaysWithin (Act.powers false .start)
      (startAnonymous : EStateM Halt (Relay ScriptedBroker ν) Unit) := by
  have hc := Within.chains (ν := ν) (Act.powers false .start)
  refine Ends.bind hc (Ends.get hc) fun r => ?_
  refine Ends.bind hc (within_partitionsOf r.topics) fun ps => ?_
  refine Ends.bind hc (within_change (.assign ps) fun r => ?_) fun _ => ?_
  · exact { assignment := fun hn => absurd (by decide) hn }
  refine Ends.bind hc (within_ask (ScriptedBroker.steady_endOffsets ps)) fun ends => ?_
  have hassigned : Power.tell (Notification.assigned ps).kind ∈ Act.powers false .start :=
    show Power.tell .assigned ∈ _ by decide
  refine Ends.bind hc (within_tell hassigned) fun _ => ?_
  refine Ends.bind hc (Ends.modify fun r => .of_catchUp (by decide) _) fun _ => ?_
  split
  · exact Ends.bind hc (within_tell (by decide)) fun _ =>
      Ends.modify fun r => .of_phase (by decide) .consuming
  · exact Ends.modify fun r => .of_phase (by decide) .consuming

omit [Notifier ν] in
theorem endState_flush_of_grouped {batch : CommitBatch} (hm : r.desk.mode = .grouped batch)
    (forced : Bool) :
    endState (flush forced) r =
      r.flushed forced (batch.flush Broker.commit forced r.now r.broker) := by
  rw [endState, flush_of_grouped hm rfl]
  cases (batch.flush Broker.commit forced r.now r.broker).1 <;> rfl

theorem steady_flush (batch : CommitBatch) (forced : Bool) (now : Nat) (b : ScriptedBroker) :
    ScriptedBroker.Steady b (batch.flush Broker.commit forced now b).2.2 := by
  have hcommit : ScriptedBroker.StaysSteady
      (Broker.commit batch.pending : EStateM BrokerError ScriptedBroker Unit) :=
    ScriptedBroker.steady_commitAs rfl
  rcases batch.flush_cases Broker.commit b forced now with
    ⟨last, ho, -⟩ | ⟨-, ⟨next, hc, ho⟩ | ⟨e, next, hc, ho⟩⟩
  · rw [ho]
    exact .refl b
  · rw [ho]
    exact hcommit.ok hc
  · rw [ho]
    exact hcommit.error hc

theorem within_flush (forced : Bool) :
    StaysWithin powers (flush forced : EStateM Halt (Relay ScriptedBroker ν) Unit) := by
  apply Ends.of_atEnd
  intro r
  cases hm : r.desk.mode with
  | anonymous catchUp =>
    rw [endState_of_ok (flush_of_anonymous hm forced)]
    exact .refl r
  | grouped batch =>
    rw [endState_flush_of_grouped hm]
    have hbroker := steady_flush batch forced r.now r.broker
    have hmode : r.desk.mode.waiting? = none := by
      rw [hm]
      rfl
    exact .of_same hbroker rfl hmode.symm
      (Metrics.countsNoError_addCommit _ _ r.desk.metrics) rfl

theorem within_stop : StaysWithin (Act.powers true (.obey .stop))
    (stop : EStateM Halt (Relay ScriptedBroker ν) Unit) := by
  have hc := Within.chains (ν := ν) (Act.powers true (.obey .stop))
  refine Ends.bind hc (within_flush true) fun _ => ?_
  refine Ends.bind hc (within_change .close fun r => ?_) fun _ => ?_
  · exact { closed := fun hn => absurd (by decide) hn }
  · exact Ends.modify fun r => .of_phase (by decide) .stopped

theorem within_releaseOldest (p : Partition) :
    StaysWithin powers (releaseOldest p : EStateM Halt (Relay ScriptedBroker ν) Unit) := by
  refine Ends.bind (Within.chains _) (Ends.get (Within.chains _)) fun r => ?_
  split
  · exact Ends.modify fun _ => .of_flow _
  · exact Ends.throw .refl

theorem within_acknowledge (pos : Position) (r : Relay ScriptedBroker ν) :
    Within (Act.powers r.desk.mode.held?.isSome (.obey (.ack pos))) r
      (endState (acknowledge pos) r) := by
  cases hm : r.desk.mode with
  | grouped batch =>
    have ha := acknowledge_of_grouped hm pos
    cases hreleased : r.desk.flow.wasReleased pos.partition with
    | true =>
      rw [hreleased, if_pos rfl] at ha
      rw [endState_of_ok ha]
      exact .of_count (Metrics.countsNoError_add (fun _ h => by cases h) 1)
    | false =>
      rw [hreleased] at ha
      cases hflow : r.desk.flow.acknowledge? pos.partition with
      | none =>
        rw [hflow] at ha
        rw [endState_of_error ha]
        exact .refl r
      | some flow =>
        rw [hflow] at ha
        rw [endState_of_ok ha]
        exact (Within.of_flow flow).trans (Within.of_batch (r := r.setFlow flow) hm _)
  | anonymous catchUp =>
    have hc := Within.chains (ν := ν) (Act.powers false (.obey (.ack pos)))
    have ha : acknowledge pos r = (do
        releaseOldest pos.partition
        modify (setMode (.anonymous (catchUp.acknowledge pos).2))
        if (catchUp.acknowledge pos).1 then tell .caughtUp) r := by
      simp only [acknowledge, bind_apply, get_apply, hm]
    rw [endState_congr ha]
    refine Ends.atEnd ?_ r
    refine Ends.bind hc (within_releaseOldest _) fun _ => ?_
    refine Ends.bind hc (Ends.modify fun r => .of_catchUp List.mem_cons_self _) fun _ => ?_
    split
    · exact within_tell (List.mem_cons_of_mem _ List.mem_cons_self)
    · exact Ends.pure hc ()

theorem within_reportCommitted : StaysWithin (Act.powers true (.obey .committedOffsets))
    (reportCommitted : EStateM Halt (Relay ScriptedBroker ν) Unit) :=
  Ends.bind (Within.chains _) (within_ask ScriptedBroker.steady_assignment) fun ps =>
    Ends.bind (Within.chains _) (within_ask (ScriptedBroker.steady_committed ps)) fun _ =>
      within_tell List.mem_cons_self

theorem within_askFor {call : List Partition → Call}
    {change : PartitionSet → Partition → PartitionSet} {counter : Counter}
    (hcounter : ∀ k, counter ≠ .fatalErrors k) (ps : List Partition) :
    StaysWithin powers (askFor (fun ps => do
        ScriptedBroker.note (call ps)
        modify fun b => { b with paused := ps.foldl change b.paused }) counter ps :
      EStateM Halt (Relay ScriptedBroker ν) Unit) := by
  rw [askFor]
  split
  · exact Ends.pure (Within.chains _) ()
  · refine Ends.bind (Within.chains _) (within_change _ fun _ => ?_) fun _ => ?_
    · exact .of_steady ⟨rfl, rfl, rfl⟩
    exact within_measure (Metrics.countsNoError_add hcounter _)

theorem within_balance :
    StaysWithin powers (balance : EStateM Halt (Relay ScriptedBroker ν) Unit) := by
  have hc := Within.chains (ν := ν) powers
  rw [balance_eq]
  refine Ends.bind hc (within_ask ScriptedBroker.steady_assignment) fun ps => ?_
  refine Ends.bind hc (Ends.get hc) fun r => ?_
  refine Ends.bind hc (Ends.modify fun _ => .of_flow _) fun _ => ?_
  refine Ends.bind hc (within_askFor (fun _ h => by cases h) _) fun _ => ?_
  refine Ends.bind hc (within_askFor (fun _ h => by cases h) _) fun _ => ?_
  rw [notePaused]
  split
  · exact Ends.pure hc ()
  · exact within_measure fun _ _ => rfl

end Operations

section Receive

/-- The desk settles what is held, and keeps what else it is to keep. -/
theorem within_settle (change : Rebalance) (r : Relay ScriptedBroker ν) :
    Within powers r
      { r with
        broker := (r.desk.settle ScriptedBroker.handOver change r.broker).1
        desk := (r.desk.settle ScriptedBroker.handOver change r.broker).2 } := by
  cases hm : r.desk.mode with
  | anonymous catchUp =>
    simp only [Desk.settle, hm]
    exact .refl r
  | grouped batch =>
    cases change with
    | assigned ps =>
      simp only [Desk.settle, hm]
      exact .refl r
    | lost ps =>
      simp only [Desk.settle, hm]
      exact (Within.of_batch hm (batch.lose ps).2).trans
        (.of_count (Metrics.countsNoError_addDiscarded _))
    | revoked ps =>
      have hover : ScriptedBroker.StaysSteady (ScriptedBroker.handOver (batch.take ps).1) :=
        ScriptedBroker.steady_commitAs rfl
      have hbroker : ScriptedBroker.Steady r.broker
          (batch.revoke ScriptedBroker.handOver ps r.broker).2.2 := by
        rcases batch.revoke_cases ScriptedBroker.handOver r.broker ps with
          ⟨-, ho⟩ | ⟨-, ⟨next, hc, ho⟩ | ⟨e, next, hc, ho⟩⟩
        · rw [ho]
          exact .refl r.broker
        · rw [ho]
          exact hover.ok hc
        · rw [ho]
          exact hover.error hc
      simp only [Desk.settle, hm]
      have hmode : r.desk.mode.waiting? = none := by
        rw [hm]
        rfl
      exact .of_same hbroker rfl hmode.symm
        (Metrics.countsNoError_addCommit _ _ r.desk.metrics) rfl

/-- Adjusting to a rebalance stays within the powers of a receipt. -/
theorem within_adjusted (change : Rebalance) (r : Relay ScriptedBroker ν) :
    Within powers r
      { r with
        broker := (Desk.adjusted change r.broker r.desk).1
        desk := (Desk.adjusted change r.broker r.desk).2 } := by
  have hrelease : ∀ (ps : List Partition) (s : Relay ScriptedBroker ν),
      Within powers s { s with desk := s.desk.release ps } := by
    intro ps s
    exact .of_same (.refl s.broker) rfl rfl (fun _ => rfl) rfl
  cases change with
  | assigned ps => exact .refl r
  | revoked ps => exact (within_settle (.revoked ps) r).trans (hrelease ps _)
  | lost ps => exact (within_settle (.lost ps) r).trans (hrelease ps _)

theorem kind_of_news {change : Rebalance} {n : Notification} (h : n ∈ change.news) :
    n.kind = .assigned ∨ n.kind = .unassigned := by
  cases change with
  | assigned ps =>
    simp only [Rebalance.news, List.mem_ite_nil_left, List.mem_singleton] at h
    exact Or.inl (congrArg Notification.kind h.2)
  | revoked ps =>
    simp only [Rebalance.news, List.mem_ite_nil_left, List.mem_singleton] at h
    exact Or.inr (congrArg Notification.kind h.2)
  | lost ps =>
    simp only [Rebalance.news, List.mem_ite_nil_left, List.mem_singleton] at h
    exact Or.inr (congrArg Notification.kind h.2)

theorem within_onRebalance (change : Rebalance) (r : Relay ScriptedBroker ν) :
    Within (Act.powers true .receive) r
      { r with
        broker := (endState (Desk.onRebalance ScriptedBroker.handOver change) (r.broker, r.desk)).1
        desk := (endState (Desk.onRebalance ScriptedBroker.handOver change)
          (r.broker, r.desk)).2 } := by
  have hcount : ∀ c : Counter, (∀ k, c ≠ .fatalErrors k) →
      Within (Act.powers true .receive) r { r with desk := r.desk.count c } :=
    fun c hc => .of_count (Metrics.countsNoError_add hc 1)
  by_cases hempty : change.partitions = []
  · rw [endState_of_ok (Desk.onRebalance_of_empty hempty)]
    exact hcount _ fun _ h => by cases h
  · obtain ⟨n, hnews, ho⟩ := Desk.onRebalance_of_some hempty (b := r.broker) (d := r.desk)
    have hkind : Power.tell n.kind ∈ Act.powers true .receive := by
      rcases kind_of_news (hnews ▸ List.mem_singleton.2 rfl) with hn | hn <;> rw [hn] <;> decide
    have hcounted := hcount (.rebalances change.kind) fun _ h => by cases h
    have hadjusted := hcounted.trans (within_adjusted change _)
    have htold := hadjusted.trans (.of_offer hkind)
    rw [Desk.tell] at ho
    cases he : Notifier.emit n
        (Desk.adjusted change r.broker (r.desk.count (.rebalances change.kind))).2.notifier with
    | ok u w =>
      rw [he] at ho
      rw [endState_of_ok he] at htold
      rw [endState_of_ok ho]
      exact htold
    | error x w =>
      rw [he] at ho
      rw [endState_of_error he] at htold
      rw [endState_of_error ho]
      exact htold

theorem within_poll : StaysWithin (Act.powers true .receive)
    (poll : EStateM Halt (Relay ScriptedBroker ν) (List Record)) := by
  apply Ends.of_atEnd
  intro r
  have hpolled : ∀ script, Within (Act.powers true .receive) r
      { r with broker := { r.broker.noted (.poll r.pollTimeout) with script } } :=
    fun script => .of_steady ⟨rfl, rfl, rfl⟩
  cases hchange : r.broker.change? with
  | none =>
    rcases ScriptedBroker.poll_of_records r.pollTimeout Desk.listener r.desk hchange with
      ho | ⟨e, script, ho⟩
    · rw [endState_of_ok (poll_of_ok ho)]
      exact hpolled r.broker.script.tail
    · rw [endState_of_error (poll_of_error ho)]
      exact hpolled script
  | some change =>
    have hp := poll_with_change hchange
    have hfollowed : ∀ x, endState (Desk.onRebalance ScriptedBroker.handOver change)
        (r.broker.polled r.pollTimeout, r.desk) = x →
        Within (Act.powers true .receive) r { r with broker := x.1, desk := x.2 } := by
      rintro x rfl
      exact (hpolled r.broker.script.tail).trans (within_onRebalance change _)
    cases ho : Desk.onRebalance ScriptedBroker.handOver change
        (r.broker.polled r.pollTimeout, r.desk) with
    | error e x =>
      rw [ho] at hp
      rw [endState_of_error hp]
      exact hfollowed x (endState_of_error ho)
    | ok u x =>
      rw [ho] at hp
      rw [endState_of_ok hp]
      have hkept : (x.1.complete change).closed = x.1.closed ∧
          (x.1.complete change).faults = x.1.faults := by
        cases change <;> exact ⟨rfl, rfl⟩
      exact (hfollowed x (endState_of_ok ho)).trans {
        assignment := fun hn => absurd (by decide) hn
        closed := fun _ => hkept.1
        faults := fun _ => hkept.2 }

theorem within_announce : StaysWithin (Act.powers true .receive)
    (announce : EStateM Halt (Relay ScriptedBroker ν) Unit) := by
  have hc := Within.chains (ν := ν) (Act.powers true .receive)
  refine Ends.bind hc (Ends.get hc) fun r => ?_
  split
  · refine Ends.bind hc (within_ask ScriptedBroker.steady_assignment) fun ps => ?_
    split
    · exact Ends.pure hc ()
    · exact Ends.bind hc (within_tell (by decide)) fun _ =>
        Ends.modify fun r => .of_phase (by decide) .consuming
  · exact Ends.pure hc ()

theorem within_deliver (rs : List Record) : StaysWithin (Act.powers true .receive)
    (deliver rs : EStateM Halt (Relay ScriptedBroker ν) Unit) := by
  have hc := Within.chains (ν := ν) (Act.powers true .receive)
  have hall : StaysWithin (Act.powers true .receive)
      (deliverAll rs : EStateM Halt (Relay ScriptedBroker ν) Unit) := by
    induction rs with
    | nil => exact Ends.pure hc ()
    | cons record rs ih =>
      have hkind : Power.tell (Notification.record record).kind ∈ Act.powers true .receive :=
        show Power.tell .record ∈ _ by decide
      exact Ends.bind hc (within_tell hkind) fun _ =>
        Ends.bind hc (ends_track (fun _ => .of_flow) fun r => .refl r) fun _ => ih
  rw [deliver]
  split
  · exact Ends.pure hc ()
  · refine Ends.bind hc (within_measure fun _ _ => rfl) fun _ => ?_
    exact Ends.bind hc hall fun _ =>
      within_measure (Metrics.countsNoError_add (fun _ h => by cases h) _)

theorem within_receive : StaysWithin (Act.powers true .receive)
    (receive : EStateM Halt (Relay ScriptedBroker ν) Unit) :=
  Ends.bind (Within.chains _) within_poll fun rs =>
    Ends.bind (Within.chains _) within_announce fun _ => within_deliver rs

end Receive

section Perform

def isGrouped (r : Relay ScriptedBroker ν) : Bool := r.desk.mode.held?.isSome

theorem within_start (r : Relay ScriptedBroker ν) :
    Within (Act.powers r.isGrouped .start) r (endState start r) := by
  rw [isGrouped]
  cases hm : r.desk.mode with
  | grouped batch =>
    rw [endState_congr (start_of_grouped hm)]
    exact (within_ask (ScriptedBroker.steady_note _)).atEnd r
  | anonymous catchUp =>
    rw [endState_congr (start_of_anonymous hm)]
    exact within_startAnonymous.atEnd r

theorem within_obey (c : Command) (r : Relay ScriptedBroker ν) :
    Within (Act.powers r.isGrouped (.obey c)) r (endState (obey c) r) := by
  have hcounted : ∀ powers, Within powers r (r.counting c) :=
    fun powers => .of_count (Metrics.countsNoError_add (fun _ h => by cases h) 1)
  have hobey := obey_apply c r
  refine (hcounted _).trans ?_
  cases c with
  | ack pos =>
    rw [(endState_congr hobey).trans (endState_bind_pure (acknowledge pos) Flow.goOn _)]
    exact within_acknowledge pos (r.counting (.ack pos))
  | committedOffsets =>
    rw [(endState_congr hobey).trans (endState_bind_pure reportCommitted Flow.goOn _)]
    exact within_reportCommitted.atEnd _
  | stop =>
    rw [(endState_congr hobey).trans (endState_bind_pure stop Flow.stop _)]
    exact within_stop.atEnd _
  | unrecognized raw =>
    rw [endState_of_error hobey]
    exact .refl _

/-- However an act ends, the relay has stayed within the powers of the act. -/
theorem within_perform (a : Act) (r : Relay ScriptedBroker ν) :
    Within (a.powers r.isGrouped) r (endState (perform a) r) := by
  cases a with
  | start =>
    have hs : endState (perform .start) r = endState start r := endState_bind_pure start Flow.goOn r
    rw [hs]
    exact within_start r
  | await t =>
    have hs : endState (perform (.await t)) r = pass t r := rfl
    rw [hs]
    exact { faults := fun hn => absurd List.mem_cons_self hn }
  | obey c => exact within_obey c r
  | balance =>
    have hs : endState (perform .balance) r = endState balance r :=
      endState_bind_pure balance Flow.goOn r
    rw [hs]
    exact within_balance.atEnd r
  | flush =>
    have hs : endState (perform .flush) r = endState (flush false) r :=
      endState_bind_pure (flush false) Flow.goOn r
    rw [hs]
    exact (within_flush false).atEnd r
  | receive =>
    have hs : endState (perform .receive) r = endState receive r :=
      endState_bind_pure receive Flow.goOn r
    rw [hs]
    exact within_receive.atEnd r

/-- A member of a group is one as long as it lives. -/
theorem isGrouped_of_trail {settings : RelaySettings} {b : ScriptedBroker} {w : ν} {now : Nat}
    {ts : List Round} {past : List (Moment ν)} {m : Moment ν} (hg : settings.group ≠ none)
    (h : past ++ [m] <+: trail (lifeOf ts) (create settings b w now)) :
    m.before.isGrouped = true := by
  obtain ⟨offsets, hheld, -⟩ := holds_of_grouped hg h
  rw [isGrouped, hheld]
  rfl

end Perform

end Relay

def Moment.heard {ν : Type} [Notifier ν] (m : Moment (Transcript ν)) : List Notification :=
  m.after.desk.notifier.sent.drop m.before.desk.notifier.sent.length

namespace Relay

section Heard

variable {ν : Type} [Notifier ν] {r : Relay ScriptedBroker (Transcript ν)} {as : List Act}
  {past : List (Moment (Transcript ν))} {m : Moment (Transcript ν)}

theorem heard_of_append {ns : List Notification}
    (h : m.after.desk.notifier.sent = m.before.desk.notifier.sent ++ ns) : m.heard = ns := by
  rw [Moment.heard, h, List.drop_left]

/-- The host hears only what the act has the power to tell. -/
theorem sent_after (m : Moment (Transcript ν)) :
    m.after.desk.notifier.sent = m.before.desk.notifier.sent ++ m.heard ∧
      ∀ n ∈ m.heard, .tell n.kind ∈ m.act.powers m.before.isGrouped := by
  obtain ⟨ns, hns, hkinds⟩ := (within_perform m.act m.before).told.sent
  have hheard : m.heard = ns := heard_of_append hns
  rw [hheard]
  exact ⟨hns, hkinds⟩

/-- What lies outside the powers of a step is not heard at it. -/
theorem not_heard {n : Notification} (h : .tell n.kind ∉ m.act.powers m.before.isGrouped) :
    n ∉ m.heard :=
  fun hn => h ((sent_after m).2 n hn)

/-- The notifications of a life are those of its moments. -/
theorem sent_live (as : List Act) (r : Relay ScriptedBroker (Transcript ν)) :
    (live as r).2.desk.notifier.sent =
      r.desk.notifier.sent ++ (trail as r).flatMap Moment.heard := by
  induction as generalizing r with
  | nil => exact (List.append_nil _).symm
  | cons a as ih =>
    have hafter := (sent_after ⟨r, a⟩).1
    simp only [live, trail, List.flatMap_cons]
    rw [← List.append_assoc, ← hafter]
    cases hp : perform a r with
    | error e t =>
      have ht : (⟨r, a⟩ : Moment (Transcript ν)).after = t := endState_of_error hp
      rw [ht]
      exact (List.append_nil _).symm
    | ok flow t =>
      have ht : (⟨r, a⟩ : Moment (Transcript ν)).after = t := endState_of_ok hp
      rw [ht]
      cases flow with
      | goOn => exact ih t
      | stop => exact (List.append_nil _).symm

/-- The transcript before a moment is what was sent at the start and what was heard since. -/
theorem sent_before (h : past ++ [m] <+: trail as r) :
    m.before.desk.notifier.sent = r.desk.notifier.sent ++ past.flatMap Moment.heard := by
  refine trail_induction (I := fun past m => m.before.desk.notifier.sent =
    r.desk.notifier.sent ++ past.flatMap Moment.heard) (fun m hm => ?_) (fun past m n hn hm => ?_)
    past m h
  · rw [before_of_first hm]
    exact (List.append_nil _).symm
  · have hafter : m.after = n.before := endState_of_ok (perform_of_next hn)
    rw [← hafter, (sent_after m).1, hm, List.flatMap_append, List.append_assoc,
      List.flatMap_singleton]

end Heard

end Relay

end AckRelay
