import AckRelay.Proofs.Relay.Frame

/-!
A broker that notes every map of offsets that it is asked to commit, also from within a poll. Apart
from its notes the relay runs over it as over the broker itself (`run_plain`), so what it notes is
what the relay asks of any broker.
-/

namespace AckRelay

variable {β σ τ ν ε α : Type}

structure Audited (β : Type) where
  broker : β
  /-- What it was asked to commit, in order. -/
  asked : List Offsets := []

namespace Audited

def lift (op : EStateM BrokerError β α) : EStateM BrokerError (Audited β) α := fun a =>
  match op a.broker with
  | .ok x b => .ok x { a with broker := b }
  | .error e b => .error e { a with broker := b }

/-- Notes what is to be committed before the broker decides about it. -/
def noting (commit : Committer β) : Committer (Audited β) := fun offsets a =>
  lift (commit offsets) { a with asked := a.asked ++ [offsets] }

def inner (l : Listener (Audited β) σ ε) : Listener β (σ × List Offsets) ε where
  notify commit change := fun (b, s, asked) =>
    match l.notify (noting commit) change (⟨b, asked⟩, s) with
    | .ok u (a, s) => .ok u (a.broker, s, a.asked)
    | .error e (a, s) => .error e (a.broker, s, a.asked)
  refuse := l.refuse

def poll [Broker β] (timeout : Nat) (l : Listener (Audited β) σ ε) :
    EStateM ε (Audited β × σ) (List Record) := fun (a, s) =>
  match Broker.poll timeout (inner l) (a.broker, s, a.asked) with
  | .ok records (b, s, asked) => .ok records (⟨b, asked⟩, s)
  | .error e (b, s, asked) => .error e (⟨b, asked⟩, s)

instance [Broker β] : Broker (Audited β) where
  subscribe topics := lift (Broker.subscribe topics)
  assign ps := lift (Broker.assign ps)
  assignment := lift Broker.assignment
  partitionsFor topic := lift (Broker.partitionsFor topic)
  endOffsets ps := lift (Broker.endOffsets ps)
  committed ps := lift (Broker.committed ps)
  pause ps := lift (Broker.pause ps)
  resume ps := lift (Broker.resume ps)
  commit := noting Broker.commit
  poll := poll
  close := lift Broker.close

/-- A broker operation that is lifted asks for no commit. -/
theorem asked_lift (op : EStateM BrokerError β α) :
    Ends (fun a b => b.asked = a.asked) (fun a _ b => b.asked = a.asked) (lift op) := by
  refine Ends.of_atEnd fun a => ?_
  rw [endState, lift]
  cases op a.broker <;> rfl

theorem within_asked [Broker β] : Broker.Within fun a b : Audited β => b.asked = a.asked where
  subscribe _ := asked_lift _
  assign _ := asked_lift _
  assignment := asked_lift _
  partitionsFor _ := asked_lift _
  endOffsets _ := asked_lift _
  committed _ := asked_lift _
  pause _ := asked_lift _
  resume _ := asked_lift _
  close := asked_lift _

/-- What is asked for is appended, however the commit ends. -/
theorem endState_noting (commit : Committer β) (offsets : Offsets) (a : Audited β) :
    (endState (noting commit offsets) a).asked = a.asked ++ [offsets] :=
  (asked_lift _).atEnd _

/-- What the listener and the notes keep whenever the listener is told, they keep over a poll. -/
theorem poll_keeps [Broker β] [OnlyTells β] {I : σ → List Offsets → Prop}
    {l : Listener (Audited β) σ ε}
    (hnotify : ∀ commit change a s, I s a.asked →
      I (endState (l.notify (noting commit) change) (a, s)).2
        (endState (l.notify (noting commit) change) (a, s)).1.asked)
    (timeout : Nat) {a : Audited β} {s : σ} (hs : I s a.asked) :
    I (endState (Broker.poll timeout l) (a, s)).2
      (endState (Broker.poll timeout l) (a, s)).1.asked := by
  have hinner : ∀ commit change b s, I s.1 s.2 →
      I (endState ((inner l).notify commit change) (b, s)).2.1
        (endState ((inner l).notify commit change) (b, s)).2.2 := by
    intro commit change b s hs
    have hend := hnotify commit change ⟨b, s.2⟩ s.1 hs
    rw [endState] at hend ⊢
    simp only [inner]
    cases hn : l.notify (noting commit) change (⟨b, s.2⟩, s.1) <;> simpa only [hn] using hend
  have hpoll := AckRelay.poll_keeps (I := fun s : σ × List Offsets => I s.1 s.2) hinner timeout
    (b := a.broker) (s := (s, a.asked)) hs
  change I (endState (poll timeout l) (a, s)).2 (endState (poll timeout l) (a, s)).1.asked
  rw [endState] at hpoll ⊢
  simp only [poll]
  cases hp : Broker.poll timeout (inner l) (a.broker, s, a.asked) <;> simpa only [hp] using hpoll

/-- Listeners that react alike do so with the notes beside their states. -/
theorem inner_alike {R : σ → τ → Prop} {l : Listener (Audited β) σ ε} {m : Listener (Audited β) τ ε}
    (hnotify : ∀ commit change, Alike (Beside R) (l.notify commit change) (m.notify commit change))
    (commit : Committer β) (change : Rebalance) :
    Alike (Beside fun (s : σ × List Offsets) (t : τ × List Offsets) => R s.1 t.1 ∧ s.2 = t.2)
      ((inner l).notify commit change) ((inner m).notify commit change) := by
  rintro ⟨b, s, asked⟩ ⟨c, t, asked'⟩ ⟨hb, hst, hasked⟩
  obtain rfl : b = c := hb
  obtain rfl : asked = asked' := hasked
  have hstart : Beside R ((⟨b, asked⟩ : Audited β), s) (⟨b, asked⟩, t) := ⟨rfl, hst⟩
  have htold := hnotify (noting commit) change hstart
  simp only [inner]
  generalize l.notify (noting commit) change (⟨b, asked⟩, s) = told,
    m.notify (noting commit) change (⟨b, asked⟩, t) = told' at htold
  cases htold with
  | @ok u x y h => exact .ok u ⟨congrArg broker h.1, h.2, congrArg Audited.asked h.1⟩
  | @error e x y h => exact .error e ⟨congrArg broker h.1, h.2, congrArg Audited.asked h.1⟩

instance [Broker β] [OnlyTells β] : OnlyTells (Audited β) where
  poll_alike {σ τ ε R l m} hrefuse hnotify timeout := by
    rintro ⟨a, s⟩ ⟨a', t⟩ ⟨ha, hst⟩
    obtain rfl : a = a' := ha
    have hstart : Beside (fun (s : σ × List Offsets) (t : τ × List Offsets) => R s.1 t.1 ∧ s.2 = t.2)
        (a.broker, s, a.asked) (a.broker, t, a.asked) := ⟨rfl, hst, rfl⟩
    have hpoll := OnlyTells.poll_alike (l := inner l) (m := inner m) hrefuse (inner_alike hnotify)
      timeout hstart
    change Agree _ (poll timeout l (a, s)) (poll timeout m (a, t))
    rw [poll, poll]
    generalize Broker.poll timeout (inner l) (a.broker, s, a.asked) = polled,
      Broker.poll timeout (inner m) (a.broker, t, a.asked) = polled' at hpoll
    cases hpoll with
    | @ok rs x y h =>
      obtain ⟨b, s, asked⟩ := x
      obtain ⟨c, t, asked'⟩ := y
      obtain ⟨rfl, hst, rfl⟩ : b = c ∧ R s t ∧ asked = asked' := h
      exact .ok rs ⟨rfl, hst⟩
    | @error e x y h =>
      obtain ⟨b, s, asked⟩ := x
      obtain ⟨c, t, asked'⟩ := y
      obtain ⟨rfl, hst, rfl⟩ : b = c ∧ R s t ∧ asked = asked' := h
      exact .error e ⟨rfl, hst⟩

section Erasure

variable (commit : Committer β) (a : Audited β)

/-- A commit is noted when the broker takes it and when the broker refuses it. -/
theorem noting_apply (offsets : Offsets) :
    noting commit offsets a =
      match commit offsets a.broker with
      | .ok u b => .ok u ⟨b, a.asked ++ [offsets]⟩
      | .error e b => .error e ⟨b, a.asked ++ [offsets]⟩ := by
  rw [noting, lift]
  cases commit offsets a.broker <;> rfl

/-- A batch that is flushed into a noting committer does what it does with the committer alone. -/
theorem flush_noting (batch : CommitBatch) (forced : Bool) (now : Nat) :
    let noted := batch.flush (noting commit) forced now a
    (noted.1, noted.2.1, noted.2.2.broker) = batch.flush commit forced now a.broker := by
  simp only [CommitBatch.flush]
  split
  · rfl
  · cases batch.pending.isEmpty with
    | true => rfl
    | false =>
      simp only [Bool.false_eq_true, ↓reduceIte, noting_apply]
      cases commit batch.pending a.broker <;> rfl

theorem revoke_noting (batch : CommitBatch) (ps : List Partition) :
    let noted := batch.revoke (noting commit) ps a
    (noted.1, noted.2.1, noted.2.2.broker) = batch.revoke commit ps a.broker := by
  simp only [CommitBatch.revoke]
  cases (batch.take ps).1.isEmpty with
  | true => rfl
  | false =>
    simp only [Bool.false_eq_true, ↓reduceIte, noting_apply]
    cases commit (batch.take ps).1 a.broker <;> rfl

/-- Noting the commits of a rebalance changes nothing else about it. -/
theorem settle_noting (change : Rebalance) (d : Desk ν) :
    ((d.settle (noting commit) change a).1.broker, (d.settle (noting commit) change a).2) =
      d.settle commit change a.broker := by
  cases hm : d.mode with
  | anonymous catchUp => simp only [Desk.settle, hm]
  | grouped batch =>
    cases change with
    | assigned ps => simp only [Desk.settle, hm]
    | lost ps => simp only [Desk.settle, hm]
    | revoked ps =>
      have hrevoke := revoke_noting commit a batch ps
      simp only [Desk.settle, hm, ← hrevoke]

theorem adjustedBy_noting (change : Rebalance) (d : Desk ν) :
    ((Desk.adjustedBy (noting commit) change a d).1.broker,
        (Desk.adjustedBy (noting commit) change a d).2) =
      Desk.adjustedBy commit change a.broker d := by
  have hsettle := settle_noting commit a change d
  cases change with
  | assigned ps => rfl
  | revoked ps => simp only [Desk.adjustedBy, ← hsettle]
  | lost ps => simp only [Desk.adjustedBy, ← hsettle]

end Erasure

end Audited

namespace Relay

def plain (r : Relay (Audited β) ν) : Relay β ν := { r with broker := r.broker.broker }

section Plain

variable (r : Relay (Audited β) ν)

@[simp]
theorem plain_broker : r.plain.broker = r.broker.broker := rfl

@[simp]
theorem plain_desk : r.plain.desk = r.desk := rfl

@[simp]
theorem plain_phase : r.plain.phase = r.phase := rfl

@[simp]
theorem plain_pollTimeout : r.plain.pollTimeout = r.pollTimeout := rfl

@[simp]
theorem plain_now : r.plain.now = r.now := rfl

end Plain

abbrev Unaudited (op : EStateM Halt (Relay (Audited β) ν) α)
    (op' : EStateM Halt (Relay β ν) α) : Prop :=
  Alike (fun r s => s = r.plain) op op'

namespace Unaudited

/-- An operation of the broker does the same with the audit and without it. -/
theorem ask (op : EStateM BrokerError β α) :
    Unaudited (Relay.ask (Audited.lift op) : EStateM _ (Relay _ ν) α) (Relay.ask op) := by
  rintro r _ rfl
  rw [ask_apply, ask_apply, Audited.lift, plain_broker]
  cases op r.broker.broker with
  | ok x b => exact .ok x rfl
  | error e b => exact .error _ rfl

theorem modify {f : Relay (Audited β) ν → Relay (Audited β) ν} {g : Relay β ν → Relay β ν}
    (hfg : ∀ r, g r.plain = (f r).plain) :
    Unaudited (modify f : EStateM Halt _ _) (modify g) :=
  Alike.modify fun h => h ▸ hfg _

theorem measure (f : Metrics → Metrics) :
    Unaudited (Relay.measure f : EStateM _ (Relay (Audited β) ν) Unit) (Relay.measure f) :=
  modify fun _ => rfl

theorem releaseOldest (p : Partition) :
    Unaudited (Relay.releaseOldest p : EStateM _ (Relay (Audited β) ν) Unit)
      (Relay.releaseOldest p) := by
  refine .get_bind fun h => ?_
  obtain rfl := h
  rw [plain_desk]
  split
  · exact modify fun _ => rfl
  · exact .throw _

theorem askFor {op : List Partition → EStateM BrokerError β Unit} (counter : Counter)
    (ps : List Partition) :
    Unaudited (Relay.askFor (fun ps => Audited.lift (op ps)) counter ps :
      EStateM _ (Relay (Audited β) ν) _) (Relay.askFor op counter ps) := by
  rw [Relay.askFor, Relay.askFor]
  split
  · exact .pure _
  · exact .bind (ask _) fun _ => measure _

section Told

variable [Notifier ν]

theorem tell (n : Notification) :
    Unaudited (Relay.tell n : EStateM _ (Relay (Audited β) ν) Unit) (Relay.tell n) := by
  rintro r _ rfl
  rw [tell_apply, tell_apply, plain_desk]
  cases Notifier.emit n r.desk.notifier with
  | ok u w => exact .ok _ rfl
  | error e w => exact .error _ rfl

omit [Notifier ν] in
theorem track (record : Record) :
    Unaudited (Relay.track record : EStateM _ (Relay (Audited β) ν) Unit)
      (Relay.track record) := by
  refine .get_bind fun h => ?_
  obtain rfl := h
  rw [plain_desk]
  split
  · exact modify fun _ => rfl
  · exact .throw _

theorem deliverAll (records : List Record) :
    Unaudited (Relay.deliverAll records : EStateM _ (Relay (Audited β) ν) _)
      (Relay.deliverAll records) := by
  induction records with
  | nil => exact .pure _
  | cons record records ih =>
    exact .bind (tell _) fun _ => .bind (track _) fun _ => ih

theorem deliver (records : List Record) :
    Unaudited (Relay.deliver records : EStateM _ (Relay (Audited β) ν) _)
      (Relay.deliver records) := by
  rw [Relay.deliver, Relay.deliver]
  split
  · exact .pure _
  · exact .bind (measure _) fun _ => .bind (deliverAll records) fun _ => measure _

/-- A desk that listens reacts alike, with the notes beside it and without. -/
theorem listener (commit : Committer β) (change : Rebalance) :
    Alike (Beside fun (s : Desk ν × List Offsets) d => s.1 = d)
      ((Audited.inner Desk.listener).notify commit change) (Desk.listener.notify commit change) := by
  rintro ⟨b, d, asked⟩ ⟨c, e⟩ ⟨hb, hd⟩
  obtain rfl : b = c := hb
  obtain rfl : d = e := hd
  simp only [Audited.inner, Desk.listener]
  by_cases hempty : change.partitions = []
  · rw [Desk.onRebalance_of_empty hempty, Desk.onRebalance_of_empty hempty]
    exact .ok _ ⟨rfl, rfl⟩
  · obtain ⟨n, hn, ho⟩ : ∃ n, change.news = [n] ∧
      Desk.onRebalance (Audited.noting commit) change (⟨b, asked⟩, d) = _ :=
        Desk.onRebalance_of_some hempty
    obtain ⟨m, hm, ho'⟩ : ∃ n, change.news = [n] ∧ Desk.onRebalance commit change (b, d) = _ :=
      Desk.onRebalance_of_some hempty
    obtain rfl : n = m := List.singleton_inj.1 (hn.symm.trans hm)
    have hadjusted := Audited.adjustedBy_noting commit ⟨b, asked⟩ change
      (d.count (.rebalances change.kind))
    rw [ho, ho', ← hadjusted]
    cases Desk.tell n (Desk.adjustedBy (Audited.noting commit) change ⟨b, asked⟩
        (d.count (.rebalances change.kind))).2 with
    | ok u e => exact .ok _ ⟨rfl, rfl⟩
    | error x e => exact .error _ ⟨rfl, rfl⟩

theorem acknowledge (position : Position) :
    Unaudited (Relay.acknowledge position : EStateM _ (Relay (Audited β) ν) _)
      (Relay.acknowledge position) := by
  refine .get_bind fun h => ?_
  obtain rfl := h
  rw [plain_desk]
  split
  · split
    · exact measure _
    · exact .bind (releaseOldest _) fun _ => modify fun _ => rfl
  · next catchUp _ =>
    generalize catchUp.acknowledge position = reached
    refine .bind (releaseOldest _) fun _ => .bind (modify fun _ => rfl) fun _ => ?_
    split
    · exact tell _
    · exact .pure _

end Told

variable [Broker β]

theorem partitionsOf (topics : List String) :
    Unaudited (Relay.partitionsOf topics : EStateM _ (Relay (Audited β) ν) _)
      (Relay.partitionsOf topics) := by
  induction topics with
  | nil => exact .pure []
  | cons topic topics ih => exact .bind (ask _) fun ps => .bind ih fun qs => .pure _

theorem flush (forced : Bool) :
    Unaudited (Relay.flush forced : EStateM _ (Relay (Audited β) ν) _) (Relay.flush forced) := by
  rintro r _ rfl
  simp only [Relay.flush, bind_apply, get_apply, plain_desk]
  cases r.desk.mode with
  | anonymous catchUp => exact .ok _ rfl
  | grouped batch =>
    have hflush := Audited.flush_noting Broker.commit r.broker batch forced r.now
    have hcommit : (Broker.commit : Committer (Audited β)) = Audited.noting Broker.commit := rfl
    simp only [plain_broker, plain_now, hcommit, ← hflush]
    generalize batch.flush (Audited.noting Broker.commit) forced r.now r.broker = noted
    obtain ⟨outcome, batch, a⟩ := noted
    cases outcome with
    | idle => exact .ok _ rfl
    | committed => exact .ok _ rfl
    | failed e => exact .error _ rfl

theorem stop : Unaudited (Relay.stop : EStateM _ (Relay (Audited β) ν) _) Relay.stop :=
  .bind (flush true) fun _ => .bind (ask _) fun _ => modify fun _ => rfl

theorem balance : Unaudited (Relay.balance : EStateM _ (Relay (Audited β) ν) _) Relay.balance := by
  rw [balance_eq, balance_eq]
  refine .bind (ask _) fun ps => .get_bind fun h => ?_
  obtain rfl := h
  refine .bind (modify fun _ => rfl) fun _ => ?_
  refine .bind (askFor _ _) fun _ => .bind (askFor _ _) fun _ => ?_
  rw [notePaused, notePaused, plain_desk]
  split
  · exact .pure _
  · exact measure _

variable [Notifier ν]

theorem startAnonymous :
    Unaudited (Relay.startAnonymous : EStateM _ (Relay (Audited β) ν) _) Relay.startAnonymous := by
  refine .get_bind fun h => ?_
  obtain rfl := h
  refine .bind (partitionsOf _) fun ps => .bind (ask _) fun _ => .bind (ask _) fun ends => ?_
  refine .bind (tell _) fun _ => .bind (modify fun _ => rfl) fun _ => ?_
  split
  · exact .bind (tell _) fun _ => modify fun _ => rfl
  · exact modify fun _ => rfl

theorem start : Unaudited (Relay.start : EStateM _ (Relay (Audited β) ν) _) Relay.start := by
  refine .get_bind fun h => ?_
  obtain rfl := h
  rw [plain_desk]
  split
  · exact ask _
  · exact startAnonymous

theorem reportCommitted :
    Unaudited (Relay.reportCommitted : EStateM _ (Relay (Audited β) ν) _) Relay.reportCommitted :=
  .bind (ask _) fun _ => .bind (ask _) fun _ => tell _

theorem obey (command : Command) :
    Unaudited (Relay.obey command : EStateM _ (Relay (Audited β) ν) _) (Relay.obey command) := by
  refine .bind (measure _) fun _ => ?_
  cases command with
  | ack position => exact .bind (acknowledge position) fun _ => .pure _
  | committedOffsets => exact .bind reportCommitted fun _ => .pure _
  | stop => exact .bind stop fun _ => .pure _
  | unrecognized raw => exact .throw _

theorem obeyAll (commands : List Command) :
    Unaudited (Relay.obeyAll commands : EStateM _ (Relay (Audited β) ν) _)
      (Relay.obeyAll commands) := by
  induction commands with
  | nil => exact .pure _
  | cons command commands ih =>
    refine .bind (obey command) fun flow => ?_
    cases flow with
    | stop => exact .pure _
    | goOn => exact ih

theorem announce :
    Unaudited (Relay.announce : EStateM _ (Relay (Audited β) ν) _) Relay.announce := by
  refine .get_bind fun h => ?_
  obtain rfl := h
  rw [plain_phase]
  split
  · refine .bind (ask _) fun ps => ?_
    split
    · exact .pure _
    · exact .bind (tell _) fun _ => modify fun _ => rfl
  · exact .pure _

variable [OnlyTells β]

theorem poll : Unaudited (Relay.poll : EStateM _ (Relay (Audited β) ν) _) Relay.poll := by
  rintro r _ rfl
  have hstart : Beside (fun (s : Desk ν × List Offsets) d => s.1 = d)
      (r.broker.broker, r.desk, r.broker.asked) (r.broker.broker, r.desk) := ⟨rfl, rfl⟩
  have hpoll := OnlyTells.poll_alike (l := Audited.inner (Desk.listener (ν := ν)))
    (m := Desk.listener) rfl listener r.pollTimeout hstart
  have hnoted : Broker.poll r.pollTimeout Desk.listener (r.broker, r.desk) =
      Audited.poll r.pollTimeout Desk.listener (r.broker, r.desk) := rfl
  rw [Relay.poll, Relay.poll, hnoted, Audited.poll, plain_pollTimeout, plain_broker, plain_desk]
  generalize Broker.poll r.pollTimeout (Audited.inner Desk.listener)
    (r.broker.broker, r.desk, r.broker.asked) = noted,
    Broker.poll r.pollTimeout Desk.listener (r.broker.broker, r.desk) = polled at hpoll
  cases hpoll with
  | @ok rs x y h =>
    obtain ⟨b, d, asked⟩ := x
    obtain ⟨c, e⟩ := y
    obtain ⟨rfl, rfl⟩ : b = c ∧ d = e := h
    exact .ok rs rfl
  | @error e x y h =>
    obtain ⟨b, d, asked⟩ := x
    obtain ⟨c, e⟩ := y
    obtain ⟨rfl, rfl⟩ : b = c ∧ d = e := h
    exact .error _ rfl

theorem turn : Unaudited (Relay.turn : EStateM _ (Relay (Audited β) ν) _) Relay.turn := by
  refine .get_bind fun h => ?_
  obtain rfl := h
  refine .bind (modify fun _ => rfl) fun _ => .bind (obeyAll _) fun flow => ?_
  cases flow with
  | stop => exact .pure _
  | goOn =>
    refine .bind balance fun _ => .bind (flush false) fun _ => .bind poll fun records => ?_
    exact .bind announce fun _ => .bind (deliver records) fun _ => .pure _

end Unaudited

variable [Broker β] [OnlyTells β] [Notifier ν]

/-- Turns of an audited relay are the turns of the relay without its audit. -/
theorem turns_plain (ts : List Turn) (r : Relay (Audited β) ν) :
    turns ts r.plain = Prod.map id plain (turns ts r) := by
  induction ts generalizing r with
  | nil => rfl
  | cons t ts ih =>
    have hturn := Unaudited.turn (s := r.await t) rfl
    have hawait : r.plain.await t = (r.await t).plain := rfl
    rw [turns, turns, hawait]
    generalize turn (r.await t) = audited, turn (r.await t).plain = plainly at hturn
    cases hturn with
    | @ok flow s u h =>
      obtain rfl := h
      cases flow with
      | goOn => exact ih s
      | stop => rfl
    | @error e s u h =>
      obtain rfl := h
      cases e <;> rfl

/-- Apart from the notes an audited run is the run over the broker itself. -/
theorem run_plain (ts : List Turn) (r : Relay (Audited β) ν) :
    run ts r.plain = Prod.map id plain (run ts r) := by
  have hsettle : ∀ ended : Ending × Relay (Audited β) ν,
      settle (Prod.map id plain ended) = Prod.map id plain (settle ended) := by
    rintro ⟨ending, s⟩
    cases ending <;> rfl
  have hstart := Unaudited.start (s := r) rfl
  rw [run, run]
  generalize start r = audited, start r.plain = plainly at hstart
  cases hstart with
  | @ok u s v h =>
    obtain rfl := h
    simp only [resume, turns_plain, hsettle]
  | @error e s v h =>
    obtain rfl := h
    exact hsettle (e.ending, s)

end Relay

end AckRelay
