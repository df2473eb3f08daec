import AckRelay.Proofs.Relay.Ownership
import AckRelay.Proofs.Relay.Powers

/-!
What a host learns that only reads the notifications of a member of a group: which partitions are
assigned at every point, when the group consumes, and all records in order. The stream and the
broker are kept by different parts of the relay, and here they are found to agree after every moment
of its life (`agrees_of_trail`).
-/

namespace AckRelay

namespace Notification

def reassigns (held : List Partition) : Notification → List Partition
  | .assigned ps => held ++ ps
  | .unassigned ps => held.filter (· ∉ ps)
  | .record _ | .consuming | .caughtUp | .committed _ => held

def record? : Notification → Option Record
  | .record r => some r
  | .consuming | .caughtUp | .assigned _ | .unassigned _ | .committed _ => none

end Notification

/-- The partitions that a host takes for assigned after all that it has heard. -/
def heldBy (ns : List Notification) : List Partition := ns.foldl Notification.reassigns []

def recordsOf (ns : List Notification) : List Record := ns.filterMap Notification.record?

section Stream

variable {ms ns : List Notification}

theorem heldBy_append (ms ns : List Notification) :
    heldBy (ms ++ ns) = ns.foldl Notification.reassigns (heldBy ms) :=
  List.foldl_append

/-- A host that hears nothing of an assignment takes the same partitions for assigned. -/
theorem foldl_reassigns_of_kinds {held : List Partition}
    (h : ∀ n ∈ ns, n.kind ≠ .assigned ∧ n.kind ≠ .unassigned) :
    ns.foldl Notification.reassigns held = held := by
  induction ns with
  | nil => rfl
  | cons n ns ih =>
    have hn : Notification.reassigns held n = held := by
      cases n with
      | assigned ps => exact absurd rfl (h _ List.mem_cons_self).1
      | unassigned ps => exact absurd rfl (h _ List.mem_cons_self).2
      | record r => rfl
      | consuming => rfl
      | caughtUp => rfl
      | committed offsets => rfl
    rw [List.foldl_cons, hn]
    exact ih fun k hk => h k (List.mem_cons_of_mem n hk)

theorem recordsOf_append (ms ns : List Notification) :
    recordsOf (ms ++ ns) = recordsOf ms ++ recordsOf ns :=
  List.filterMap_append

theorem recordsOf_of_kinds (h : ∀ n ∈ ns, n.kind ≠ .record) : recordsOf ns = [] := by
  apply List.filterMap_eq_nil_iff.2
  intro n hn
  cases n with
  | record r => exact absurd rfl (h _ hn)
  | consuming => rfl
  | caughtUp => rfl
  | assigned ps => rfl
  | unassigned ps => rfl
  | committed offsets => rfl

theorem recordsOf_map (rs : List Record) : recordsOf (rs.map .record) = rs := by
  induction rs with
  | nil => rfl
  | cons r rs ih => exact congrArg (r :: ·) ih

theorem kind_of_records {n : Notification} {rs : List Record} (h : n ∈ rs.map .record) :
    n.kind = .record := by
  obtain ⟨r, -, rfl⟩ := List.mem_map.1 h
  rfl

theorem consuming_of_count (h : ns.count .consuming = 1) : .consuming ∈ ns :=
  List.one_le_count_iff.1 h.ge

def RecordsInPlace (ns : List Notification) : Prop :=
  ∀ front record, front ++ [.record record] <+: ns →
    record.partition ∈ heldBy front ∧ .consuming ∈ front

theorem recordsInPlace_append (h : RecordsInPlace ms)
    (hmore : ∀ front record, front ++ [.record record] <+: ns →
      record.partition ∈ heldBy (ms ++ front) ∧ .consuming ∈ ms ++ front) :
    RecordsInPlace (ms ++ ns) := by
  rintro front record ⟨rest, heq⟩
  rw [List.append_assoc, List.singleton_append] at heq
  rcases List.append_eq_append_iff.1 heq with ⟨back, rfl, hback⟩ | ⟨back, rfl, hback⟩
  · cases back with
    | nil =>
      have hfirst := hmore [] record ⟨rest, by simpa using hback⟩
      simpa using hfirst
    | cons n back =>
      obtain ⟨rfl, -⟩ := List.cons.inj hback
      exact h front record ⟨back, by simp⟩
  · exact hmore back record ⟨rest, by simp [hback]⟩

/-- Nothing is out of place among notifications without records. -/
theorem recordsInPlace_append_of_kinds (h : RecordsInPlace ms)
    (hkinds : ∀ n ∈ ns, n.kind ≠ .record) :
    RecordsInPlace (ms ++ ns) := by
  refine recordsInPlace_append h fun front record hfront => ?_
  have hmem : .record record ∈ ns := hfront.subset (by simp)
  exact absurd rfl (hkinds _ hmem)

end Stream

namespace Relay

section Listening

variable {r s : Relay ScriptedBroker (Transcript Host)}

structure Open (r : Relay ScriptedBroker (Transcript Host)) : Prop where
  listening : r.desk.notifier.through = .listening
  answering : Operation.assignment ∉ r.broker.faults

theorem emit_of_listening {t : Transcript Host} (h : t.through = .listening) (n : Notification) :
    Notifier.emit n t = .ok () { t with log := n :: t.log } := by
  obtain ⟨through, log⟩ := t
  cases h
  rfl

/-- A host that listens is told. -/
theorem tell_of_listening (h : r.desk.notifier.through = .listening) (n : Notification) :
    tell n r = .ok ()
      { r with
        desk :=
          { r.desk with
            notifier := { r.desk.notifier with log := n :: r.desk.notifier.log } } } := by
  rw [tell_apply, emit_of_listening h]

theorem ask_assignment (h : Operation.assignment ∉ r.broker.faults) :
    ask Broker.assignment r =
      .ok r.broker.assignment { r with broker := r.broker.noted .assignment } := by
  have hsound : r.broker.faulty .assignment = false := decide_eq_false h
  have hnote := ScriptedBroker.note_of_sound hsound
  have hop : (Broker.assignment : EStateM BrokerError ScriptedBroker _) r.broker =
      .ok r.broker.assignment (r.broker.noted .assignment) := by
    show (do ScriptedBroker.note .assignment; return (← get).assignment) r.broker = _
    rw [bind_apply, hnote]
    rfl
  rw [ask_apply, hop]

structure Told (ns : List Notification) (r s : Relay ScriptedBroker (Transcript Host)) : Prop where
  through : s.desk.notifier.through = r.desk.notifier.through
  sent : s.desk.notifier.sent = r.desk.notifier.sent ++ ns
  assignment : s.broker.assignment = r.broker.assignment

namespace Told

variable {t : Relay ScriptedBroker (Transcript Host)} {ms ns : List Notification}

theorem refl (r : Relay ScriptedBroker (Transcript Host)) : Told [] r r :=
  ⟨rfl, (List.append_nil _).symm, rfl⟩

theorem trans (hs : Told ms r s) (ht : Told ns s t) : Told (ms ++ ns) r t := by
  refine ⟨ht.through.trans hs.through, ?_, ht.assignment.trans hs.assignment⟩
  rw [ht.sent, hs.sent, List.append_assoc]

theorem of_tell (h : r.desk.notifier.through = .listening) {n : Notification} :
    ∃ s, tell n r = .ok () s ∧ Told [n] r s ∧ s.phase = r.phase := by
  refine ⟨_, tell_of_listening h n, ⟨rfl, ?_, rfl⟩, rfl⟩
  exact List.reverse_cons

end Told

def announcement (r : Relay ScriptedBroker (Transcript Host)) : List Notification :=
  if r.phase = .starting ∧ r.broker.assignment ≠ [] then [.consuming] else []

theorem announce_of_open (h : Open r) :
    ∃ s, announce r = .ok () s ∧ Told r.announcement r s ∧
      (s.phase = .starting ↔ r.phase = .starting ∧ r.broker.assignment = []) := by
  simp only [announce, bind_apply, get_apply]
  by_cases hphase : r.phase = .starting
  · rw [if_pos hphase, bind_apply, ask_assignment h.answering]
    simp only
    by_cases hps : r.broker.assignment = []
    · rw [if_pos hps]
      refine ⟨_, rfl, ⟨rfl, ?_, rfl⟩, ?_⟩
      · rw [announcement, if_neg fun hboth => hboth.2 hps, List.append_nil]
      · exact iff_of_true hphase ⟨hphase, hps⟩
    · rw [if_neg hps, bind_apply]
      have hlistening : ({ r with broker := r.broker.noted .assignment } :
          Relay ScriptedBroker (Transcript Host)).desk.notifier.through = .listening := h.listening
      obtain ⟨s, htell, htold, -⟩ := Told.of_tell hlistening (n := .consuming)
      rw [htell]
      refine ⟨_, rfl, ⟨htold.through, ?_, htold.assignment⟩, ?_⟩
      · rw [announcement, if_pos ⟨hphase, hps⟩]
        exact htold.sent
      · exact iff_of_false (fun hs => by cases hs) fun hboth => hps hboth.2
  · rw [if_neg hphase]
    refine ⟨r, rfl, ⟨rfl, ?_, rfl⟩, ?_⟩
    · rw [announcement, if_neg fun hboth => hphase hboth.1, List.append_nil]
    · exact iff_of_false hphase fun hboth => hphase hboth.1

/-- A host that listens gets all of the records, or the relay dies of one of them. -/
theorem deliverAll_of_listening (h : r.desk.notifier.through = .listening) (rs : List Record) :
    ∃ handed s, handed <+: rs ∧ Told (handed.map .record) r s ∧ s.phase = r.phase ∧
      (deliverAll rs r = .ok () s ∧ handed = rs ∨ deliverAll rs r = .error .crashed s) := by
  induction rs generalizing r with
  | nil => exact ⟨[], r, List.prefix_rfl, .refl r, rfl, Or.inl ⟨rfl, rfl⟩⟩
  | cons record rs ih =>
    obtain ⟨s, htell, htold, hphase⟩ := Told.of_tell h (n := .record record)
    simp only [deliverAll, bind_apply, htell, track_apply]
    cases hflow : s.desk.flow.deliver? record.partition record.size with
    | none =>
      exact ⟨[record], s, (List.prefix_cons_inj record).2 List.nil_prefix, htold, hphase,
        Or.inr rfl⟩
    | some flow =>
      have hlistening : (s.setFlow flow).desk.notifier.through = .listening :=
        htold.through.trans h
      obtain ⟨handed, t, hprefix, hrest, hphase', hend⟩ := ih hlistening
      refine ⟨record :: handed, t, (List.prefix_cons_inj record).2 hprefix,
        htold.trans ⟨hrest.through, hrest.sent, hrest.assignment⟩, hphase'.trans hphase, ?_⟩
      exact hend.imp (fun hall => ⟨hall.1, congrArg (record :: ·) hall.2⟩) id

theorem deliver_of_listening (h : r.desk.notifier.through = .listening) (rs : List Record) :
    ∃ handed s, handed <+: rs ∧ Told (handed.map .record) r s ∧ s.phase = r.phase ∧
      (deliver rs r = .ok () s ∧ handed = rs ∨ deliver rs r = .error .crashed s) := by
  rw [deliver]
  by_cases hrs : rs = []
  · subst hrs
    exact ⟨[], r, List.prefix_rfl, .refl r, rfl, Or.inl ⟨rfl, rfl⟩⟩
  · simp only [if_neg hrs, bind_apply, measure_apply]
    obtain ⟨handed, s, hprefix, htold, hphase, hall | hcrash⟩ := deliverAll_of_listening
      (r := { r with desk := { r.desk with
        metrics := { r.desk.metrics with batches := rs.length :: r.desk.metrics.batches } } }) h rs
    · refine ⟨handed, { s with desk := { s.desk with
        metrics := s.desk.metrics.add .recordsDelivered rs.length } }, hprefix,
        ⟨htold.through, htold.sent, htold.assignment⟩, hphase, Or.inl ⟨?_, hall.2⟩⟩
      rw [hall.1]
    · refine ⟨handed, s, hprefix, ⟨htold.through, htold.sent, htold.assignment⟩, hphase,
        Or.inr ?_⟩
      rw [hcrash]

theorem onRebalance_of_listening (h : r.desk.notifier.through = .listening) (change : Rebalance)
    (b : ScriptedBroker) :
    ∃ x, Desk.onRebalance ScriptedBroker.handOver change (b, r.desk) = .ok () x := by
  by_cases hempty : change.partitions = []
  · exact ⟨_, Desk.onRebalance_of_empty hempty⟩
  · obtain ⟨n, -, ho⟩ := Desk.onRebalance_of_some hempty (b := b) (d := r.desk)
    have hsettled := Desk.settled_adjusted change b (r.desk.count (.rebalances change.kind))
    have hlistening : (Desk.adjusted change b
        (r.desk.count (.rebalances change.kind))).2.notifier.through = .listening := by
      rw [hsettled.notifier]
      exact h
    rw [Desk.tell, emit_of_listening hlistening] at ho
    exact ⟨_, ho⟩

/-- A poll that fails has told the host nothing. -/
theorem told_of_failed_poll (h : r.desk.notifier.through = .listening) {e : Halt}
    (hp : poll r = .error e s) : Told [] r s := by
  cases hchange : r.broker.change? with
  | none =>
    rcases ScriptedBroker.poll_of_records r.pollTimeout Desk.listener r.desk hchange with
      ho | ⟨e', script, ho⟩
    · cases (poll_of_ok ho).symm.trans hp
    · cases (poll_of_error ho).symm.trans hp
      exact ⟨rfl, (List.append_nil _).symm, rfl⟩
  | some change =>
    obtain ⟨x, ho⟩ := onRebalance_of_listening h change (r.broker.polled r.pollTimeout)
    have hpoll := poll_with_change hchange
    rw [ho] at hpoll
    cases hpoll.symm.trans hp

theorem phase_of_poll {rs : List Record} (hp : poll r = .ok rs s) : s.phase = r.phase := by
  rw [poll] at hp
  split at hp
  · cases hp
    rfl
  · cases hp

structure Handed (handed : List Record) (r s : Relay ScriptedBroker (Transcript Host)) : Prop where
  polled : ∃ t, poll r = .ok r.broker.arriving t
  through : s.desk.notifier.through = r.desk.notifier.through
  assignment : s.broker.assignment =
    r.broker.assignment.filter (· ∉ r.broker.surrendered) ++ r.broker.granted
  sent : s.desk.notifier.sent = r.desk.notifier.sent ++ (r.broker.change?.elim [] Rebalance.news ++
    ((if r.phase = .starting ∧ s.broker.assignment ≠ [] then [.consuming] else []) ++
      handed.map .record))
  handed : handed <+: r.broker.arriving
  phase : s.phase = .starting ↔ r.phase = .starting ∧ s.broker.assignment = []

theorem receive_of_open (h : Open r) :
    (∃ e s, perform .receive r = .error e s ∧ poll r = .error e s ∧ Told [] r s) ∨
      ∃ handed s, Handed handed r s ∧
        (perform .receive r = .ok .goOn s ∧ handed = r.broker.arriving ∨
          perform .receive r = .error .crashed s) := by
  rcases poll_cases r with ⟨t, hp, hpolled, -⟩ | ⟨e, s, hp, -⟩
  · right
    have hwithin := within_poll.ok hp
    have hthrough := hwithin.told.through
    have hphase := phase_of_poll hp
    have hopen : Open t := by
      refine ⟨hthrough.trans h.listening, ?_⟩
      rw [hwithin.faults (by decide)]
      exact h.answering
    obtain ⟨u, hannounce, hu, huphase⟩ := announce_of_open hopen
    obtain ⟨handed, s, hprefix, hs, hsphase, hend⟩ :=
      deliver_of_listening (hu.through.trans hopen.listening) r.broker.arriving
    have hassignment : s.broker.assignment = t.broker.assignment :=
      hs.assignment.trans hu.assignment
    refine ⟨handed, s, ⟨⟨t, hp⟩, hs.through.trans (hu.through.trans hthrough),
      hassignment.trans hpolled.assignment, ?_, hprefix, ?_⟩, ?_⟩
    · rw [hs.sent, hu.sent, hpolled.told.sent, announcement, hassignment, hphase]
      simp only [List.append_assoc]
    · rw [hsphase, huphase, hphase, hassignment]
    · simp only [perform, receive, bind_apply, hp, hannounce]
      rcases hend with ⟨hdeliver, hhanded⟩ | hcrash
      · exact Or.inl ⟨by rw [hdeliver]; rfl, hhanded⟩
      · exact Or.inr (by rw [hcrash])
  · left
    refine ⟨e, s, ?_, hp, told_of_failed_poll h.listening hp⟩
    rw [perform, receive]
    simp only [bind_apply, hp]

end Listening

end Relay

def Moment.polled {ν : Type} [Notifier ν] (m : Moment ν) : List Record :=
  match m.act with
  | .receive =>
    match Relay.poll m.before with
    | .ok rs _ => rs
    | .error _ _ => []
  | .start | .await _ | .obey _ | .balance | .flush => []

namespace Relay

section Life

variable {past : List (Moment (Transcript Host))} {m n : Moment (Transcript Host)}
  {r s : Relay ScriptedBroker (Transcript Host)} {rs handed : List Record}

def Engaged (past : List (Moment (Transcript Host))) : Prop :=
  ∃ k ∈ past, k.act = .receive ∧ k.after.broker.assignment ≠ []

structure Agrees (rs : List Record) (past : List (Moment (Transcript Host)))
    (r : Relay ScriptedBroker (Transcript Host)) : Prop where
  listening : r.desk.notifier.through = .listening
  held : heldBy r.desk.notifier.sent = r.broker.assignment
  records : recordsOf r.desk.notifier.sent = rs
  inPlace : RecordsInPlace r.desk.notifier.sent
  engaged : Engaged past → r.desk.notifier.sent.count .consuming = 1
  idle : ¬ Engaged past → r.desk.notifier.sent.count .consuming = 0 ∧ r.broker.assignment = []

theorem engaged_append : Engaged (past ++ [m]) ↔
    Engaged past ∨ m.act = .receive ∧ m.after.broker.assignment ≠ [] := by
  simp only [Engaged, List.mem_append, List.mem_singleton]
  constructor
  · rintro ⟨k, hk | rfl, hboth⟩
    · exact Or.inl ⟨k, hk, hboth⟩
    · exact Or.inr hboth
  · rintro (⟨k, hk, hboth⟩ | hboth)
    · exact ⟨k, Or.inl hk, hboth⟩
    · exact ⟨m, Or.inr rfl, hboth⟩

theorem polled_of_other (h : m.act ≠ .receive) : m.polled = [] := by
  rw [Moment.polled]
  split
  · next hact => exact absurd hact h
  all_goals rfl

/-- A member of a group tells the host only stored positions, but for its receipts. -/
theorem told_of_other (hgrouped : m.before.isGrouped = true) (h : m.act ≠ .receive) :
    ∃ ns, Told ns m.before m.after ∧ ∀ n ∈ ns, n.kind = .committed := by
  have hwithin := within_perform m.act m.before
  rw [hgrouped] at hwithin
  have hkinds : ∀ kind, .tell kind ∈ m.act.powers true → kind = .committed := by
    intro kind hkind
    cases hact : m.act with
    | receive => exact absurd hact h
    | obey c => rw [hact] at hkind; cases c <;> simp_all [Act.powers]
    | start => rw [hact] at hkind; simp [Act.powers] at hkind
    | await t => rw [hact] at hkind; simp [Act.powers] at hkind
    | balance => rw [hact] at hkind; simp [Act.powers] at hkind
    | flush => rw [hact] at hkind; simp [Act.powers] at hkind
  have hassign : .reassign ∉ m.act.powers true := by
    rw [Act.reassign_mem_powers]
    rintro (⟨-, hfalse⟩ | hact)
    · cases hfalse
    · exact h hact
  obtain ⟨ns, hns, hall⟩ := hwithin.told.sent
  exact ⟨ns, ⟨hwithin.told.through, hns, hwithin.assignment hassign⟩,
    fun n hn => hkinds n.kind (hall n hn)⟩

/-- The stream goes on agreeing if the host hears of nothing that matters. -/
theorem Agrees.of_told (h : Agrees rs past m.before) {ns : List Notification}
    (htold : Told ns m.before m.after) (hkinds : ∀ n ∈ ns, n.kind = .committed) :
    Agrees rs (past ++ [m]) m.after := by
  have hcount : m.after.desk.notifier.sent.count .consuming =
      m.before.desk.notifier.sent.count .consuming := by
    have hnone : ns.count .consuming = 0 := List.count_eq_zero_of_not_mem fun hmem => by
      cases hkinds _ hmem
    rw [htold.sent, List.count_append, hnone]
    rfl
  have hengaged : Engaged (past ++ [m]) ↔ Engaged past := by
    rw [engaged_append, htold.assignment]
    refine ⟨fun hor => hor.elim id fun hboth => ?_, Or.inl⟩
    exact Classical.byContradiction fun hnot => hboth.2 (h.idle hnot).2
  constructor
  · exact htold.through.trans h.listening
  · rw [htold.sent, heldBy_append, h.held, htold.assignment]
    exact foldl_reassigns_of_kinds fun n hn => by rw [hkinds n hn]; decide
  · rw [htold.sent, recordsOf_append, h.records,
      recordsOf_of_kinds fun n hn => by rw [hkinds n hn]; decide, List.append_nil]
  · rw [htold.sent]
    exact recordsInPlace_append_of_kinds h.inPlace fun n hn => by rw [hkinds n hn]; decide
  · rw [hengaged, hcount]
    exact h.engaged
  · rw [hengaged, hcount, htold.assignment]
    exact h.idle

def Poised (past : List (Moment (Transcript Host)))
    (r : Relay ScriptedBroker (Transcript Host)) : Prop :=
  r.phase = .starting ↔ ¬ Engaged past

/-- The news of a rebalance tell how the broker changes its assignment. -/
theorem foldl_news (r : Relay ScriptedBroker (Transcript Host)) :
    (r.broker.change?.elim [] Rebalance.news).foldl Notification.reassigns r.broker.assignment =
      r.broker.assignment.filter (· ∉ r.broker.surrendered) ++ r.broker.granted := by
  have hkept : r.broker.assignment.filter (· ∉ ([] : List Partition)) = r.broker.assignment :=
    ScriptedBroker.filter_not_mem_nil _
  have hreleased : ∀ ps : List Partition,
      (if ps = [] then [] else [Notification.unassigned ps]).foldl Notification.reassigns
        r.broker.assignment = r.broker.assignment.filter (· ∉ ps) ++ [] := by
    intro ps
    rw [List.append_nil]
    split
    · next hps =>
      rw [hps, hkept]
      rfl
    · rfl
  rw [ScriptedBroker.surrendered, ScriptedBroker.granted]
  cases r.broker.change? with
  | none => exact hkept.symm.trans (List.append_nil _).symm
  | some change =>
    cases change with
    | revoked ps => exact hreleased ps
    | lost ps => exact hreleased ps
    | assigned ps =>
      show (if ps = [] then [] else [Notification.assigned ps]).foldl Notification.reassigns
        r.broker.assignment = r.broker.assignment.filter (· ∉ ([] : List Partition)) ++ ps
      rw [hkept]
      split
      · next hps =>
        rw [hps]
        exact (List.append_nil _).symm
      · rfl

/-- What a receipt adds to the stream before the records is about no record. -/
theorem kind_of_preface {change? : Option Rebalance} {cond : Prop} [Decidable cond]
    {n : Notification}
    (h : n ∈ change?.elim [] Rebalance.news ++ (if cond then [.consuming] else [])) :
    n.kind ≠ .record := by
  rcases List.mem_append.1 h with hnews | hconsuming
  · cases change? with
    | none => cases hnews
    | some change => rcases kind_of_news hnews with hk | hk <;> rw [hk] <;> decide
  · split at hconsuming
    · rw [List.mem_singleton.1 hconsuming]
      decide
    · cases hconsuming

theorem count_news (change? : Option Rebalance) :
    (change?.elim [] Rebalance.news).count .consuming = 0 := by
  apply List.count_eq_zero_of_not_mem
  intro hmem
  cases change? with
  | none => cases hmem
  | some change => rcases kind_of_news hmem with hk | hk <;> cases hk

/-- The records of a poll come in place: their partitions are assigned already, so the group
consumes already, and nothing else is told with them. -/
theorem inPlace_of_handed (h : Agrees rs past m.before) (hpoised : Poised past m.before)
    (hbrings : ∀ record ∈ m.before.broker.arriving,
      record.partition ∈ m.before.broker.assignment) (hh : Handed handed m.before m.after) :
    RecordsInPlace m.after.desk.notifier.sent := by
  have howned : ∀ record ∈ handed, record.partition ∈ m.before.broker.assignment :=
    fun record hrecord => hbrings record (hh.handed.subset hrecord)
  rw [hh.sent]
  cases hhanded : handed with
  | nil =>
    rw [List.map_nil, List.append_nil]
    exact recordsInPlace_append_of_kinds h.inPlace fun n hn => kind_of_preface hn
  | cons first rest =>
    have hchange : m.before.broker.change? = none := by
      cases hc : m.before.broker.change? with
      | none => rfl
      | some change =>
        have hnone := hh.handed
        rw [ScriptedBroker.arriving_of_change hc, List.prefix_nil, hhanded] at hnone
        cases hnone
    have hfirst : first.partition ∈ m.before.broker.assignment :=
      howned first (hhanded ▸ List.mem_cons_self)
    have hengaged : Engaged past := by
      apply Classical.byContradiction
      intro hnot
      rw [(h.idle hnot).2] at hfirst
      cases hfirst
    have hphase : m.before.phase ≠ .starting := fun hstarting => hpoised.1 hstarting hengaged
    rw [hchange, if_neg fun hboth => hphase hboth.1, ← hhanded]
    refine recordsInPlace_append h.inPlace fun front record hfront => ⟨?_, ?_⟩
    · have hkinds : ∀ n ∈ front, n.kind ≠ .assigned ∧ n.kind ≠ .unassigned := by
        intro n hn
        have hmem : n ∈ handed.map Notification.record :=
          hfront.subset (List.mem_append_left _ hn)
        rw [kind_of_records hmem]
        decide
      have hmem : .record record ∈ handed.map Notification.record :=
        hfront.subset (by simp)
      obtain ⟨found, hfound, heq⟩ := List.mem_map.1 hmem
      cases heq
      rw [heldBy_append, foldl_reassigns_of_kinds hkinds, h.held]
      exact howned record hfound
    · exact List.mem_append_left _ (consuming_of_count (h.engaged hengaged))

theorem count_of_handed (hh : Handed handed m.before m.after) :
    m.after.desk.notifier.sent.count .consuming = m.before.desk.notifier.sent.count .consuming +
      if m.before.phase = .starting ∧ m.after.broker.assignment ≠ [] then 1 else 0 := by
  have hrecords : (handed.map Notification.record).count .consuming = 0 := by
    apply List.count_eq_zero_of_not_mem
    intro hmem
    cases kind_of_records hmem
  rw [hh.sent, List.count_append, List.count_append, List.count_append, count_news, hrecords]
  split <;> simp

theorem Agrees.of_handed (h : Agrees rs past m.before) (hpoised : Poised past m.before)
    (hact : m.act = .receive) (hbrings : m.BringsOwned) (hh : Handed handed m.before m.after) :
    Agrees (rs ++ handed) (past ++ [m]) m.after ∧ Poised (past ++ [m]) m.after := by
  have hengaged : Engaged (past ++ [m]) ↔ Engaged past ∨ m.after.broker.assignment ≠ [] := by
    rw [engaged_append]
    simp only [hact, true_and]
  have hcount := count_of_handed hh
  refine ⟨⟨hh.through.trans h.listening, ?_, ?_, inPlace_of_handed h hpoised (hbrings hact) hh,
    ?_, ?_⟩, ?_⟩
  · have hrest : ∀ n ∈ (if m.before.phase = .starting ∧ m.after.broker.assignment ≠ [] then
        [Notification.consuming] else []) ++ handed.map .record,
        n.kind ≠ .assigned ∧ n.kind ≠ .unassigned := by
      intro n hn
      rcases List.mem_append.1 hn with hconsuming | hrecord
      · split at hconsuming
        · rw [List.mem_singleton.1 hconsuming]
          decide
        · cases hconsuming
      · rw [kind_of_records hrecord]
        decide
    rw [hh.sent, heldBy_append, h.held, List.foldl_append, foldl_news,
      foldl_reassigns_of_kinds hrest, hh.assignment]
  · rw [hh.sent, ← List.append_assoc (m.before.broker.change?.elim [] Rebalance.news),
      recordsOf_append, recordsOf_append, recordsOf_of_kinds fun n hn => kind_of_preface hn,
      recordsOf_map, h.records, List.nil_append]
  · rw [hengaged, hcount]
    intro hor
    by_cases hbefore : Engaged past
    · have hphase : m.before.phase ≠ .starting := fun hstarting => hpoised.1 hstarting hbefore
      rw [h.engaged hbefore, if_neg fun hboth => hphase hboth.1]
    · rw [(h.idle hbefore).1, if_pos ⟨hpoised.2 hbefore, hor.resolve_left hbefore⟩]
  · rw [hengaged, hcount]
    intro hnot
    have hbefore : ¬ Engaged past := fun he => hnot (Or.inl he)
    have hempty : m.after.broker.assignment = [] :=
      Classical.byContradiction fun hne => hnot (Or.inr hne)
    rw [(h.idle hbefore).1, if_neg fun hboth => hboth.2 hempty]
    exact ⟨rfl, hempty⟩
  · have hphase : m.before.phase = .starting ↔ ¬ Engaged past := hpoised
    rw [Poised, hengaged, hh.phase, hphase, not_or, not_not]

section Trail

variable {settings : RelaySettings} {b : ScriptedBroker} {now : Nat} {ts : List Round}

abbrev attended (settings : RelaySettings) (b : ScriptedBroker) (now : Nat) :
    Relay ScriptedBroker (Transcript Host) :=
  create settings b { through := .listening } now

theorem agrees_step (hgrouped : m.before.isGrouped = true)
    (hanswers : Operation.assignment ∉ m.before.broker.faults) (hbrings : m.BringsOwned)
    (h : Agrees rs past m.before) (hpoised : Poised past m.before) :
    (∃ handed, Agrees (rs ++ handed) (past ++ [m]) m.after ∧ handed <+: m.polled ∧
        (handed = m.polled ∨ m.crashes = true)) ∧
      ∀ s, perform m.act m.before = .ok .goOn s → Poised (past ++ [m]) s := by
  by_cases hact : m.act = .receive
  · rcases receive_of_open ⟨h.listening, hanswers⟩ with
      ⟨e, s, hp, hpoll, htold⟩ | ⟨handed, s, hh, hend⟩
    · rw [← hact] at hp
      have hafter : m.after = s := endState_of_error hp
      have hpolled : m.polled = [] := by
        rw [Moment.polled, hact]
        simp only [hpoll]
      have hagrees := h.of_told (hafter ▸ htold) (fun n hn => by cases hn)
      refine ⟨⟨[], (List.append_nil rs).symm ▸ hagrees, List.nil_prefix, Or.inl hpolled.symm⟩,
        fun t ht => ?_⟩
      cases hp.symm.trans ht
    · rw [← hact] at hend
      have hafter : m.after = s :=
        hend.elim (fun hp => endState_of_ok hp.1) fun hp => endState_of_error hp
      have hpolled : m.polled = m.before.broker.arriving := by
        obtain ⟨t, ht⟩ := hh.polled
        rw [Moment.polled, hact]
        simp only [ht]
      obtain ⟨hagrees, hnext⟩ := h.of_handed hpoised hact hbrings (hafter ▸ hh)
      refine ⟨⟨handed, hagrees, hpolled ▸ hh.handed, ?_⟩, fun t ht => ?_⟩
      · rw [hpolled, Moment.crashes]
        exact hend.imp And.right fun hp => by rw [hp]
      · have ht' : m.after = t := endState_of_ok ht
        exact ht' ▸ hnext
  · obtain ⟨ns, htold, hkinds⟩ := told_of_other hgrouped hact
    have hpolled := polled_of_other hact
    have hagrees := h.of_told htold hkinds
    refine ⟨⟨[], (List.append_nil rs).symm ▸ hagrees, List.nil_prefix, Or.inl hpolled.symm⟩,
      fun t ht => ?_⟩
    have hafter : m.after = t := endState_of_ok ht
    have hwithin := within_perform m.act m.before
    have hadvance : .advance ∉ m.act.powers true := by
      rw [Act.advance_mem_powers]
      rintro (⟨-, hfalse⟩ | hstop | hreceive)
      · cases hfalse
      · have hstep := step_of_perform ht
        rw [hstop] at hstep
        cases hstep
      · exact hact hreceive
    rw [hgrouped] at hwithin
    have hphase : t.phase = m.before.phase := hafter ▸ hwithin.phase hadvance
    rw [Poised, hphase, engaged_append]
    simp only [hact, false_and, or_false]
    exact hpoised

theorem agrees_of_trail (hg : settings.group ≠ none) (hb : b.assignment = [])
    (hbrings : ∀ m ∈ trail (lifeOf ts) (attended settings b now), m.BringsOwned)
    (hanswers : ∀ m ∈ trail (lifeOf ts) (attended settings b now),
      Operation.assignment ∉ m.before.broker.faults)
    (h : past ++ [m] <+: trail (lifeOf ts) (attended settings b now)) :
    Agrees (past.flatMap Moment.polled) past m.before ∧ Poised past m.before := by
  refine trail_induction (I := fun past m =>
    Agrees (past.flatMap Moment.polled) past m.before ∧ Poised past m.before)
    (fun m hm => ?_) (fun past m n hn hm => ?_) past m h
  · rw [before_of_first hm]
    have hnever : ¬ Engaged [] := by
      rintro ⟨k, hk, -⟩
      cases hk
    refine ⟨⟨rfl, hb.symm, rfl, ?_, fun he => absurd he hnever, fun _ => ⟨rfl, hb⟩⟩,
      iff_of_true rfl hnever⟩
    rintro front record ⟨rest, hrest⟩
    have hempty : front ++ [.record record] ++ rest = [] := hrest
    simp at hempty
  · have hprefix := prefix_of_next hn
    have hmem := mem_of_past hprefix
    have hp := perform_of_next hn
    have hafter : m.after = n.before := endState_of_ok hp
    obtain ⟨⟨handed, hagrees, -, hhanded⟩, hnext⟩ :=
      agrees_step (isGrouped_of_trail hg hprefix) (hanswers m hmem) (hbrings m hmem) hm.1 hm.2
    have hall : handed = m.polled := hhanded.resolve_right fun hcrash => by
      rw [Moment.crashes, hp] at hcrash
      cases hcrash
    rw [List.flatMap_append, List.flatMap_singleton, ← hall]
    exact ⟨hafter ▸ hagrees, hnext n.before hp⟩

/-- The host hears that the group consumes in the first receipt that leaves something assigned. -/
theorem consuming_heard_iff {more : List Record} (hbefore : Agrees rs past m.before)
    (hafter : Agrees more (past ++ [m]) m.after) :
    .consuming ∈ m.heard ↔
      (m.act = .receive ∧ m.after.broker.assignment ≠ []) ∧ ¬ Engaged past := by
  have hcount : m.after.desk.notifier.sent.count .consuming =
      m.before.desk.notifier.sent.count .consuming + m.heard.count .consuming := by
    rw [(sent_after m).1, List.count_append]
  have hmem : .consuming ∈ m.heard ↔ m.heard.count .consuming ≠ 0 := by
    rw [ne_eq, List.count_eq_zero, not_not]
  rw [hmem]
  by_cases hpast : Engaged past
  · have hone := hafter.engaged (engaged_append.2 (Or.inl hpast))
    rw [hcount, hbefore.engaged hpast] at hone
    exact iff_of_false (by omega) fun hboth => hboth.2 hpast
  · rw [(hbefore.idle hpast).1, Nat.zero_add] at hcount
    by_cases hnow : m.act = .receive ∧ m.after.broker.assignment ≠ []
    · have hone := hafter.engaged (engaged_append.2 (Or.inr hnow))
      exact iff_of_true (by omega) ⟨hnow, hpast⟩
    · have hnone := hafter.idle fun he => (engaged_append.1 he).elim hpast hnow
      exact iff_of_false (by omega) fun hboth => hnow hboth.1

/-- What the host of a group hears, taken by itself, tells after every moment which partitions the
broker has assigned, and it brings every record that was polled, in order and once, unless the
program dies while it hands them over. A record comes only for a partition that the host knows to be
assigned, and after the one notification that the group consumes, which is told in the first receipt
that leaves something assigned. -/
theorem stream_tells_assignment_and_records (settings : RelaySettings) (hg : settings.group ≠ none)
    (b : ScriptedBroker) (hb : b.assignment = []) (now : Nat) (ts : List Round)
    (hbrings : ∀ m ∈ trail (lifeOf ts) (attended settings b now), m.BringsOwned)
    (hanswers : ∀ m ∈ trail (lifeOf ts) (attended settings b now),
      Operation.assignment ∉ m.before.broker.faults)
    (past : List (Moment (Transcript Host))) (m : Moment (Transcript Host))
    (h : past ++ [m] <+: trail (lifeOf ts) (attended settings b now)) :
    m.after.desk.notifier.sent = (past ++ [m]).flatMap Moment.heard ∧
      heldBy m.after.desk.notifier.sent = m.after.broker.assignment ∧
      (∀ front record, front ++ [.record record] <+: m.after.desk.notifier.sent →
        record.partition ∈ heldBy front ∧ .consuming ∈ front) ∧
      m.after.desk.notifier.sent.count .consuming ≤ 1 ∧
      (.consuming ∈ m.heard ↔ (m.act = .receive ∧ m.after.broker.assignment ≠ []) ∧
        ∀ k ∈ past, k.act = .receive → k.after.broker.assignment = []) ∧
      recordsOf m.after.desk.notifier.sent <+: (past ++ [m]).flatMap Moment.polled ∧
      (m.crashes = false →
        recordsOf m.after.desk.notifier.sent = (past ++ [m]).flatMap Moment.polled) := by
  have hmem := mem_of_past h
  obtain ⟨hbefore, hpoised⟩ := agrees_of_trail hg hb hbrings hanswers h
  obtain ⟨⟨handed, hafter, hprefix, hhanded⟩, -⟩ :=
    agrees_step (isGrouped_of_trail hg h) (hanswers m hmem) (hbrings m hmem) hbefore hpoised
  rw [List.flatMap_append, List.flatMap_append, List.flatMap_singleton, List.flatMap_singleton,
    hafter.records]
  refine ⟨?_, hafter.held, hafter.inPlace, ?_, ?_, (List.prefix_append_right_inj _).2 hprefix,
    fun hlives => by rw [hhanded.resolve_right (by rw [hlives]; exact Bool.false_ne_true)]⟩
  · rw [(sent_after m).1, sent_before h]
    rfl
  · by_cases hengaged : Engaged (past ++ [m])
    · exact (hafter.engaged hengaged).le
    · exact (hafter.idle hengaged).1.le.trans (Nat.zero_le 1)
  · rw [consuming_heard_iff hbefore hafter, Engaged]
    simp only [not_exists, not_and, not_not]

/-- A partition is assigned, brings a record, and is lost with the whole assignment after another
was added. -/
theorem stream_tells_assignment_and_records_until_loss :
    ∃ past m, past ++ [m] <+: trail (lifeOf [{}, {}, {}, {}])
        (attended
          { topics := ["t"], group := some "g", pollTimeout := 0, commitInterval := 1 }
          { script := [.rebalance (.assigned [⟨"t", 0⟩]), .records [⟨⟨"t", 0⟩, 7, 0, []⟩],
              .rebalance (.assigned [⟨"t", 1⟩]), .failed] } 0) ∧
      m.after.desk.notifier.sent = [.assigned [⟨"t", 0⟩], .consuming,
        .record ⟨⟨"t", 0⟩, 7, 0, []⟩, .assigned [⟨"t", 1⟩], .unassigned [⟨"t", 0⟩, ⟨"t", 1⟩]] ∧
      heldBy m.after.desk.notifier.sent = m.after.broker.assignment ∧
      recordsOf m.after.desk.notifier.sent = (past ++ [m]).flatMap Moment.polled := by
  refine ⟨_, _, prefix_of_get _ 16 (by decide +kernel), by decide +kernel, ?_⟩
  exact (stream_tells_assignment_and_records _ (by decide) _ rfl _ _ (by decide +kernel)
    (by decide +kernel) _ _ (prefix_of_get _ 16 (by decide +kernel))).2.imp id
      fun h => h.2.2.2.2 (by decide +kernel)

end Trail

end Life

end Relay

end AckRelay
