import AckRelay.Proofs.Relay.Powers
import AckRelay.Proofs.Text.Utf8

/-!
What the host is told when it asks for the stored positions. They are written by every commit and
read back for the partitions that are assigned at the time; here the answer is found to be what the
history of the commits says (`committed_offsets_follow_commits`).
-/

namespace AckRelay

theorem Partition.lt_iff_bytes {p q : Partition} :
    p < q ↔ Text.toUtf8 p.topic < Text.toUtf8 q.topic ∨ p.topic = q.topic ∧ p.number < q.number := by
  rw [lt_def, Text.toUtf8_lt_iff]

namespace ScriptedBroker

variable {calls : List (Offsets × Bool)} {p : Partition}

def latest? (calls : List (Offsets × Bool)) (p : Partition) : Option Int64 :=
  (calls.filterMap fun call => if call.2 then call.1.get? p else none).getLast?

theorem latest?_append (calls : List (Offsets × Bool)) (call : Offsets × Bool) (p : Partition) :
    latest? (calls ++ [call]) p =
      (if call.2 then call.1.get? p else none).or (latest? calls p) := by
  rw [latest?, List.filterMap_append]
  cases hcall : if call.2 then call.1.get? p else none with
  | none => simp [latest?, hcall]
  | some offset => simp [hcall]

/-- The position that commits have stored is one past the latest offset. -/
theorem get?_stored (calls : List (Offsets × Bool)) (positions : Offsets) (p : Partition) :
    (stored calls positions).get? p = ((latest? calls p).map (· + 1)).or (positions.get? p) := by
  -- by induction from the last commit, which counts if it was accepted and names the partition
  induction calls using List.reverseRecOn with
  | nil => rfl
  | append_singleton calls call ih =>
    have hlast : stored (calls ++ [call]) positions = storedBy (stored calls positions) call :=
      stored_append calls [call] positions
    rw [hlast, get?_storedBy, ih, latest?_append]
    cases call.2 with
    | false => rfl
    | true => cases call.1.get? p <;> rfl

def positionsOf (ps : List Partition) (b : ScriptedBroker) : Offsets :=
  PartitionMap.ofList (ps.filterMap fun p => (b.positions.get? p).map fun o => (p, o))

theorem get?_positionsOf (ps : List Partition) (b : ScriptedBroker) (p : Partition) (o : Int64) :
    (b.positionsOf ps).get? p = some o ↔ p ∈ ps ∧ b.positions.get? p = some o := by
  have hmem : ∀ q u, (q, u) ∈ ps.filterMap (fun p => (b.positions.get? p).map fun o => (p, o)) ↔
      q ∈ ps ∧ b.positions.get? q = some u := by
    intro q u
    simp only [List.mem_filterMap, Option.map_eq_some_iff, Prod.mk.injEq]
    constructor
    · rintro ⟨_, hq, _, hu, rfl, rfl⟩
      exact ⟨hq, hu⟩
    · rintro ⟨hq, hu⟩
      exact ⟨q, hq, u, hu, rfl, rfl⟩
  have hone : ∀ q u v, (q, u) ∈ ps.filterMap (fun p => (b.positions.get? p).map fun o => (p, o)) →
      (q, v) ∈ ps.filterMap (fun p => (b.positions.get? p).map fun o => (p, o)) → u = v := by
    intro q u v hu hv
    exact Option.some.inj (((hmem q u).1 hu).2.symm.trans ((hmem q v).1 hv).2)
  rw [positionsOf, PartitionMap.get?_ofList hone, hmem]

end ScriptedBroker

/-- A list of stored positions is as the commits so far have made it, for an assignment: it ascends,
by topic as bytes and then by number, and holds each assigned partition for which a commit was
accepted, one past the offset that the latest such commit gave. -/
structure Reflects (calls : List (Offsets × Bool)) (assignment : List Partition)
    (positions : List Position) : Prop where
  ascending : positions.Pairwise fun a b =>
    Text.toUtf8 a.partition.topic < Text.toUtf8 b.partition.topic ∨
      a.partition.topic = b.partition.topic ∧ a.partition.number < b.partition.number
  mem_iff : ∀ p o, ⟨p, o⟩ ∈ positions ↔
    p ∈ assignment ∧ ∃ offset, ScriptedBroker.latest? calls p = some offset ∧ o = offset + 1

namespace Relay

variable {ν : Type} [Notifier ν]

/-- What the broker has stored, and what it has noted of commits, is the work of the moments so
far. -/
theorem stored_before {as : List Act} {r : Relay ScriptedBroker ν} {past : List (Moment ν)}
    {m : Moment ν} (h : past ++ [m] <+: trail as r) :
    m.before.broker.positions =
        ScriptedBroker.stored (past.flatMap Moment.calls) r.broker.positions ∧
      m.before.broker.commitCalls = r.broker.commitCalls ++ past.flatMap Moment.calls := by
  refine trail_induction (I := fun past m => m.before.broker.positions =
        ScriptedBroker.stored (past.flatMap Moment.calls) r.broker.positions ∧
      m.before.broker.commitCalls = r.broker.commitCalls ++ past.flatMap Moment.calls)
    (fun m hm => ?_) (fun past m n hn hm => ?_) past m h
  · rw [before_of_first hm]
    exact ⟨rfl, (List.append_nil _).symm⟩
  · have hafter : m.after = n.before := endState_of_ok (perform_of_next hn)
    rw [List.flatMap_append, List.flatMap_singleton, ← hafter]
    refine ⟨?_, ?_⟩
    · rw [positions_after, hm.1, ScriptedBroker.stored_append]
    · rw [commitCalls_after, hm.2, List.append_assoc]

/-- A host is told once, or it does not take the notification and nothing is told. -/
theorem tell_cases (n : Notification) (r : Relay ScriptedBroker (Transcript ν)) :
    (∃ s, tell n r = .ok () s ∧ s.desk.notifier.sent = r.desk.notifier.sent ++ [n]) ∨
      ∃ e s, tell n r = .error e s ∧ s.desk.notifier.sent = r.desk.notifier.sent := by
  rw [tell_apply]
  simp only [Notifier.emit]
  cases Notifier.emit n r.desk.notifier.through with
  | ok u w => exact Or.inl ⟨_, rfl, List.reverse_cons⟩
  | error e w => exact Or.inr ⟨_, _, rfl, rfl⟩

/-- A question for the stored positions is answered in one notification. If the broker does not tell
them, or the host does not take them, it hears nothing. -/
theorem reportCommitted_cases (r : Relay ScriptedBroker (Transcript ν)) :
    (∃ s, reportCommitted r = .ok () s ∧ s.desk.notifier.sent = r.desk.notifier.sent ++
        [.ofOffsets (r.broker.positionsOf r.broker.assignment)]) ∨
      ∃ e s, reportCommitted r = .error e s ∧ s.desk.notifier.sent = r.desk.notifier.sent := by
  have hassignment : (Broker.assignment : EStateM BrokerError ScriptedBroker _) =
      (do ScriptedBroker.note .assignment; return (← get).assignment) := rfl
  have hcommitted : ∀ ps, (Broker.committed ps : EStateM BrokerError ScriptedBroker _) =
      (do ScriptedBroker.note (.committed ps); return (← get).positionsOf ps) := fun _ => rfl
  simp only [reportCommitted, bind_apply, ask_apply, hassignment, hcommitted]
  rcases ScriptedBroker.note_cases .assignment r.broker with hb | ⟨e, hb⟩
  · simp only [hb, get_apply, pure_apply]
    rcases ScriptedBroker.note_cases (.committed (r.broker.noted .assignment).assignment)
      (r.broker.noted .assignment) with hc | ⟨e, hc⟩
    · simp only [hc]
      exact tell_cases _ _
    · simp only [hc]
      exact Or.inr ⟨_, _, rfl, rfl⟩
  · rw [hb]
    exact Or.inr ⟨_, _, rfl, rfl⟩

/-- The host hears of stored positions when it asks for them, and then it hears those of the
partitions that are assigned. -/
theorem heard_of_report {m : Moment (Transcript ν)} (hact : m.act = .obey .committedOffsets) :
    m.succeeds = true ∧
        m.heard = [.ofOffsets (m.before.broker.positionsOf m.before.broker.assignment)] ∨
      m.succeeds = false ∧ m.heard = [] := by
  obtain ⟨r, a⟩ := m
  cases hact
  have hobey := obey_apply .committedOffsets r
  rw [bind_apply] at hobey
  rcases reportCommitted_cases (r.counting .committedOffsets) with ⟨s, hs, hsent⟩ | ⟨e, s, hs, hsent⟩
  · rw [hs] at hobey
    have hp : perform (.obey .committedOffsets) r = .ok .goOn s := hobey
    refine Or.inl ⟨by rw [Moment.succeeds, hp], heard_of_append ?_⟩
    rw [Moment.after, endState_of_ok hp]
    exact hsent
  · rw [hs] at hobey
    have hp : perform (.obey .committedOffsets) r = .error e s := hobey
    refine Or.inr ⟨by rw [Moment.succeeds, hp], heard_of_append ?_⟩
    rw [Moment.after, endState_of_error hp, List.append_nil]
    exact hsent

theorem reflects_positions {b : ScriptedBroker} {calls : List (Offsets × Bool)}
    (h : b.positions = ScriptedBroker.stored calls ∅) {offsets : List Position}
    (ho : .committed offsets = Notification.ofOffsets (b.positionsOf b.assignment)) :
    Reflects calls b.assignment offsets := by
  cases ho
  constructor
  · rw [List.pairwise_map]
    exact (b.positionsOf b.assignment).sorted.imp Partition.lt_iff_bytes.1
  · intro p o
    have hentry : ⟨p, o⟩ ∈ (b.positionsOf b.assignment).entries.map (fun e => Position.mk e.1 e.2) ↔
        (p, o) ∈ (b.positionsOf b.assignment).entries := by
      simp [List.mem_map]
    rw [hentry, PartitionMap.mem_entries_iff, ScriptedBroker.get?_positionsOf, h,
      ScriptedBroker.get?_stored, PartitionMap.get?_empty, Option.or_none, Option.map_eq_some_iff]
    simp only [eq_comm]

/-- Whatever the host hears of stored positions answers a question of its own, and is what the
commits before it have made of them, for the partitions that are assigned at that moment. Refused
commits do not show, and it makes no difference in which ownership of a partition a commit was made.
A question that the relay survives is answered. -/
theorem committed_offsets_follow_commits (settings : RelaySettings) (b : ScriptedBroker)
    (hb : b.positions = ∅) (w : Transcript ν) (now : Nat) (ts : List Round) :
    (live (lifeOf ts) (create settings b w now)).2.desk.notifier.sent =
        w.sent ++ (trail (lifeOf ts) (create settings b w now)).flatMap Moment.heard ∧
      ∀ past m, past ++ [m] <+: trail (lifeOf ts) (create settings b w now) →
        m.before.broker.commitCalls = b.commitCalls ++ past.flatMap Moment.calls ∧
          (∀ positions, .committed positions ∈ m.heard → m.act = .obey .committedOffsets ∧
            Reflects (past.flatMap Moment.calls) m.before.broker.assignment positions) ∧
          (m.act = .obey .committedOffsets → m.succeeds = true →
            ∃ positions, m.heard = [.committed positions]) := by
  refine ⟨sent_live _ _, fun past m h => ?_⟩
  obtain ⟨hpositions, hcalls⟩ := stored_before h
  refine ⟨hcalls, fun positions hheard => ?_, fun hact hok => ?_⟩
  · have hact := Act.committed_mem_powers.1 ((sent_after m).2 _ hheard)
    have hstored : m.before.broker.positions =
        ScriptedBroker.stored (past.flatMap Moment.calls) ∅ := by
      rw [hpositions]
      exact congrArg _ hb
    refine ⟨hact, ?_⟩
    rcases heard_of_report hact with ⟨-, hh⟩ | ⟨-, hh⟩
    · rw [hh, List.mem_singleton] at hheard
      exact reflects_positions hstored hheard
    · rw [hh] at hheard
      cases hheard
  · rcases heard_of_report hact with ⟨-, hh⟩ | ⟨hfails, -⟩
    · exact ⟨_, hh⟩
    · rw [hok] at hfails
      cases hfails

/-- Of two partitions one is assigned twice and committed. The commit of the other one is refused
when it is revoked, so that nothing is told of it when it comes back. -/
theorem committed_offsets_follow_commits_after_refusal :
    ∃ past m, past ++ [m] <+:
        trail (lifeOf [{}, {}, { elapsed := 1, arrivals := [.ack ⟨⟨"t", 0⟩, 7⟩] },
            { arrivals := [.ack ⟨⟨"t", 1⟩, 3⟩], refuses := some true }, {},
            { arrivals := [.committedOffsets] }])
          (create { topics := ["t"], group := some "g", pollTimeout := 0, commitInterval := 1 }
            { script := [.rebalance (.assigned [⟨"t", 1⟩, ⟨"t", 0⟩, ⟨"t", 0⟩]),
                .records [⟨⟨"t", 0⟩, 7, 0, []⟩, ⟨⟨"t", 1⟩, 3, 0, []⟩], .records [],
                .rebalance (.revoked [⟨"t", 1⟩]), .rebalance (.assigned [⟨"t", 1⟩])] }
            ({ through := .listening } : Transcript Host) 0) ∧
      m.heard = [.committed [⟨⟨"t", 0⟩, 8⟩]] ∧
        Reflects (past.flatMap Moment.calls) m.before.broker.assignment [⟨⟨"t", 0⟩, 8⟩] := by
  refine ⟨_, _, prefix_of_get _ 24 (by decide +kernel), by decide +kernel, ?_⟩
  exact (((committed_offsets_follow_commits _ _ rfl _ _ _).2 _ _
    (prefix_of_get _ 24 (by decide +kernel))).2.1 _ (by decide +kernel)).2

end Relay

end AckRelay
