import AckRelay.Proofs.Relay.Settlement

namespace AckRelay

variable {ν : Type}

/-- The records of the moment are all of partitions that the broker has assigned. -/
def Moment.BringsOwned (m : Moment ν) : Prop :=
  m.act = .receive → ∀ record ∈ m.before.broker.arriving,
    record.partition ∈ m.before.broker.assignment

instance (m : Moment ν) : Decidable m.BringsOwned :=
  inferInstanceAs (Decidable (_ → _))

/-- The broker when the commits of the moment are made. In a poll with a rebalance that is when the
listener has been told, and the assignment has not changed yet. -/
def Moment.committing [Notifier ν] (m : Moment ν) : ScriptedBroker :=
  match m.act with
  | .receive => m.before.broker.change?.elim m.after.broker (Relay.listened · m.before)
  | .start | .await _ | .obey _ | .balance | .flush => m.after.broker

namespace Relay

/-- What is held is tracked, and what is tracked is assigned and not released. -/
structure Owning (r : Relay ScriptedBroker ν) : Prop where
  held : ∀ offsets, r.desk.mode.held? = some offsets → ∀ p, offsets.contains p = true →
    r.desk.flow.isTracked p = true
  assigned : ∀ p, r.desk.flow.isTracked p = true → p ∈ r.broker.assignment
  kept : ∀ p, r.desk.flow.isTracked p = true → r.desk.flow.wasReleased p = false

namespace Owning

variable {r s : Relay ScriptedBroker ν}

/-- Only what is held, tracked, released and assigned matters. -/
theorem congr (h : Owning r) (hheld : s.desk.mode.held? = r.desk.mode.held?)
    (htracked : ∀ p, s.desk.flow.isTracked p = r.desk.flow.isTracked p)
    (hreleased : ∀ p, s.desk.flow.wasReleased p = r.desk.flow.wasReleased p)
    (hassigned : s.broker.assignment = r.broker.assignment) : Owning s := by
  constructor
  · intro offsets ho p hp
    rw [htracked]
    exact h.held offsets (hheld ▸ ho) p hp
  · intro p hp
    rw [hassigned]
    exact h.assigned p (htracked p ▸ hp)
  · intro p hp
    rw [hreleased]
    exact h.kept p (htracked p ▸ hp)

variable [Notifier ν]

theorem of_quiet (h : Owning r) (hq : Quiet r s) : Owning s :=
  h.congr hq.held (fun _ => by rw [hq.flow]) (fun _ => by rw [hq.flow]) hq.assignment

theorem acked {pos : Position} (h : Owning r) (ha : Acked pos r s) : Owning s := by
  have htracked := FlowControl.isTracked_acknowledge ha.flow
  obtain ⟨-, -, hreleased⟩ := FlowControl.acknowledge_eq ha.flow
  refine ⟨fun offsets ho p hp => ?_, fun p hp => ?_, fun p hp => ?_⟩
  · rw [htracked]
    rw [ha.held, Option.map_eq_some_iff] at ho
    obtain ⟨old, hold, rfl⟩ := ho
    rw [PartitionMap.contains_insert] at hp
    by_cases hpos : pos.partition = p
    · have hpending := FlowControl.pending_acknowledge ha.flow p
      rw [if_pos hpos] at hpending
      exact FlowControl.tracked_of_pending (by omega)
    · simp only [hpos, decide_false, Bool.false_or] at hp
      exact h.held old hold p hp
  · rw [ha.assignment]
    exact h.assigned p (htracked p ▸ hp)
  · rw [FlowControl.wasReleased, hreleased]
    exact h.kept p (htracked p ▸ hp)

theorem balanced (h : Owning r) (hb : Balanced r s) : Owning s := by
  have hframe := FlowControl.reconcile_frame r.desk.flow r.broker.assignment
  refine h.congr hb.held (fun p => ?_) (fun p => ?_) hb.assignment
  · rw [hb.flow, hframe]
    rfl
  · rw [hb.flow, hframe]
    rfl

theorem received (h : Owning r) (hr : Received r s)
    (hbrings : ∀ record ∈ r.broker.arriving, record.partition ∈ r.broker.assignment) :
    Owning s := by
  have htracked : ∀ p, s.desk.flow.isTracked p = true ↔
      (∃ record ∈ r.broker.arriving, record.partition = p) ∨
        p ∉ r.broker.surrendered ∧ r.desk.flow.isTracked p = true := by
    intro p
    rw [FlowControl.isTracked_deliverEach hr.flow, FlowControl.isTracked_remove]
    simp
  refine ⟨fun offsets ho p hp => ?_, fun p hp => ?_, fun p hp => ?_⟩
  · rw [hr.held, Option.map_eq_some_iff] at ho
    obtain ⟨old, hold, rfl⟩ := ho
    rw [PartitionMap.contains, PartitionMap.get?_foldl_erase] at hp
    split at hp
    · cases hp
    · next hkept => exact (htracked p).2 (Or.inr ⟨hkept, h.held old hold p hp⟩)
  · rw [hr.assignment, List.mem_append, List.mem_filter, decide_eq_true_iff]
    rcases (htracked p).1 hp with ⟨record, hrecord, rfl⟩ | ⟨hkept, hold⟩
    · have hnone := ScriptedBroker.surrendered_of_arriving hrecord
      exact Or.inl ⟨hbrings record hrecord, by simp [hnone]⟩
    · exact Or.inl ⟨h.assigned p hold, hkept⟩
  · rw [FlowControl.wasReleased_deliverEach hr.flow, FlowControl.wasReleased_remove]
    rcases (htracked p).1 hp with ⟨record, hrecord, hpartition⟩ | ⟨hkept, hold⟩
    · have hcomes : decide (∀ record ∈ r.broker.arriving, record.partition ≠ p) = false :=
        decide_eq_false fun hall => hall record hrecord hpartition
      rw [hcomes, Bool.false_and]
    · rw [h.kept p hold]
      simp [hkept]

/-- A member of a group goes on owning what it holds. -/
theorem step {a : Act} (h : Owning r) (hheld : r.desk.mode.held?.isSome = true)
    (hs : Step r s a)
    (hbrings : a = .receive → ∀ record ∈ r.broker.arriving,
      record.partition ∈ r.broker.assignment) : Owning s := by
  cases hs with
  | started _ hq => exact h.of_quiet hq
  | assumed hnone _ =>
    rw [hnone] at hheld
    cases hheld
  | passed _ hq => exact h.of_quiet hq
  | reported hq => exact h.of_quiet hq
  | ignored _ _ hq => exact h.of_quiet hq
  | acknowledged _ _ ha => exact h.acked ha
  | balanced hb => exact h.balanced hb
  | idled hq => exact h.of_quiet hq
  | committed offsets hc =>
    refine ⟨fun offsets ho p hp => ?_, fun p hp => ?_, fun p hp => ?_⟩
    · cases hc.held.symm.trans ho
      cases hp
    · rw [hc.assignment]
      exact h.assigned p (hc.flow ▸ hp)
    · rw [hc.flow]
      exact h.kept p (hc.flow ▸ hp)
  | received hr => exact h.received hr (hbrings rfl)

end Owning

variable [Notifier ν] {settings : RelaySettings} {b : ScriptedBroker} {w : ν} {now : Nat}
  {ts : List Round}

omit [Notifier ν] in
theorem owning_create : Owning (create settings b w now : Relay ScriptedBroker ν) := by
  refine ⟨fun offsets ho p hp => ?_, fun p hp => ?_, fun p hp => ?_⟩
  · have hempty : offsets = ∅ := by
      rw [create] at ho
      cases hg : settings.group with
      | none => simp [hg, Mode.held?] at ho
      | some g =>
        simp only [hg, Mode.held?, Option.some.injEq] at ho
        exact ho.symm
    rw [hempty] at hp
    cases hp
  · cases hp
  · cases hp

theorem owning_of_trail (hg : settings.group ≠ none)
    (hbrings : ∀ m ∈ trail (lifeOf ts) (create settings b w now), m.BringsOwned)
    {past : List (Moment ν)} {m : Moment ν}
    (h : past ++ [m] <+: trail (lifeOf ts) (create settings b w now)) : Owning m.before := by
  refine trail_induction (I := fun _ m => Owning m.before)
    (fun m hm => ?_) (fun past m n hn hm => ?_) past m h
  · rw [before_of_first hm]
    exact owning_create
  · obtain ⟨offsets, hheld, -⟩ := holds_of_grouped hg (prefix_of_next hn)
    have hstep := step_of_perform (perform_of_next hn)
    exact hm.step (by rw [hheld]; rfl) hstep (hbrings m (mem_of_next hn))

/-- Nothing is committed after the broker changes its assignment. -/
theorem commitCalls_committing (m : Moment ν) :
    m.committing.commitCalls = m.after.broker.commitCalls := by
  obtain ⟨r, a⟩ := m
  cases a with
  | receive =>
    simp only [Moment.committing]
    cases hchange : r.broker.change? with
    | none => rfl
    | some change =>
      have hend : (⟨r, .receive⟩ : Moment ν).after = endState receive r :=
        endState_bind_pure receive Flow.goOn r
      rw [hend]
      exact (listened_eq hchange).2.symm
  | start => rfl
  | await t => rfl
  | obey c => rfl
  | balance => rfl
  | flush => rfl

/-- The assignment is the same before the commits of a moment and when they are made. -/
theorem assignment_committing {m : Moment ν} (h : m.calls ≠ []) :
    m.committing.assignment = m.before.broker.assignment := by
  have hcalls : Calls m.before m.after m.act := calls_perform m.act m.before
  have hflush : ∀ forced, Flushes forced m.before m.after →
      m.after.broker.assignment = m.before.broker.assignment := by
    rintro forced (⟨hu, -⟩ | ⟨offsets, accepted, ht⟩)
    · exact absurd (calls_of_uncommitted hu) h
    · exact ht.assignment
  obtain ⟨r, a⟩ := m
  cases a with
  | receive =>
    have hover : HandsOver r (⟨r, .receive⟩ : Moment ν).after := hcalls
    simp only [Moment.committing]
    cases hchange : r.broker.change? with
    | none => exact absurd (calls_of_uncommitted (hover.uncommitted (by rw [hchange]; rfl))) h
    | some change => exact (listened_eq hchange).1
  | flush => exact hflush false hcalls
  | start => exact absurd (calls_of_uncommitted hcalls) h
  | await t => exact absurd (calls_of_uncommitted hcalls) h
  | balance => exact absurd (calls_of_uncommitted hcalls) h
  | obey c =>
    cases c with
    | stop => exact hflush true hcalls
    | ack pos => exact absurd (calls_of_uncommitted hcalls) h
    | committedOffsets => exact absurd (calls_of_uncommitted hcalls) h
    | unrecognized raw => exact absurd (calls_of_uncommitted hcalls) h

theorem assigned_of_calls {m : Moment ν} (h : Owning m.before) {call : Offsets × Bool}
    (hcall : call ∈ m.calls) {p : Partition} (hp : p ∈ call.1.keys) :
    p ∈ m.before.broker.assignment := by
  have hcalls : Calls m.before m.after m.act := calls_perform m.act m.before
  rw [PartitionMap.mem_keys_iff] at hp
  rcases hcalls.cases with hu | ⟨forced, hu | ⟨offsets, accepted, ht⟩⟩ | ⟨accepted, hc⟩
  · rw [calls_of_uncommitted hu] at hcall
    cases hcall
  · rw [calls_of_uncommitted hu.1] at hcall
    cases hcall
  · rw [calls_of_append ht.commitCalls, List.mem_singleton] at hcall
    subst hcall
    exact h.assigned p (h.held offsets ht.before p hp)
  · rw [calls_of_append hc, List.mem_map] at hcall
    obtain ⟨offsets, ho, rfl⟩ := hcall
    obtain ⟨change, -, ho⟩ := Option.bind_eq_some_iff.1 (Option.mem_toList.1 ho)
    obtain ⟨ps, all, -, hheld, rfl⟩ := Rebalance.handsOver_eq_some ho
    rw [PartitionMap.contains, PartitionMap.get?_restrict] at hp
    split at hp
    · exact h.assigned p (h.held all hheld p hp)
    · cases hp

/-- A member of a group that gets records only of partitions assigned to it owns what it holds at
all times, and commits only for partitions assigned to it. The assignment does not change before the
commits of a moment are made. -/
theorem commits_only_for_assigned (settings : RelaySettings) (hg : settings.group ≠ none)
    (b : ScriptedBroker) (w : ν) (now : Nat) (ts : List Round)
    (hbrings : ∀ m ∈ trail (lifeOf ts) (create settings b w now), m.BringsOwned) :
    (∀ m ∈ trail (lifeOf ts) (create settings b w now),
        Owning m.before ∧ m.committing.commitCalls = m.after.broker.commitCalls ∧
          ∀ call ∈ m.calls, m.committing.assignment = m.before.broker.assignment ∧
            ∀ p ∈ call.1.keys, p ∈ m.committing.assignment) ∧
      ∀ r, live (lifeOf ts) (create settings b w now) = (.running, r) → Owning r := by
  constructor
  · intro m hm
    obtain ⟨past, hpast⟩ := exists_past hm
    have howning := owning_of_trail hg hbrings hpast
    refine ⟨howning, commitCalls_committing m, fun call hcall => ?_⟩
    have hsame := assignment_committing (List.ne_nil_of_mem hcall)
    rw [hsame]
    exact ⟨rfl, fun p hp => assigned_of_calls howning hcall hp⟩
  · intro r hr
    rcases last_of_running hr with rfl | ⟨past, m, hm, hp⟩
    · exact owning_create
    · obtain ⟨offsets, hheld, -⟩ := holds_of_grouped hg hm
      exact (owning_of_trail hg hbrings hm).step (by rw [hheld]; rfl) (step_of_perform hp)
        (hbrings m (mem_of_past hm))

/-- A partition is revoked with an acknowledged offset still pending. -/
theorem commits_only_for_assigned_at_revocation :
    ∃ m ∈ trail (lifeOf [{}, {}, { arrivals := [.ack ⟨⟨"t", 0⟩, 7⟩] }])
        (create { topics := ["t"], group := some "g", pollTimeout := 0, commitInterval := 1 }
          { script := [.rebalance (.assigned [⟨"t", 0⟩]), .records [⟨⟨"t", 0⟩, 7, 0, []⟩],
              .rebalance (.revoked [⟨"t", 0⟩])] }
          Host.listening 0),
      m.calls.length = 1 ∧
        ∀ call ∈ m.calls, m.committing.assignment = m.before.broker.assignment ∧
          ∀ p ∈ call.1.keys, p ∈ m.committing.assignment := by
  refine ⟨_, List.get_mem _ ⟨13, by decide +kernel⟩, by decide +kernel, ?_⟩
  exact ((commits_only_for_assigned _ (by decide) _ _ _ _ (by decide +kernel)).1 _
    (List.get_mem _ _)).2.2

end Relay

end AckRelay
