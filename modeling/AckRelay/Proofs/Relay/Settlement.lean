import AckRelay.Proofs.Relay.Step

namespace AckRelay

namespace Moment

variable {ν : Type} [Notifier ν]

/-- The commit calls of the moment, each with whether it was accepted. -/
def calls (m : Moment ν) : List (Offsets × Bool) :=
  m.after.broker.commitCalls.drop m.before.broker.commitCalls.length

def accepted? (m : Moment ν) : Option Position :=
  match m.act with
  | .obey (.ack pos) =>
    if m.before.ignores pos.partition then none
    else (m.before.desk.flow.acknowledge? pos.partition).map fun _ => pos
  | _ => none

def acceptedOf? (m : Moment ν) (p : Partition) : Option Int64 :=
  (m.accepted?.filter (·.partition = p)).map Position.offset

def settles (m : Moment ν) (p : Partition) : Bool :=
  match m.act with
  | .flush | .obey .stop => m.calls.any Prod.snd
  | .receive => decide (p ∈ m.before.broker.surrendered)
  | _ => false

end Moment

variable {ν : Type} [Notifier ν]

def unsettled (past : List (Moment ν)) (p : Partition) : List Int64 :=
  (past.reverse.takeWhile (fun m => !m.settles p)).filterMap (·.acceptedOf? p)

def owed (past : List (Moment ν)) (p : Partition) : Option Int64 := (unsettled past p).max?

def Commits (calls : List (Offsets × Bool)) (owed : Partition → Option Int64) : Prop :=
  (calls = [] ∧ ∀ p, owed p = none) ∨
    ∃ offsets accepted, calls = [(offsets, accepted)] ∧ (∀ p, offsets.get? p = owed p) ∧
      ∃ p, owed p ≠ none

/-- The commit calls of a moment are those that are due for what is owed: a flush commits all of it,
only one that is not forced may not be due; a revocation commits it for the partitions revoked; and
nothing else commits. -/
def Moment.CommitsDue (m : Moment ν) (owed : Partition → Option Int64) : Prop :=
  match m.act with
  | .flush => m.calls = [] ∨ Commits m.calls owed
  | .obey .stop => Commits m.calls owed
  | .receive =>
    match m.before.broker.change? with
    | some (.revoked ps) => Commits m.calls fun p => if p ∈ ps then owed p else none
    | some (.assigned _) | some (.lost _) | none => m.calls = []
  | .start | .await _ | .obey (.ack _) | .obey .committedOffsets | .obey (.unrecognized _)
  | .balance => m.calls = []

namespace Relay

omit [Notifier ν] in
theorem accepted_of_other {m : Moment ν} (h : ∀ pos, m.act ≠ .obey (.ack pos)) :
    m.accepted? = none := by
  rw [Moment.accepted?]
  split
  · next pos hact => exact absurd hact (h pos)
  · rfl

theorem owed_append (past : List (Moment ν)) (m : Moment ν) (p : Partition) :
    owed (past ++ [m]) p =
      if m.settles p then none
      else
        match m.acceptedOf? p with
        | some offset => some (CommitBatch.higher offset (owed past p))
        | none => owed past p := by
  rw [owed, unsettled, List.reverse_append, List.reverse_singleton, List.singleton_append,
    List.takeWhile_cons]
  cases hs : m.settles p with
  | true => rfl
  | false =>
    simp only [Bool.not_false, ↓reduceIte, List.filterMap_cons, Bool.false_eq_true]
    cases m.acceptedOf? p with
    | none => rfl
    | some offset => rw [List.max?_cons]; rfl

theorem calls_of_append {m : Moment ν} {cs : List (Offsets × Bool)}
    (h : m.after.broker.commitCalls = m.before.broker.commitCalls ++ cs) : m.calls = cs := by
  rw [Moment.calls, h, List.drop_left]

theorem calls_of_uncommitted {m : Moment ν} (h : Uncommitted m.before m.after) : m.calls = [] := by
  apply calls_of_append
  rw [List.append_nil]
  exact h

theorem owed_of_idle {past : List (Moment ν)} {m : Moment ν} {p : Partition}
    (hs : m.settles p = false) (ha : m.accepted? = none) : owed (past ++ [m]) p = owed past p := by
  rw [owed_append, hs, Moment.acceptedOf?, ha]
  rfl

theorem owed_of_settled {past : List (Moment ν)} {m : Moment ν} {p : Partition}
    (hs : m.settles p = true) : owed (past ++ [m]) p = none := by
  rw [owed_append, if_pos hs]

def Holds (past : List (Moment ν)) (m : Moment ν) : Prop :=
  ∃ offsets, m.before.desk.mode.held? = some offsets ∧ ∀ p, offsets.get? p = owed past p

theorem holds_of_idle {past : List (Moment ν)} {m n : Moment ν} (h : Holds past m)
    (hheld : n.before.desk.mode.held? = m.before.desk.mode.held?)
    (hs : ∀ p, m.settles p = false) (ha : m.accepted? = none) : Holds (past ++ [m]) n := by
  obtain ⟨offsets, hm, ho⟩ := h
  refine ⟨offsets, hheld.trans hm, fun p => ?_⟩
  rw [owed_of_idle (hs p) ha, ho]

theorem holds_step {past : List (Moment ν)} {m n : Moment ν}
    (hp : perform m.act m.before = .ok .goOn n.before) (h : Holds past m) :
    Holds (past ++ [m]) n := by
  have hafter : m.after = n.before := endState_of_ok hp
  have hstep := step_of_perform hp
  obtain ⟨r, a⟩ := m
  cases hstep with
  | started _ hq => exact holds_of_idle h hq.held (fun _ => rfl) rfl
  | assumed hheld _ =>
    obtain ⟨offsets, hm, -⟩ := h
    cases hheld.symm.trans hm
  | passed t hq => exact holds_of_idle h hq.held (fun _ => rfl) rfl
  | reported hq => exact holds_of_idle h hq.held (fun _ => rfl) rfl
  | ignored pos hi hq => exact holds_of_idle h hq.held (fun _ => rfl) (if_pos hi)
  | acknowledged pos hi ha =>
    obtain ⟨offsets, hm, ho⟩ := h
    have haccepted : (⟨r, .obey (.ack pos)⟩ : Moment ν).accepted? = some pos := by
      simp [Moment.accepted?, hi, ha.flow]
    have hsettles : ∀ p, (⟨r, .obey (.ack pos)⟩ : Moment ν).settles p = false := fun _ => rfl
    refine ⟨_, by rw [ha.held, hm]; rfl, fun p => ?_⟩
    rw [owed_append, hsettles, Moment.acceptedOf?, haccepted, PartitionMap.get?_insert,
      Option.filter_some, ho pos.partition]
    by_cases hpos : pos.partition = p
    · subst hpos
      simp
    · simp [hpos, ho]
  | balanced hb => exact holds_of_idle h hb.held (fun _ => rfl) rfl
  | idled hq =>
    have hcalls : (⟨r, .flush⟩ : Moment ν).calls = [] :=
      calls_of_uncommitted (hafter ▸ hq.commitCalls)
    refine holds_of_idle h hq.held (fun p => ?_) rfl
    simp [Moment.settles, hcalls]
  | committed offsets hc =>
    have hcalls : (⟨r, .flush⟩ : Moment ν).calls = [(offsets, true)] :=
      calls_of_append (hafter ▸ hc.commitCalls)
    refine ⟨∅, hc.held, fun p => ?_⟩
    rw [owed_of_settled (by simp [Moment.settles, hcalls]), PartitionMap.get?_empty]
  | received hr =>
    obtain ⟨offsets, hm, ho⟩ := h
    refine ⟨_, by rw [hr.held, hm]; rfl, fun p => ?_⟩
    rw [PartitionMap.get?_foldl_erase, ho]
    by_cases hp : p ∈ r.broker.surrendered
    · have hs : (⟨r, .receive⟩ : Moment ν).settles p = true := decide_eq_true hp
      rw [if_pos hp, owed_of_settled hs]
    · have hs : (⟨r, .receive⟩ : Moment ν).settles p = false := decide_eq_false hp
      rw [if_neg hp, owed_of_idle hs rfl]

variable {settings : RelaySettings} {b : ScriptedBroker} {w : ν} {now : Nat} {ts : List Round}
  {past : List (Moment ν)} {m : Moment ν}

theorem holds_of_grouped (hg : settings.group ≠ none)
    (h : past ++ [m] <+: trail (lifeOf ts) (create settings b w now)) : Holds past m := by
  refine trail_induction (fun m hm => ?_) (fun past m n hn hm => ?_) past m h
  · refine ⟨∅, ?_, fun p => rfl⟩
    rw [before_of_first hm, create]
    cases hs : settings.group with
    | none => exact absurd hs hg
    | some g => rfl
  · exact holds_step (perform_of_next hn) hm

/-- Without a group nothing is ever held. -/
theorem held_of_anonymous (hg : settings.group = none)
    (h : past ++ [m] <+: trail (lifeOf ts) (create settings b w now)) :
    m.before.desk.mode.held? = none := by
  refine trail_induction (I := fun _ m => m.before.desk.mode.held? = none)
    (fun m hm => ?_) (fun past m n hn hm => ?_) past m h
  · rw [before_of_first hm, create, hg]
    rfl
  · have hstep := step_of_perform (perform_of_next hn)
    obtain ⟨r, a⟩ := m
    cases hstep with
    | started _ hq => exact hq.held.trans hm
    | assumed _ ha => exact ha.held
    | passed _ hq => exact hq.held.trans hm
    | reported hq => exact hq.held.trans hm
    | ignored _ _ hq => exact hq.held.trans hm
    | acknowledged _ _ ha => exact ha.held.trans (congrArg (Option.map _) hm)
    | balanced hb => exact hb.held.trans hm
    | idled hq => exact hq.held.trans hm
    | committed _ hc => cases hm.symm.trans hc.before
    | received hr => exact hr.held.trans (congrArg (Option.map _) hm)

theorem commits_of_flushes {forced : Bool} {offsets : Offsets}
    (hh : m.before.desk.mode.held? = some offsets) (ho : ∀ p, offsets.get? p = owed past p)
    (hf : Flushes forced m.before m.after) :
    (forced = false ∧ m.calls = []) ∨ Commits m.calls (owed past) := by
  rcases hf with ⟨hu, hempty⟩ | ⟨offsets', accepted, ht⟩
  · cases forced with
    | false => exact Or.inl ⟨rfl, calls_of_uncommitted hu⟩
    | true =>
      have hnone := (PartitionMap.isEmpty_iff offsets).1 (hempty rfl offsets hh)
      exact Or.inr (Or.inl ⟨calls_of_uncommitted hu, fun p => (ho p).symm.trans (hnone p)⟩)
  · cases hh.symm.trans ht.before
    refine Or.inr (Or.inr ⟨offsets, accepted, calls_of_append ht.commitCalls, ho, ?_⟩)
    obtain ⟨p, hp⟩ := PartitionMap.exists_get?_of_nonempty ht.nonempty
    exact ⟨p, ho p ▸ hp⟩

theorem commits_of_handsOver {offsets : Offsets} (hh : m.before.desk.mode.held? = some offsets)
    (ho : ∀ p, offsets.get? p = owed past p) {ps : List Partition}
    (hc : m.before.broker.change? = some (.revoked ps)) (hover : HandsOver m.before m.after) :
    Commits m.calls fun p => if p ∈ ps then owed past p else none := by
  obtain ⟨accepted, hcalls⟩ := hover
  have hget : ∀ p, (offsets.restrict ps).get? p = if p ∈ ps then owed past p else none := by
    intro p
    rw [PartitionMap.get?_restrict, ho]
  rw [hc, hh] at hcalls
  simp only [Option.bind_some, Rebalance.handsOver, Option.map_some, Option.filter_some] at hcalls
  cases hempty : (offsets.restrict ps).isEmpty with
  | true =>
    rw [hempty] at hcalls
    refine Or.inl ⟨calls_of_append hcalls, fun p => ?_⟩
    exact (hget p).symm.trans ((PartitionMap.isEmpty_iff _).1 hempty p)
  | false =>
    rw [hempty] at hcalls
    obtain ⟨p, hp⟩ := PartitionMap.exists_get?_of_nonempty hempty
    exact Or.inr ⟨_, accepted, calls_of_append hcalls, hget, p, (hget p).symm.trans_ne hp⟩

theorem commitsDue_of_holds (h : Holds past m) : m.CommitsDue (owed past) := by
  obtain ⟨offsets, hh, ho⟩ := h
  have hcalls : Calls m.before m.after m.act := calls_perform m.act m.before
  obtain ⟨r, a⟩ := m
  cases a with
  | start => exact calls_of_uncommitted hcalls
  | await t => exact calls_of_uncommitted hcalls
  | obey c =>
    cases c with
    | ack pos => exact calls_of_uncommitted hcalls
    | committedOffsets => exact calls_of_uncommitted hcalls
    | unrecognized raw => exact calls_of_uncommitted hcalls
    | stop =>
      rcases commits_of_flushes hh ho hcalls with ⟨hf, -⟩ | hc
      · cases hf
      · exact hc
  | balance => exact calls_of_uncommitted hcalls
  | flush => exact (commits_of_flushes hh ho hcalls).imp And.right id
  | receive =>
    have hover : HandsOver r (⟨r, .receive⟩ : Moment ν).after := hcalls
    simp only [Moment.CommitsDue]
    cases hchange : r.broker.change? with
    | none => exact calls_of_uncommitted (hover.uncommitted (by rw [hchange]; rfl))
    | some change =>
      cases change with
      | revoked ps => exact commits_of_handsOver hh ho hchange hover
      | assigned ps => exact calls_of_uncommitted (hover.uncommitted (by rw [hchange]; rfl))
      | lost ps => exact calls_of_uncommitted (hover.uncommitted (by rw [hchange]; rfl))

theorem calls_of_anonymous (hheld : m.before.desk.mode.held? = none) : m.calls = [] := by
  have hcalls : Calls m.before m.after m.act := calls_perform m.act m.before
  rcases hcalls.cases with hu | ⟨forced, hu | ⟨offsets, accepted, ht⟩⟩ | hover
  · exact calls_of_uncommitted hu
  · exact calls_of_uncommitted hu.1
  · cases hheld.symm.trans ht.before
  · refine calls_of_uncommitted (hover.uncommitted ?_)
    rw [hheld]
    cases m.before.broker.change? with
    | none => rfl
    | some change => cases change <;> rfl

theorem commitCalls_after (m : Moment ν) :
    m.after.broker.commitCalls = m.before.broker.commitCalls ++ m.calls := by
  have hcalls : Calls m.before m.after m.act := calls_perform m.act m.before
  have happend : ∃ cs, m.after.broker.commitCalls = m.before.broker.commitCalls ++ cs := by
    rcases hcalls.cases with hu | ⟨forced, hu | ⟨offsets, accepted, ht⟩⟩ | ⟨accepted, hc⟩
    · exact ⟨[], hu.trans (List.append_nil _).symm⟩
    · exact ⟨[], hu.1.trans (List.append_nil _).symm⟩
    · exact ⟨_, ht.commitCalls⟩
    · exact ⟨_, hc⟩
  obtain ⟨cs, hcs⟩ := happend
  rw [calls_of_append hcs, hcs]

/-- The commit calls of a life are those of its moments. -/
theorem commitCalls_live (as : List Act) (r : Relay ScriptedBroker ν) :
    (live as r).2.broker.commitCalls =
      r.broker.commitCalls ++ (trail as r).flatMap Moment.calls := by
  induction as generalizing r with
  | nil => exact (List.append_nil _).symm
  | cons a as ih =>
    have hafter := commitCalls_after ⟨r, a⟩
    simp only [live, trail, List.flatMap_cons]
    rw [← List.append_assoc, ← hafter]
    -- the calls of the act are made even if it fails
    cases hp : perform a r with
    | error e t =>
      have ht : (⟨r, a⟩ : Moment ν).after = t := endState_of_error hp
      rw [ht]
      exact (List.append_nil _).symm
    | ok flow t =>
      have ht : (⟨r, a⟩ : Moment ν).after = t := endState_of_ok hp
      rw [ht]
      cases flow with
      | goOn => exact ih t
      | stop => exact (List.append_nil _).symm

/-- Every commit call belongs to a moment of the life. A member of a group makes in each moment the
calls that are due for what was accepted before and is not settled, and a relay without a group
makes none. -/
theorem commits_carry_what_is_owed (settings : RelaySettings) (b : ScriptedBroker) (w : ν)
    (now : Nat) (ts : List Round) :
    (live (lifeOf ts) (create settings b w now)).2.broker.commitCalls =
        b.commitCalls ++
          (trail (lifeOf ts) (create settings b w now)).flatMap Moment.calls ∧
      ∀ past m, past ++ [m] <+: trail (lifeOf ts) (create settings b w now) →
        (settings.group ≠ none → m.CommitsDue (owed past)) ∧
          (settings.group = none → m.calls = []) := by
  refine ⟨commitCalls_live _ _, fun past m h => ⟨fun hg => ?_, fun hg => ?_⟩⟩
  · exact commitsDue_of_holds (holds_of_grouped hg h)
  · exact calls_of_anonymous (held_of_anonymous hg h)

/-- One record comes and is acknowledged, and the next flush commits it. -/
theorem commits_carry_one_record :
    ∃ past m, past ++ [m] <+:
        trail (lifeOf [{}, {}, { elapsed := 1, arrivals := [.ack ⟨⟨"t", 0⟩, 7⟩] }])
          (create { topics := ["t"], group := some "g", pollTimeout := 0, commitInterval := 1 }
            { script := [.rebalance (.assigned [⟨"t", 0⟩]), .records [⟨⟨"t", 0⟩, 7, 0, []⟩]] }
            Host.listening 0) ∧
      m.calls.length = 1 ∧ m.CommitsDue (owed past) := by
  refine ⟨_, _, prefix_of_get _ 12 (by decide +kernel), by decide +kernel, ?_⟩
  exact ((commits_carry_what_is_owed _ _ _ _ _).2 _ _
    (prefix_of_get _ 12 (by decide +kernel))).1 (by decide)

end Relay

end AckRelay
