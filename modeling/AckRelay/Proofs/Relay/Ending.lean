import AckRelay.Proofs.Relay.Pauses
import AckRelay.Proofs.Relay.Powers
import AckRelay.Proofs.Relay.Progress

/-!
How a relay ends. It ends well by a stop whose commit the broker accepts, and in no other way; then
the broker is closed, and nothing that was acknowledged is left over. Every other end is a failure:
it is counted once, under the kind of its error, and the broker is never closed.
-/

namespace AckRelay

variable {ν : Type}

namespace ScriptedBroker

theorem commitCalls_of_log {b c : ScriptedBroker} (calls : List Call)
    (h : c.log = calls ++ b.log) :
    c.commitCalls = b.commitCalls ++ calls.reverse.filterMap Call.commit? := by
  rw [commitCalls, ScriptedBroker.calls, h, List.reverse_append, List.filterMap_append]
  rfl

end ScriptedBroker

namespace Moment

variable [Notifier ν]

/-- The relay is asked to stop, and nothing is in the way of that: what is still to be committed is
accepted, and the broker does not refuse to close. -/
def Stops (m : Moment ν) : Prop :=
  m.act = .obey .stop ∧ (∀ call ∈ m.calls, call.2 = true) ∧ .close ∉ m.before.broker.faults

def Discharges (m : Moment ν) (pos : Position) : Prop :=
  (∃ call ∈ m.calls, call.2 = true ∧
      ∃ offset, call.1.get? pos.partition = some offset ∧ pos.offset ≤ offset) ∨
    m.act = .receive ∧ pos.partition ∈ m.before.broker.surrendered

end Moment

namespace Relay

variable {r s t : Relay ScriptedBroker ν} {e : RelayError} {u : Unit}

/-- What a stop comes to that succeeds. The broker has only been asked to commit and to close, and
the host has been told nothing. -/
structure Left (r s : Relay ScriptedBroker ν) : Prop where
  phase : s.phase = .stopped
  closed : s.broker.closed = true
  log : ∃ commits : List Offsets,
    s.broker.log = .close :: (commits.map (.commit · true) ++ r.broker.log)
  empty : ∀ offsets, s.desk.mode.held? = some offsets → offsets.isEmpty = true
  notifier : s.desk.notifier = r.desk.notifier

section Stop

/-- A forced flush leaves nothing to commit, with a commit or without one, or its commit is
refused. -/
theorem flush_forced_cases (r : Relay ScriptedBroker ν) :
    (∃ s, flush true r = .ok () s ∧
        (∃ commits : List Offsets, s.broker.log = commits.map (.commit · true) ++ r.broker.log) ∧
        ∀ offsets, s.desk.mode.held? = some offsets → offsets.isEmpty = true) ∨
      ∃ e s offsets, flush true r = .error e s ∧
        s.broker.log = .commit offsets false :: r.broker.log := by
  cases hm : r.desk.mode with
  | anonymous catchUp =>
    refine Or.inl ⟨r, flush_of_anonymous hm true, ⟨[], rfl⟩, fun offsets ho => ?_⟩
    rw [hm] at ho
    cases ho
  | grouped batch =>
    rcases batch.flush_cases Broker.commit r.broker true r.now with
      ⟨last, ho, hempty⟩ | ⟨-, ⟨next, hc, ho⟩ | ⟨e, next, hc, ho⟩⟩
    · refine Or.inl ⟨_, flush_of_grouped hm ho, ⟨[], rfl⟩, fun offsets hoff => ?_⟩
      cases hoff
      exact hempty rfl
    · rcases ScriptedBroker.commit_cases batch.pending r.broker with hb | ⟨e, hb⟩
      · cases hb.symm.trans hc
        refine Or.inl ⟨_, flush_of_grouped hm ho, ⟨[batch.pending], rfl⟩, fun offsets hoff => ?_⟩
        cases hoff
        rfl
      · cases hb.symm.trans hc
    · rcases ScriptedBroker.commit_cases batch.pending r.broker with hb | ⟨e', hb⟩
      · cases hb.symm.trans hc
      · cases hb.symm.trans hc
        exact Or.inr ⟨_, _, batch.pending, flush_of_grouped hm ho, rfl⟩

theorem ask_close_cases (r : Relay ScriptedBroker ν) :
    (.close ∉ r.broker.faults ∧ ask Broker.close r =
        .ok () { r with broker := { r.broker.noted .close with closed := true } }) ∨
      .close ∈ r.broker.faults ∧
        ∃ e, ask Broker.close r = .error e { r with broker := r.broker.noted .close } := by
  have hclose : (Broker.close : EStateM BrokerError ScriptedBroker Unit) =
      (do ScriptedBroker.note .close; modify fun b => { b with closed := true }) := rfl
  have hfaulty : r.broker.faulty .close = decide (.close ∈ r.broker.faults) := rfl
  rw [ask_apply, hclose, bind_apply]
  by_cases hmem : .close ∈ r.broker.faults
  · rw [decide_eq_true hmem] at hfaulty
    obtain ⟨e, hn⟩ := ScriptedBroker.note_of_faulty hfaulty
    rw [hn]
    exact Or.inr ⟨hmem, .failed (.broker e), rfl⟩
  · rw [decide_eq_false hmem] at hfaulty
    rw [ScriptedBroker.note_of_sound hfaulty]
    exact Or.inl ⟨hmem, rfl⟩

variable [Notifier ν]

/-- A stop fails by a commit that is refused, or by a broker that refuses to close; then the broker
is as open as before. -/
theorem stop_cases (r : Relay ScriptedBroker ν) :
    (∃ s, stop r = .ok () s ∧ Left r s ∧ .close ∉ r.broker.faults) ∨
      ∃ e s, stop r = .error e s ∧ s.broker.closed = r.broker.closed ∧
        (.close ∈ r.broker.faults ∨
          ∃ offsets, s.broker.log = .commit offsets false :: r.broker.log) := by
  have hwithin : Within [] r (endState (flush true) r) := (within_flush true).atEnd r
  rcases flush_forced_cases r with
    ⟨t, hflush, ⟨commits, hlog⟩, hempty⟩ | ⟨e, t, offsets, hflush, hlog⟩
  · rw [endState_of_ok hflush] at hwithin
    have hfaults : t.broker.faults = r.broker.faults := hwithin.faults (by simp)
    rcases ask_close_cases t with ⟨hsound, hclose⟩ | ⟨hfaulty, e, hclose⟩
    · have hstop : stop r = .ok ()
          { t with
            broker := { t.broker.noted .close with closed := true }
            phase := .stopped } := by
        simp only [stop, bind_apply, hflush, hclose, modify_apply]
      have hnotifier : t.desk.notifier = r.desk.notifier := hwithin.told.eq_of_silent (by simp)
      have hcalls := congrArg (Call.close :: ·) hlog
      exact Or.inl ⟨_, hstop, ⟨rfl, rfl, ⟨commits, hcalls⟩, hempty, hnotifier⟩, hfaults ▸ hsound⟩
    · have hstop : stop r = .error e { t with broker := t.broker.noted .close } := by
        simp only [stop, bind_apply, hflush, hclose]
      have hclosed : t.broker.closed = r.broker.closed := hwithin.closed (by simp)
      exact Or.inr ⟨e, _, hstop, hclosed, Or.inl (hfaults ▸ hfaulty)⟩
  · rw [endState_of_error hflush] at hwithin
    refine Or.inr ⟨e, t, ?_, hwithin.closed (by simp), Or.inr ⟨offsets, hlog⟩⟩
    rw [stop, bind_apply, hflush]

end Stop

section Moments

variable [Notifier ν] {m : Moment ν} {as : List Act} {past : List (Moment ν)}

theorem perform_stop_cases (hact : m.act = .obey .stop) :
    (perform m.act m.before = .ok .stop m.after ∧ Left m.before m.after ∧
        .close ∉ m.before.broker.faults) ∨
      ∃ e, perform m.act m.before = .error e m.after ∧
        m.after.broker.closed = m.before.broker.closed ∧
        (.close ∈ m.before.broker.faults ∨
          ∃ offsets, m.after.broker.log = .commit offsets false :: m.before.broker.log) := by
  obtain ⟨r, a⟩ := m
  cases hact
  have hperform : perform (.obey .stop) r = (do stop; return Flow.stop) (r.counting .stop) :=
    obey_apply .stop r
  rcases stop_cases (r.counting .stop) with ⟨s, hs, hleft, hsound⟩ | ⟨e, s, hs, hclosed, hwhy⟩
  · rw [bind_apply, hs] at hperform
    have hafter : (⟨r, .obey .stop⟩ : Moment ν).after = s := endState_of_ok hperform
    rw [hafter]
    exact Or.inl ⟨hperform, ⟨hleft.phase, hleft.closed, hleft.log, hleft.empty, hleft.notifier⟩,
      hsound⟩
  · rw [bind_apply, hs] at hperform
    have hafter : (⟨r, .obey .stop⟩ : Moment ν).after = s := endState_of_error hperform
    rw [hafter]
    exact Or.inr ⟨e, hperform, hclosed, hwhy⟩

theorem accepted_of_left (h : Left m.before m.after) : ∀ call ∈ m.calls, call.2 = true := by
  obtain ⟨commits, hlog⟩ := h.log
  have hcalls : m.calls = _ := calls_of_append
    (ScriptedBroker.commitCalls_of_log (.close :: commits.map (.commit · true)) hlog)
  intro call hcall
  rw [hcalls] at hcall
  obtain ⟨c, hc, hcommit⟩ := List.mem_filterMap.1 hcall
  rcases List.mem_cons.1 (List.mem_reverse.1 hc) with rfl | hc
  · cases hcommit
  · obtain ⟨offsets, -, rfl⟩ := List.mem_map.1 hc
    cases hcommit
    rfl

theorem refused_of_log {offsets : Offsets}
    (h : m.after.broker.log = .commit offsets false :: m.before.broker.log) :
    ¬ ∀ call ∈ m.calls, call.2 = true := by
  have hcalls : m.calls = [(offsets, false)] := calls_of_append
    (ScriptedBroker.commitCalls_of_log [.commit offsets false] h)
  intro haccepted
  rw [hcalls] at haccepted
  cases haccepted _ List.mem_cons_self

theorem stops_iff : m.Stops ↔ ∃ s, perform m.act m.before = .ok .stop s := by
  constructor
  · rintro ⟨hact, haccepted, hsound⟩
    rcases perform_stop_cases hact with ⟨hp, -⟩ | ⟨e, -, -, hfaulty | ⟨offsets, hlog⟩⟩
    · exact ⟨_, hp⟩
    · exact absurd hfaulty hsound
    · exact absurd haccepted (refused_of_log hlog)
  · rintro ⟨s, hs⟩
    have hact := (stopped_of_perform hs).1
    rcases perform_stop_cases hact with ⟨-, hleft, hsound⟩ | ⟨e, hp, -⟩
    · exact ⟨hact, accepted_of_left hleft, hsound⟩
    · cases hp.symm.trans hs

theorem left_of_perform (h : perform m.act m.before = .ok .stop s) : Left m.before s := by
  rcases perform_stop_cases (stopped_of_perform h).1 with ⟨hp, hleft, -⟩ | ⟨e, hp, -⟩
  · cases hp.symm.trans h
    exact hleft
  · cases hp.symm.trans h

/-- Only a stop that succeeds closes the broker. -/
theorem closed_of_not_stops (h : ¬ m.Stops) :
    m.after.broker.closed = m.before.broker.closed := by
  by_cases hact : m.act = .obey .stop
  · rcases perform_stop_cases hact with ⟨hp, -⟩ | ⟨e, -, hclosed, -⟩
    · exact absurd (stops_iff.2 ⟨_, hp⟩) h
    · exact hclosed
  · exact (within_perform m.act m.before).closed fun hclose => hact (Act.close_mem_powers.1 hclose)

theorem closed_of_trail (h : ∀ m ∈ trail as r, ¬ m.Stops) (hm : m ∈ trail as r) :
    m.after.broker.closed = r.broker.closed := by
  obtain ⟨past, hpast⟩ := exists_past hm
  have hbefore : m.before.broker.closed = r.broker.closed := by
    refine trail_induction (I := fun _ m => m.before.broker.closed = r.broker.closed)
      (fun m hm => ?_) (fun past m n hn hm => ?_) past m hpast
    · rw [before_of_first hm]
    · have hafter : m.after = n.before := endState_of_ok (perform_of_next hn)
      rw [← hafter, closed_of_not_stops (h m (mem_of_next hn)), hm]
  rw [closed_of_not_stops (h m hm), hbefore]

/-- Nothing comes after a stop that succeeds. -/
theorem trail_of_stopped (h : past ++ [m] <+: trail as r)
    (hp : perform m.act m.before = .ok .stop s) : trail as r = past ++ [m] := by
  obtain ⟨rest, hrest⟩ := h
  cases rest with
  | nil => rw [← hrest, List.append_nil]
  | cons n rest =>
    have hnext : past ++ [m, n] <+: trail as r := ⟨rest, by rw [← hrest]; simp⟩
    cases (perform_of_next hnext).symm.trans hp

theorem live_of_stopped (hm : m ∈ trail as r) (hp : perform m.act m.before = .ok .stop s) :
    live as r = (.stopped, s) := by
  induction as generalizing r with
  | nil => cases hm
  | cons a as ih =>
    rw [trail, List.mem_cons] at hm
    rw [live]
    rcases hm with rfl | hm
    · rw [hp]
    · cases ha : perform a r with
      | error e t =>
        rw [ha] at hm
        cases hm
      | ok flow t =>
        rw [ha] at hm
        cases flow with
        | stop => cases hm
        | goOn => exact ih hm

/-- A life ends well exactly if one of its moments stops it. -/
theorem live_stopped_iff : (live as r).1 = .stopped ↔ ∃ m ∈ trail as r, m.Stops := by
  constructor
  · intro h
    obtain ⟨past, m, hm, hp⟩ := last_of_stopped (Prod.ext h rfl : live as r = (.stopped, _))
    exact ⟨m, mem_of_past hm, stops_iff.2 ⟨_, hp⟩⟩
  · rintro ⟨m, hm, hstops⟩
    obtain ⟨s, hp⟩ := stops_iff.1 hstops
    rw [live_of_stopped hm hp]

/-- No act counts a fatal error. -/
theorem errors_live (as : List Act) (r : Relay ScriptedBroker ν) (kind : RelayError.Kind) :
    (live as r).2.desk.metrics.total? (.fatalErrors kind) =
      r.desk.metrics.total? (.fatalErrors kind) := by
  induction as generalizing r with
  | nil => rfl
  | cons a as ih =>
    have herrors := (within_perform a r).errors kind
    rw [live]
    cases hp : perform a r with
    | error e t => rwa [endState_of_error hp] at herrors
    | ok flow t =>
      rw [endState_of_ok hp] at herrors
      cases flow with
      | stop => exact herrors
      | goOn => exact (ih t).trans herrors

end Moments

section Discharge

variable [Notifier ν] {settings : RelaySettings} {b : ScriptedBroker} {w : ν} {now : Nat}
  {ts : List Round} {past rest : List (Moment ν)} {m k : Moment ν} {pos : Position}
  {offset : Int64}

/-- A commit of what is owed that is accepted covers every offset below. -/
theorem discharges_of_commits (h : Commits m.calls (owed past)) {call : Offsets × Bool}
    (hcall : call ∈ m.calls) (haccepted : call.2 = true)
    (howed : owed past pos.partition = some offset) (hle : pos.offset ≤ offset) :
    m.Discharges pos := by
  rcases h with ⟨hnone, -⟩ | ⟨offsets, accepted, hcalls, hget, -⟩
  · rw [hnone] at hcall
    cases hcall
  · have hfirst : call = (offsets, accepted) := by
      rw [hcalls] at hcall
      exact List.mem_singleton.1 hcall
    have hoffset : call.1.get? pos.partition = some offset := by
      rw [hfirst, hget, howed]
    exact Or.inl ⟨call, hcall, haccepted, offset, hoffset, hle⟩

theorem discharges_of_settles (h : m.CommitsDue (owed past))
    (hs : m.settles pos.partition = true) (howed : owed past pos.partition = some offset)
    (hle : pos.offset ≤ offset) : m.Discharges pos := by
  obtain ⟨r, a⟩ := m
  cases a with
  | start => cases hs
  | await t => cases hs
  | balance => cases hs
  | receive => exact Or.inr ⟨rfl, of_decide_eq_true hs⟩
  | flush =>
    obtain ⟨call, hcall, haccepted⟩ := List.any_eq_true.1 hs
    rcases h with hnone | hcommits
    · rw [hnone] at hcall
      cases hcall
    · exact discharges_of_commits hcommits hcall haccepted howed hle
  | obey c =>
    cases c with
    | ack pos => cases hs
    | committedOffsets => cases hs
    | unrecognized raw => cases hs
    | stop =>
      obtain ⟨call, hcall, haccepted⟩ := List.any_eq_true.1 hs
      exact discharges_of_commits h hcall haccepted howed hle

theorem settles_of_accepted (h : m.accepted? = some pos) (p : Partition) :
    m.settles p = false := by
  have hack : ∃ pos, m.act = .obey (.ack pos) := by
    by_contra hnone
    rw [accepted_of_other fun pos hpos => hnone ⟨pos, hpos⟩] at h
    cases h
  obtain ⟨pos, hact⟩ := hack
  rw [Moment.settles, hact]

/-- What was acknowledged is done with, or that much is still owed. -/
theorem discharged_or_owed (hg : settings.group ≠ none) (hk : k.accepted? = some pos)
    (h : past ++ k :: rest ++ [m] <+: trail (lifeOf ts) (create settings b w now)) :
    (∃ j ∈ rest, j.Discharges pos) ∨
      ∃ offset, owed (past ++ k :: rest) pos.partition = some offset ∧ pos.offset ≤ offset := by
  -- by induction on what came since, from its end: each moment adds to what is owed or settles it
  induction rest using List.reverseRecOn generalizing m with
  | nil =>
    have hsettles := settles_of_accepted hk pos.partition
    have haccepted : k.acceptedOf? pos.partition = some pos.offset := by
      rw [Moment.acceptedOf?, hk, Option.filter_some, decide_eq_true rfl]
      rfl
    refine Or.inr ⟨_, ?_, CommitBatch.le_higher pos.offset (owed past pos.partition)⟩
    rw [owed_append, hsettles, haccepted]
    rfl
  | append_singleton rest j ih =>
    have hsplit : past ++ k :: (rest ++ [j]) = past ++ k :: rest ++ [j] := by simp
    have hprefix : past ++ k :: rest ++ [j] <+: trail (lifeOf ts) (create settings b w now) := by
      rw [← hsplit]
      exact (List.prefix_append _ [m]).trans h
    rw [hsplit]
    rcases ih hprefix with ⟨i, hi, hdone⟩ | ⟨offset, howed, hle⟩
    · exact Or.inl ⟨i, List.mem_append_left _ hi, hdone⟩
    · cases hs : j.settles pos.partition with
      | true =>
        have hdue := commitsDue_of_holds (holds_of_grouped hg hprefix)
        exact Or.inl ⟨j, by simp, discharges_of_settles hdue hs howed hle⟩
      | false =>
        refine Or.inr ?_
        rw [owed_append, hs, howed]
        cases j.acceptedOf? pos.partition with
        | none => exact ⟨offset, rfl, hle⟩
        | some other => exact ⟨_, rfl, Int64.le_trans hle Std.right_le_max⟩

/-- A stop that succeeds leaves nothing that was acknowledged behind. -/
theorem discharged_of_stopped (hg : settings.group ≠ none)
    (hp : perform m.act m.before = .ok .stop s) (hk : k.accepted? = some pos)
    (h : past ++ k :: rest ++ [m] <+: trail (lifeOf ts) (create settings b w now)) :
    ∃ j ∈ rest ++ [m], j.Discharges pos := by
  rcases discharged_or_owed hg hk h with ⟨j, hj, hdone⟩ | ⟨offset, howed, hle⟩
  · exact ⟨j, List.mem_append_left _ hj, hdone⟩
  · obtain ⟨hact, haccepted, -⟩ := stops_iff.2 ⟨s, hp⟩
    have hcommits : Commits m.calls (owed (past ++ k :: rest)) := by
      have hdue := commitsDue_of_holds (holds_of_grouped hg h)
      rwa [Moment.CommitsDue, hact] at hdue
    have hcalls : ∃ call, call ∈ m.calls := by
      rcases hcommits with ⟨-, hnone⟩ | ⟨offsets, accepted, hcalls, -⟩
      · cases (hnone pos.partition).symm.trans howed
      · exact ⟨_, by rw [hcalls]; exact List.mem_singleton.2 rfl⟩
    obtain ⟨call, hcall⟩ := hcalls
    have hdone := discharges_of_commits hcommits hcall (haccepted call hcall) howed hle
    exact ⟨m, by simp, hdone⟩

end Discharge

section Run

variable [Notifier ν]

/-- The relay has ended well after the moments. The last one is a stop that succeeds, what a group
accepted before is done with, and no fatal error is counted. -/
structure EndsWell (ms : List (Moment ν)) (s : Relay ScriptedBroker ν) : Prop where
  left : ∃ past m, ms = past ++ [m] ∧ m.act = .obey .stop ∧ Left m.before s
  discharged : ∀ past k rest, ms = past ++ k :: rest → k.before.isGrouped = true →
    ∀ pos, k.accepted? = some pos → ∃ j ∈ rest, j.Discharges pos
  errors : ∀ kind, s.desk.metrics.total? (.fatalErrors kind) = none

/-- The relay has failed after the moments. None of them closed the broker `b` that it began with,
and the error is counted once, under its kind. -/
structure Fails (e : RelayError) (ms : List (Moment ν)) (b : ScriptedBroker)
    (s : Relay ScriptedBroker ν) : Prop where
  closed : s.broker.closed = b.closed
  neverClosed : ∀ m ∈ ms, m.after.broker.closed = b.closed
  errors : ∀ kind, s.desk.metrics.total? (.fatalErrors kind) =
    if kind = e.kind then some 1 else none

variable {settings : RelaySettings} {b : ScriptedBroker} {w : ν} {now : Nat} {ts : List Round}

theorem last_of_split {α : Type} {xs ys zs : List α} {x y : α} (h : xs ++ [x] = ys ++ y :: zs) :
    (x = y ∧ zs = []) ∨ ∃ between, zs = between ++ [x] := by
  rcases List.eq_nil_or_concat' zs with rfl | ⟨between, z, rfl⟩
  · exact Or.inl ⟨List.singleton_inj.1 (List.append_inj_right' h rfl), rfl⟩
  · rw [← List.cons_append, ← List.append_assoc] at h
    have hlast := List.singleton_inj.1 (List.append_inj_right' h rfl)
    exact Or.inr ⟨between, by rw [hlast]⟩

theorem endsWell_of_live
    (h : live (lifeOf ts) (create settings b w now) = (.stopped, s)) :
    EndsWell (trail (lifeOf ts) (create settings b w now)) s := by
  obtain ⟨past, m, hm, hp⟩ := last_of_stopped h
  have htrail := trail_of_stopped hm hp
  refine ⟨⟨past, m, htrail, (stopped_of_perform hp).1, left_of_perform hp⟩, ?_, fun kind => ?_⟩
  · intro before k rest hsplit hgrouped pos hk
    have hg : settings.group ≠ none := by
      intro hnone
      have hlast : before ++ [k] <+: trail (lifeOf ts) (create settings b w now) :=
        ⟨rest, by rw [hsplit]; simp⟩
      rw [isGrouped, held_of_anonymous hnone hlast] at hgrouped
      cases hgrouped
    rcases last_of_split (htrail.symm.trans hsplit) with ⟨rfl, -⟩ | ⟨between, rfl⟩
    · rw [accepted_of_other (m := m) fun pos hack => ?_] at hk
      · cases hk
      · cases (stopped_of_perform hp).1.symm.trans hack
    · rw [← List.cons_append, ← List.append_assoc] at hsplit
      have hprefix : before ++ k :: between ++ [m] <+:
          trail (lifeOf ts) (create settings b w now) :=
        ⟨[], by rw [List.append_nil, hsplit]⟩
      exact discharged_of_stopped hg hp hk hprefix
  · have herrors := errors_live (lifeOf ts) (create settings b w now) kind
    rw [h] at herrors
    exact herrors

theorem fails_of_live {t : Relay ScriptedBroker ν}
    (h : live (lifeOf ts) (create settings b w now) = (.failed e, t)) :
    Fails e (trail (lifeOf ts) (create settings b w now)) b (t.afterError e) := by
  have hnone : ∀ m ∈ trail (lifeOf ts) (create settings b w now), ¬ m.Stops := by
    intro m hm hstops
    have hstopped := live_stopped_iff.2 ⟨m, hm, hstops⟩
    rw [h] at hstopped
    cases hstopped
  refine ⟨?_, fun m hm => closed_of_trail hnone hm, fun kind => ?_⟩
  · obtain ⟨past, m, hm, hp⟩ := last_of_error (e := .failed e) h
    have hafter : m.after = t := endState_of_error hp
    exact hafter ▸ closed_of_trail hnone (mem_of_past hm)
  · have herrors : ∀ kind, t.desk.metrics.total? (.fatalErrors kind) = none := by
      intro kind
      have hlive := errors_live (lifeOf ts) (create settings b w now) kind
      rwa [h] at hlive
    have htotal : t.desk.metrics.total (.fatalErrors e.kind) = 0 := by
      rw [Metrics.total, herrors]
      rfl
    show (t.desk.metrics.add (.fatalErrors e.kind) 1).total? (.fatalErrors kind) = _
    rw [Metrics.total?_add, herrors, htotal]
    simp

theorem overflows_of_live {t : Relay ScriptedBroker ν}
    (h : live (lifeOf ts) (create settings b w now) = (.crashed, t)) :
    ∃ m ∈ trail (lifeOf ts) (create settings b w now), m.act = .receive ∧ m.before.Overflows := by
  obtain ⟨past, m, hm, hp⟩ := last_of_error (e := .crashed) h
  refine ⟨m, mem_of_past hm, ?_⟩
  rcases blame_of_perform hp with he | ⟨-, hact, hover⟩ | ⟨_, -, he, -⟩
  · exact absurd rfl he.ne_crashed
  · exact ⟨hact, hover⟩
  · cases he

/-- A run that ends leaves the relay stopped. It ends well exactly if the relay was asked to stop
and nothing was in the way: the broker did not refuse the commit of what was pending, which a relay
without a group does not make, or to close. Otherwise it has failed. The program does not come to an
end of the run only if more bytes are pending for a partition than a word can count. -/
theorem run_ends_stopped_or_failed (settings : RelaySettings) (b : ScriptedBroker) (w : ν)
    (now : Nat) (ts : List Round) {ending : Ending} {s : Relay ScriptedBroker ν}
    (hend : settle (live (lifeOf ts) (create settings b w now)) = (ending, s))
    (hover : ending ≠ .running) :
    (∀ turns, ts = turns.map Round.ofTurn →
        run turns (create settings b w now) = (ending, s)) ∧
      (ending ≠ .crashed → s.phase = .stopped) ∧
      (ending = .stopped ↔
        ∃ m ∈ trail (lifeOf ts) (create settings b w now), m.Stops) ∧
      (ending = .stopped → EndsWell (trail (lifeOf ts) (create settings b w now)) s) ∧
      (ending ≠ .stopped → ending ≠ .crashed → ∃ e, ending = .failed e ∧
        Fails e (trail (lifeOf ts) (create settings b w now)) b s) ∧
      (ending = .crashed → ∃ m ∈ trail (lifeOf ts) (create settings b w now),
        m.act = .receive ∧ m.before.Overflows) := by
  have hrun : ∀ turns, ts = turns.map Round.ofTurn →
      run turns (create settings b w now) = (ending, s) := by
    rintro turns rfl
    rw [run_eq_live turns _ rfl, hend]
  cases hlive : live (lifeOf ts) (create settings b w now) with
  | mk last t =>
    have hiff : last = .stopped ↔ ∃ m ∈ trail (lifeOf ts) (create settings b w now), m.Stops := by
      have h : (live (lifeOf ts) (create settings b w now)).1 = .stopped ↔ _ := live_stopped_iff
      rwa [hlive] at h
    rw [hlive] at hend
    cases last with
    | running =>
      cases hend
      exact absurd rfl hover
    | stopped =>
      cases hend
      have hwell := endsWell_of_live hlive
      obtain ⟨past, m, -, -, hleft⟩ := hwell.left
      exact ⟨hrun, fun _ => hleft.phase, hiff, fun _ => hwell, fun hnot => absurd rfl hnot,
        nofun⟩
    | failed e =>
      cases hend
      have hfails := fails_of_live hlive
      exact ⟨hrun, fun _ => rfl, hiff, nofun, fun _ _ => ⟨e, rfl, hfails⟩, nofun⟩
    | crashed =>
      cases hend
      exact ⟨hrun, fun hlives => absurd rfl hlives, hiff, nofun,
        fun _ hlives => absurd rfl hlives, fun _ => overflows_of_live hlive⟩

/-- A record is acknowledged and the relay is asked to stop: the commit is accepted, and the relay
leaves. If the broker refuses commits, the relay fails instead. -/
theorem run_ends_by_last_commit :
    (∃ s : Relay ScriptedBroker Host,
        run [{}, {}, { arrivals := [.ack ⟨⟨"t", 0⟩, 7⟩, .stop] }]
          (create { topics := ["t"], group := some "g", pollTimeout := 0, commitInterval := 1 }
            { script := [.rebalance (.assigned [⟨"t", 0⟩]), .records [⟨⟨"t", 0⟩, 7, 0, []⟩]] }
            Host.listening 0) = (.stopped, s) ∧
        s.phase = .stopped ∧ s.broker.closed = true) ∧
      ∃ e, ∃ s : Relay ScriptedBroker Host,
        run [{}, {}, { arrivals := [.ack ⟨⟨"t", 0⟩, 7⟩, .stop] }]
          (create { topics := ["t"], group := some "g", pollTimeout := 0, commitInterval := 1 }
            { script := [.rebalance (.assigned [⟨"t", 0⟩]), .records [⟨⟨"t", 0⟩, 7, 0, []⟩]],
              refusesCommits := true }
            Host.listening 0) = (.failed e, s) ∧
        s.phase = .stopped ∧ s.broker.closed = false ∧
          s.desk.metrics.total? (.fatalErrors e.kind) = some 1 := by
  constructor
  · obtain ⟨hrun, hphase, hstopped, hwell, -⟩ := run_ends_stopped_or_failed
      { topics := ["t"], group := some "g", pollTimeout := 0, commitInterval := 1 }
      { script := [.rebalance (.assigned [⟨"t", 0⟩]), .records [⟨⟨"t", 0⟩, 7, 0, []⟩]] }
      Host.listening 0 [{}, {}, { arrivals := [.ack ⟨⟨"t", 0⟩, 7⟩, .stop] }] (Prod.eta _).symm
      (by decide +kernel)
    have hend := hstopped.2 ⟨_, List.get_mem _ ⟨11, by decide +kernel⟩, by decide +kernel,
      by decide +kernel, by decide +kernel⟩
    obtain ⟨past, m, -, -, hleft⟩ := (hwell hend).left
    exact ⟨_, (hrun _ rfl).trans (Prod.ext hend rfl), hphase (by decide +kernel), hleft.closed⟩
  · obtain ⟨hrun, hphase, -, -, hfails, -⟩ := run_ends_stopped_or_failed
      { topics := ["t"], group := some "g", pollTimeout := 0, commitInterval := 1 }
      { script := [.rebalance (.assigned [⟨"t", 0⟩]), .records [⟨⟨"t", 0⟩, 7, 0, []⟩]],
        refusesCommits := true }
      Host.listening 0 [{}, {}, { arrivals := [.ack ⟨⟨"t", 0⟩, 7⟩, .stop] }] (Prod.eta _).symm
      (by decide +kernel)
    obtain ⟨e, he, hfailed⟩ := hfails (by decide +kernel) (by decide +kernel)
    refine ⟨e, _, (hrun _ rfl).trans (Prod.ext he rfl), hphase (by decide +kernel),
      hfailed.closed, ?_⟩
    rw [hfailed.errors, if_pos rfl]

end Run

end Relay

end AckRelay
