import AckRelay.Proofs.CatchUp
import AckRelay.Proofs.Relay.Powers

/-!
When the host hears that a relay without a group has caught up. What the relay still waits for is
read off the acknowledgements it has accepted since its start (`expects_of_trail`), and so is the
moment in which the host is told.
-/

namespace AckRelay

def ScriptedBroker.targets (b : ScriptedBroker) : List Position :=
  b.assignment.filterMap fun p => ((b.endOffset? p).filter (0 < ·)).map (⟨p, ·⟩)

theorem ScriptedBroker.mem_targets {b : ScriptedBroker} {p : Partition} {e : Int64} :
    ⟨p, e⟩ ∈ b.targets ↔ (p ∈ b.assignment ∧ b.endOffset? p = some e) ∧ 0 < e := by
  rw [targets, List.mem_filterMap]
  constructor
  · rintro ⟨q, hq, h⟩
    obtain ⟨o, ho, heq⟩ := Option.map_eq_some_iff.1 h
    cases heq
    obtain ⟨hend, hpos⟩ := Option.filter_eq_some_iff.1 ho
    exact ⟨⟨hq, hend⟩, of_decide_eq_true hpos⟩
  · rintro ⟨⟨hp, hend⟩, hpos⟩
    refine ⟨p, hp, ?_⟩
    rw [hend, Option.filter_some, if_pos (decide_eq_true hpos)]
    rfl

variable {ν : Type}

def reached (past : List (Moment ν)) : List Position :=
  past.filterMap fun m => m.accepted?.map Position.next

/-- The moment is the first one after which all targets are reached. -/
def CatchesUp (targets : List Position) (past : List (Moment ν)) (m : Moment ν) : Prop :=
  ¬ targets ⊆ reached past ∧ targets ⊆ reached (past ++ [m])

instance (targets : List Position) (past : List (Moment ν)) (m : Moment ν) :
    Decidable (CatchesUp targets past m) :=
  inferInstanceAs (Decidable (¬ (∀ t ∈ targets, t ∈ _) ∧ ∀ t ∈ targets, t ∈ _))

theorem reached_append (past : List (Moment ν)) (m : Moment ν) :
    reached (past ++ [m]) = reached past ++ (m.accepted?.map Position.next).toList := by
  rw [reached, List.filterMap_append]
  cases h : m.accepted? <;> simp [reached, h]

theorem not_catchesUp {targets : List Position} {past : List (Moment ν)} {m : Moment ν}
    (h : m.accepted? = none) : ¬ CatchesUp targets past m := by
  rintro ⟨hnot, hall⟩
  rw [reached_append, h] at hall
  exact hnot (List.append_nil (reached past) ▸ hall)

namespace Relay

section Start

variable {r s : Relay ScriptedBroker ν}

/-- All lookups succeed, or the request fails. -/
theorem ends_of_lookups {b c d : ScriptedBroker} {ps : List Partition}
    {entries : List (Partition × Int64)}
    (h : (ps.mapM fun p =>
        match b.endOffset? p with
        | some o => pure (p, o)
        | none => throw (.unknownTopic p.topic) : EStateM BrokerError ScriptedBroker _) c =
      .ok entries d) :
    d = c ∧ ∀ p e, (p, e) ∈ entries ↔ p ∈ ps ∧ b.endOffset? p = some e := by
  induction ps generalizing entries c with
  | nil =>
    cases h
    simp
  | cons q ps ih =>
    rw [List.mapM_cons] at h
    obtain ⟨entry, c', hq, h⟩ := bind_eq_ok.1 h
    obtain ⟨rest, d', hrest, h⟩ := bind_eq_ok.1 h
    cases h
    cases ho : b.endOffset? q with
    | none =>
      rw [ho] at hq
      cases hq
    | some o =>
      rw [ho] at hq
      cases hq
      obtain ⟨rfl, hmem⟩ := ih hrest
      refine ⟨rfl, fun p e => ?_⟩
      rw [List.mem_cons, List.mem_cons, hmem, Prod.mk.injEq]
      constructor
      · rintro (⟨rfl, rfl⟩ | ⟨hp, he⟩)
        · exact ⟨Or.inl rfl, ho⟩
        · exact ⟨Or.inr hp, he⟩
      · rintro ⟨rfl | hp, he⟩
        · exact Or.inl ⟨rfl, Option.some.inj (he.symm.trans ho)⟩
        · exact Or.inr ⟨hp, he⟩

theorem endOffsets_of_ask {ps : List Partition} {ends : Offsets}
    (h : ask (Broker.endOffsets ps) r = .ok ends s) :
    s = { r with broker := r.broker.noted (.endOffsets ps) } ∧
      ∀ p e, ends.get? p = some e ↔ p ∈ ps ∧ s.broker.endOffset? p = some e := by
  rw [ask_apply] at h
  cases ho : (Broker.endOffsets ps : EStateM _ ScriptedBroker _) r.broker with
  | error e c =>
    rw [ho] at h
    cases h
  | ok found c =>
    rw [ho] at h
    cases h
    obtain ⟨_, b, hnote, hb⟩ := bind_eq_ok.1 ho
    obtain ⟨_, _, hget, hb⟩ := bind_eq_ok.1 hb
    cases hget
    obtain ⟨entries, d, hlook, hb⟩ := bind_eq_ok.1 hb
    cases hb
    obtain ⟨hsame, hmem⟩ := ends_of_lookups hlook
    have hnoted : b = r.broker.noted (.endOffsets ps) := by
      rcases ScriptedBroker.note_cases (.endOffsets ps) r.broker with hn | ⟨e, hn⟩ <;>
        cases hn.symm.trans hnote
      rfl
    rw [hsame]
    refine ⟨by rw [hnoted], fun p e => ?_⟩
    have hone : ∀ (q : Partition) (u v : Int64), (q, u) ∈ entries → (q, v) ∈ entries → u = v := by
      intro q u v hu hv
      have hu' := ((hmem q u).1 hu).2
      have hv' := ((hmem q v).1 hv).2
      exact Option.some.inj (hu'.symm.trans hv')
    rw [PartitionMap.get?_ofList hone, hmem]

variable [Notifier ν]

structure Opened (r s : Relay ScriptedBroker ν) : Prop where
  awaits : ∃ catchUp, s.desk.mode = .anonymous catchUp ∧ catchUp.Awaits s.broker.targets []
  told : Takes
    (.assigned s.broker.assignment :: if s.broker.targets = [] then [.caughtUp] else [])
    r.desk.notifier s.desk.notifier

theorem opened_of_ok {u : Unit} (h : startAnonymous r = .ok u s) : Opened r s := by
  obtain ⟨ps, ends, r₁, r₂, r₃, r₄, hps, hassign, hends, htell, h⟩ := startAnonymous_eq_ok h
  have hwithin : Within [] r r₁ := (within_partitionsOf r.topics).ok hps
  have hr₁ : r₁.desk.notifier = r.desk.notifier :=
    hwithin.told.eq_of_silent fun _ => List.not_mem_nil
  have hr₂ := change_eq_ok hassign
  obtain ⟨hr₃, hlookup⟩ := endOffsets_of_ask hends
  obtain ⟨w, hw, hr₄⟩ := tell_eq_ok htell
  have hbroker : r₄.broker = r₃.broker := by rw [hr₄]
  have hassignment : r₃.broker.assignment = ps := by rw [hr₃, hr₂]; rfl
  have hfirst : Takes [.assigned ps] r.desk.notifier r₄.desk.notifier := by
    rw [hr₄, ← hr₁]
    rw [hr₃, hr₂] at hw
    exact hw
  have htargets : ∀ p e, ⟨p, e⟩ ∈ r₃.broker.targets ↔ ends.get? p = some e ∧ 0 < e := by
    intro p e
    rw [ScriptedBroker.mem_targets, hlookup, hassignment]
  obtain ⟨hawaits, hcaught⟩ := CatchUp.awaits_ofEnds htargets
  rw [← hbroker] at hawaits hcaught hassignment
  split at h
  · next htrue =>
    have hnil := hcaught.1 htrue
    obtain ⟨_, r₅, hlast, h⟩ := bind_eq_ok.1 h
    obtain ⟨v, hv, hr₅⟩ := tell_eq_ok hlast
    cases h
    subst hr₅
    refine ⟨⟨_, rfl, hawaits⟩, ?_⟩
    show Takes (.assigned r₄.broker.assignment ::
      if r₄.broker.targets = [] then [.caughtUp] else []) r.desk.notifier v
    rw [hnil, hassignment]
    exact hfirst.append hv
  · next hfalse =>
    have hsome : r₄.broker.targets ≠ [] := fun hnil => hfalse (hcaught.2 hnil)
    cases h
    refine ⟨⟨_, rfl, hawaits⟩, ?_⟩
    show Takes (.assigned r₄.broker.assignment ::
      if r₄.broker.targets = [] then [.caughtUp] else []) r.desk.notifier r₄.desk.notifier
    rw [if_neg hsome, hassignment]
    exact hfirst

/-- The ends of partitions with records that the relay finds at its start. -/
def foundEnds (r : Relay ScriptedBroker ν) : List Position := (endState start r).broker.targets

end Start

section Acknowledge

variable {r s : Relay ScriptedBroker ν} {catchUp : CatchUp}

theorem mode_of_waiting (h : r.desk.mode.waiting? = some catchUp) :
    r.desk.mode = .anonymous catchUp := by
  cases hm : r.desk.mode with
  | grouped batch =>
    rw [hm] at h
    cases h
  | anonymous c =>
    rw [hm] at h
    cases h
    rfl

theorem accepted_of_ack (hm : r.desk.mode = .anonymous catchUp) (pos : Position) :
    (⟨r, .obey (.ack pos)⟩ : Moment ν).accepted? =
      (r.desk.flow.acknowledge? pos.partition).map fun _ => pos := by
  have hignores : r.ignores pos.partition = false := by
    rw [ignores, hm]
    rfl
  simp only [Moment.accepted?, hignores, Bool.false_eq_true, ↓reduceIte]

variable [Notifier ν]

/-- The relay after it has taken an acknowledgement, before it may tell the host of it. -/
def released (pos : Position) (catchUp : CatchUp) (flow : FlowControl)
    (r : Relay ScriptedBroker ν) : Relay ScriptedBroker ν :=
  ((r.counting (.ack pos)).setFlow flow).setMode (.anonymous (catchUp.acknowledge pos).2)

theorem perform_ack (hm : r.desk.mode = .anonymous catchUp) (pos : Position) :
    perform (.obey (.ack pos)) r =
      match r.desk.flow.acknowledge? pos.partition with
      | some flow =>
        ((if (catchUp.acknowledge pos).1 then tell .caughtUp else pure ()) >>= fun _ =>
          pure Flow.goOn) (r.released pos catchUp flow)
      | none => .error (.failed (.protocolViolation pos.partition)) (r.counting (.ack pos)) := by
  have hmode : (r.counting (.ack pos)).desk.mode = .anonymous catchUp := hm
  have hack := acknowledge_of_anonymous hmode pos
  have hflow : (r.counting (.ack pos)).desk.flow = r.desk.flow := rfl
  rw [hflow] at hack
  rw [perform, obey_apply]
  simp only [bind_apply, hack]
  cases r.desk.flow.acknowledge? pos.partition <;> rfl

/-- After an acknowledgement that was accepted the relay waits for what it was to wait for less the
position that is reached. The host is told if nothing is left, and only its refusal to hear that
ends the relay. -/
inductive Credited (pos : Position) (catchUp : CatchUp) (r s : Relay ScriptedBroker ν) : Prop
  | waits (hfires : (catchUp.acknowledge pos).1 = false)
      (hs : perform (.obey (.ack pos)) r = .ok .goOn s)
      (hmode : s.desk.mode = .anonymous (catchUp.acknowledge pos).2)
      (hsilent : s.desk.notifier = r.desk.notifier)
  | tells (hfires : (catchUp.acknowledge pos).1 = true)
      (hs : perform (.obey (.ack pos)) r = .ok .goOn s)
      (hmode : s.desk.mode = .anonymous (catchUp.acknowledge pos).2)
      (htold : Takes [.caughtUp] r.desk.notifier s.desk.notifier)
  | refused (hfires : (catchUp.acknowledge pos).1 = true) (e : NotifyError)
      (hs : perform (.obey (.ack pos)) r = .error (.failed (.notify e)) s)

theorem credited_of_ack (hm : r.desk.mode = .anonymous catchUp) {pos : Position}
    {flow : FlowControl} (hflow : r.desk.flow.acknowledge? pos.partition = some flow) :
    Credited pos catchUp r (endState (perform (.obey (.ack pos))) r) := by
  have hp := perform_ack hm pos
  rw [hflow] at hp
  simp only at hp
  cases hfires : (catchUp.acknowledge pos).1 with
  | false =>
    rw [hfires] at hp
    rw [endState_of_ok hp]
    exact .waits hfires hp rfl rfl
  | true =>
    have htell := tell_apply .caughtUp (r.released pos catchUp flow)
    have hsame : (r.released pos catchUp flow).desk.notifier = r.desk.notifier := rfl
    rw [hsame] at htell
    rw [hfires, if_pos rfl, bind_apply, htell] at hp
    cases he : Notifier.emit .caughtUp r.desk.notifier with
    | ok u w =>
      rw [he] at hp
      rw [endState_of_ok hp]
      exact .tells hfires hp rfl (.one he)
    | error e w =>
      rw [he] at hp
      rw [endState_of_error hp]
      exact .refused hfires e hp

end Acknowledge

section Life

variable {settings : RelaySettings} {b : ScriptedBroker} {now : Nat} {ts : List Round}

def Expects (targets : List Position) (past : List (Moment ν)) (r : Relay ScriptedBroker ν) :
    Prop :=
  ∃ catchUp, r.desk.mode.waiting? = some catchUp ∧ catchUp.Awaits targets (reached past)

variable {w : ν} {targets : List Position} {past : List (Moment ν)} {m n : Moment ν}
  {s t : Relay ScriptedBroker ν} {flow : Flow}

theorem expects_of_same (h : Expects targets past m.before)
    (hwaiting : t.desk.mode.waiting? = m.before.desk.mode.waiting?) (hnone : m.accepted? = none) :
    Expects targets (past ++ [m]) t := by
  obtain ⟨catchUp, hm, hawaits⟩ := h
  refine ⟨catchUp, hwaiting.trans hm, ?_⟩
  rw [reached_append, hnone]
  exact (List.append_nil (reached past)).symm ▸ hawaits

variable [Notifier ν]

omit [Notifier ν] in
/-- Only a start and an acknowledgement have to do with what is waited for. -/
theorem expect_not_mem_of_other {a : Act} (hstart : a ≠ .start)
    (hack : ∀ pos, a ≠ .obey (.ack pos)) (grouped : Bool) : .expect ∉ a.powers grouped := by
  rw [Act.expect_mem_powers]
  rintro ⟨-, h | ⟨pos, h⟩⟩
  · exact hstart h
  · exact hack pos h

theorem expects_step (hstart : m.act ≠ .start) (h : Expects targets past m.before)
    (hp : perform m.act m.before = .ok flow t) : Expects targets (past ++ [m]) t := by
  have hafter : endState (perform m.act) m.before = t := endState_of_ok hp
  by_cases hack : ∃ pos, m.act = .obey (.ack pos)
  · obtain ⟨pos, hact⟩ := hack
    obtain ⟨catchUp, hm, hawaits⟩ := h
    have hmode := mode_of_waiting hm
    obtain ⟨r, a⟩ := m
    subst hact
    have haccepted := accepted_of_ack hmode pos
    have hnext := (CatchUp.awaits_acknowledge hawaits pos).1
    cases hflow : r.desk.flow.acknowledge? pos.partition with
    | none =>
      have herror := perform_ack hmode pos
      rw [hflow] at herror
      cases herror.symm.trans hp
    | some f =>
      rw [hflow] at haccepted
      have hcredited := credited_of_ack hmode hflow
      rw [hafter] at hcredited
      refine ⟨(catchUp.acknowledge pos).2, ?_, ?_⟩
      · cases hcredited with
        | waits _ _ hmode _ => rw [hmode]; rfl
        | tells _ _ hmode _ => rw [hmode]; rfl
        | refused _ e hs => cases hs.symm.trans hp
      · rw [reached_append, haccepted]
        exact hnext
  · have hother : ∀ pos, m.act ≠ .obey (.ack pos) := fun pos hact => hack ⟨pos, hact⟩
    have hwithin := within_perform m.act m.before
    rw [hafter] at hwithin
    have hwaiting := hwithin.waiting (expect_not_mem_of_other hstart hother _)
    exact expects_of_same h hwaiting (accepted_of_other hother)

/-- From its start on a relay without a group waits for just what is not reached. -/
theorem expects_of_trail (hg : settings.group = none)
    (h : past ++ [m] <+: trail (lifeOf ts) (create settings b w now)) (hact : m.act ≠ .start) :
    Expects (foundEnds (create settings b w now)) past m.before := by
  refine trail_induction (I := fun past m => m.act ≠ .start →
    Expects (foundEnds (create settings b w now)) past m.before)
    (fun m hm hact => ?_) (fun past m n hn hm _ => ?_) past m h hact
  · exact absurd (act_of_first hm) hact
  · have hp := perform_of_next hn
    by_cases hfirst : m.act = .start
    · have hbefore := before_of_start (prefix_of_next hn) hfirst
      have hpast : past = [] := by
        apply Classical.byContradiction
        intro hne
        exact act_of_later hne (prefix_of_next hn) hfirst
      subst hpast
      rw [hfirst, hbefore] at hp
      have hstart := ok_of_bind_pure hp
      rw [foundEnds, endState_of_ok hstart]
      rw [start_of_anonymous (by rw [create, hg])] at hstart
      obtain ⟨catchUp, hcatchUp, hawaits⟩ := (opened_of_ok hstart).awaits
      refine ⟨catchUp, by rw [hcatchUp]; rfl, ?_⟩
      have hnone : m.accepted? = none := accepted_of_other fun pos hpos => by
        rw [hfirst] at hpos
        cases hpos
      rw [reached_append, hnone]
      exact hawaits
    · exact expects_step hfirst (hm hfirst) hp

end Life

section Told

variable [Notifier ν] {settings : RelaySettings} {b : ScriptedBroker} {now : Nat} {ts : List Round}
  {w : Transcript ν} {targets : List Position} {past : List (Moment (Transcript ν))}
  {m : Moment (Transcript ν)} {s t : Relay ScriptedBroker (Transcript ν)} {flow : Flow}

theorem heard_of_takes {ns : List Notification}
    (h : Takes ns m.before.desk.notifier m.after.desk.notifier) : m.heard = ns :=
  heard_of_append h.sent

theorem heard_of_silence (h : m.after.desk.notifier = m.before.desk.notifier) : m.heard = [] := by
  apply heard_of_append
  rw [h, List.append_nil]

/-- After the start the host hears that the relay has caught up in the very moment in which the last
target is reached. -/
theorem heard_of_expects (h : Expects targets past m.before) (hstart : m.act ≠ .start) :
    (CatchesUp targets past m →
        m.heard = [.caughtUp] ∨ ∃ e, perform m.act m.before = .error (.failed (.notify e)) m.after) ∧
      (¬ CatchesUp targets past m → .caughtUp ∉ m.heard) := by
  by_cases hack : ∃ pos, m.act = .obey (.ack pos)
  · obtain ⟨pos, hact⟩ := hack
    obtain ⟨catchUp, hm, hawaits⟩ := h
    have hmode := mode_of_waiting hm
    obtain ⟨r, a⟩ := m
    subst hact
    have haccepted := accepted_of_ack hmode pos
    cases hflow : r.desk.flow.acknowledge? pos.partition with
    | none =>
      rw [hflow] at haccepted
      have hnever : ¬ CatchesUp targets past ⟨r, .obey (.ack pos)⟩ := not_catchesUp haccepted
      have herror := perform_ack hmode pos
      rw [hflow] at herror
      have hsilent := heard_of_silence (m := ⟨r, .obey (.ack pos)⟩)
        (congrArg (·.desk.notifier) (endState_of_error herror))
      refine ⟨fun hcatches => absurd hcatches hnever, fun _ hmem => ?_⟩
      rw [hsilent] at hmem
      cases hmem
    | some flow =>
      rw [hflow] at haccepted
      have hcatches : CatchesUp targets past ⟨r, .obey (.ack pos)⟩ ↔
          (catchUp.acknowledge pos).1 = true := by
        rw [(CatchUp.awaits_acknowledge hawaits pos).2, CatchesUp, reached_append, haccepted]
        rfl
      rw [hcatches]
      have hcredited := credited_of_ack hmode hflow
      cases hcredited with
      | waits hfires _ _ hsilent =>
        rw [hfires]
        refine ⟨fun hfalse => absurd hfalse Bool.false_ne_true, fun _ hmem => ?_⟩
        rw [heard_of_silence (m := ⟨r, .obey (.ack pos)⟩) hsilent] at hmem
        cases hmem
      | tells hfires _ _ htold =>
        have hheard := heard_of_takes (m := ⟨r, .obey (.ack pos)⟩) htold
        exact ⟨fun _ => Or.inl hheard, fun hfalse => absurd hfires hfalse⟩
      | refused hfires e hs => exact ⟨fun _ => Or.inr ⟨e, hs⟩, fun hfalse => absurd hfires hfalse⟩
  · have hother : ∀ pos, m.act ≠ .obey (.ack pos) := fun pos hact => hack ⟨pos, hact⟩
    have hnever : ¬ CatchesUp targets past m := not_catchesUp (accepted_of_other hother)
    refine ⟨fun hcatches => absurd hcatches hnever, fun _ => ?_⟩
    have hpower := expect_not_mem_of_other hstart hother m.before.isGrouped
    exact not_heard fun htell => hpower (Act.caughtUp_mem_powers.1 htell)

/-- At a start that succeeds the host hears of the partitions, and if none of them has records also
that there is nothing to catch up with. -/
theorem heard_of_start (hg : settings.group = none)
    (h : past ++ [m] <+: trail (lifeOf ts) (create settings b w now)) (hact : m.act = .start)
    (hp : perform m.act m.before = .ok flow t) :
    m.heard = .assigned t.broker.assignment ::
      if foundEnds (create settings b w now) = [] then [.caughtUp] else [] := by
  have hafter : m.after = t := endState_of_ok hp
  have hbefore := before_of_start h hact
  rw [hact, hbefore] at hp
  have hstart := ok_of_bind_pure hp
  rw [foundEnds, endState_of_ok hstart]
  rw [start_of_anonymous (by rw [create, hg])] at hstart
  apply heard_of_takes
  rw [hafter, hbefore]
  exact (opened_of_ok hstart).told

def timesCaughtUp (past : List (Moment (Transcript ν))) : Nat :=
  (past.flatMap Moment.heard).count .caughtUp

theorem timesCaughtUp_append (past : List (Moment (Transcript ν))) (m : Moment (Transcript ν)) :
    timesCaughtUp (past ++ [m]) = timesCaughtUp past + m.heard.count .caughtUp := by
  rw [timesCaughtUp, List.flatMap_append, List.count_append, List.flatMap_singleton]
  rfl

def ToldOnce (targets : List Position) (past : List (Moment (Transcript ν))) : Prop :=
  (targets ⊆ reached past → timesCaughtUp past = 1) ∧
    (¬ targets ⊆ reached past → timesCaughtUp past = 0)

theorem toldOnce_of_start (hg : settings.group = none)
    (h : [m] <+: trail (lifeOf ts) (create settings b w now))
    (hp : perform m.act m.before = .ok flow t) :
    ToldOnce (foundEnds (create settings b w now)) [m] := by
  have hact := act_of_first h
  have hheard := heard_of_start hg (List.nil_append [m] ▸ h) hact hp
  have hnone : m.accepted? = none := accepted_of_other fun pos hpos => by
    rw [hact] at hpos
    cases hpos
  have hreached : reached [m] = [] := by
    rw [reached, List.filterMap_cons, hnone]
    rfl
  have htimes : timesCaughtUp [m] = m.heard.count .caughtUp := by
    rw [timesCaughtUp, List.flatMap_singleton]
  rw [ToldOnce, hreached, htimes, hheard, List.subset_nil]
  constructor
  · intro hnil
    rw [if_pos hnil]
    rfl
  · intro hsome
    rw [if_neg hsome]
    rfl

theorem toldOnce_step (hexpects : Expects targets past m.before) (hact : m.act ≠ .start)
    (hp : perform m.act m.before = .ok flow t) (h : ToldOnce targets past) :
    ToldOnce targets (past ++ [m]) := by
  obtain ⟨hcatches, hnot⟩ := heard_of_expects hexpects hact
  have hmore : targets ⊆ reached past → targets ⊆ reached (past ++ [m]) := by
    intro hall
    rw [reached_append]
    exact List.Subset.trans hall (List.subset_append_left _ _)
  rw [ToldOnce, timesCaughtUp_append]
  constructor
  · intro hall
    by_cases hbefore : targets ⊆ reached past
    · rw [h.1 hbefore, List.count_eq_zero_of_not_mem (hnot fun hc => hc.1 hbefore)]
    · rcases hcatches ⟨hbefore, hall⟩ with hheard | ⟨e, he⟩
      · rw [h.2 hbefore, hheard]
        rfl
      · cases he.symm.trans hp
  · intro hsome
    have hbefore : ¬ targets ⊆ reached past := fun hall => hsome (hmore hall)
    rw [h.2 hbefore, List.count_eq_zero_of_not_mem (hnot fun hc => hsome hc.2)]

theorem toldOnce_of_trail (hg : settings.group = none)
    (h : past ++ [m] <+: trail (lifeOf ts) (create settings b w now))
    (hp : perform m.act m.before = .ok flow t) :
    ToldOnce (foundEnds (create settings b w now)) (past ++ [m]) := by
  -- by induction on the past from its end; every moment before the last one has succeeded
  induction past using List.reverseRecOn generalizing m flow t with
  | nil => exact toldOnce_of_start hg h hp
  | append_singleton past k ih =>
    have hnext : past ++ [k, m] <+: trail (lifeOf ts) (create settings b w now) := by
      rw [List.append_assoc] at h
      exact h
    have hact : m.act ≠ .start := act_of_later (by simp) h
    exact toldOnce_step (expects_of_trail hg h hact) hact hp
      (ih (prefix_of_next hnext) (perform_of_next hnext))

/-- A member of a group never tells the host that it has caught up. A relay without a group that has
started tells it at most once: right after its partitions, if none of them has records, and
otherwise in the moment in which an acknowledgement reaches the last of their ends. Only a host that
refuses to hear it is not told, and then the relay ends. -/
theorem caught_up_is_told_at_last_end (settings : RelaySettings) (b : ScriptedBroker)
    (w : Transcript ν) (now : Nat) (ts : List Round) :
    (live (lifeOf ts) (create settings b w now)).2.desk.notifier.sent =
        w.sent ++ (trail (lifeOf ts) (create settings b w now)).flatMap Moment.heard ∧
      (settings.group ≠ none →
        ∀ m ∈ trail (lifeOf ts) (create settings b w now), .caughtUp ∉ m.heard) ∧
      (settings.group = none →
        ∀ past m, past ++ [m] <+: trail (lifeOf ts) (create settings b w now) →
          (m.succeeds = true → timesCaughtUp (past ++ [m]) ≤ 1) ∧
          (m.act = .start → m.succeeds = true → m.heard = .assigned m.after.broker.assignment ::
            if foundEnds (create settings b w now) = [] then [.caughtUp] else []) ∧
          (m.act ≠ .start →
            (CatchesUp (foundEnds (create settings b w now)) past m →
              m.heard = [.caughtUp] ∨ ∃ e, perform m.act m.before = .error (.failed (.notify e)) m.after) ∧
            (¬ CatchesUp (foundEnds (create settings b w now)) past m → .caughtUp ∉ m.heard))) := by
  refine ⟨sent_live _ _, fun hg m hm => ?_, fun hg past m h => ⟨?_, ?_, ?_⟩⟩
  · obtain ⟨past, hpast⟩ := exists_past hm
    apply not_heard
    rw [isGrouped_of_trail hg hpast]
    intro htell
    cases (Act.expect_mem_powers.1 (Act.caughtUp_mem_powers.1 htell)).1
  · intro hok
    obtain ⟨flow, hp⟩ := perform_of_succeeds hok
    obtain ⟨hone, hnever⟩ := toldOnce_of_trail hg h hp
    by_cases hall : foundEnds (create settings b w now) ⊆ reached (past ++ [m])
    · exact (hone hall).le
    · exact (hnever hall).le.trans (Nat.zero_le 1)
  · intro hact hok
    obtain ⟨flow, hp⟩ := perform_of_succeeds hok
    exact heard_of_start hg h hact hp
  · intro hact
    exact heard_of_expects (expects_of_trail hg h hact) hact

/-- Of two partitions the second one is empty. The host hears that the relay has caught up when the
last record of the first one is acknowledged, after another that comes too early. -/
theorem caught_up_is_told_at_last_record :
    ∃ past m, past ++ [m] <+:
        trail (lifeOf [{}, { arrivals := [.ack ⟨⟨"t", 0⟩, 0⟩, .ack ⟨⟨"t", 0⟩, 1⟩] }])
          (create { topics := ["t"], group := none, pollTimeout := 0, commitInterval := 1 }
            { topics := [("t", [2, 0])],
              script := [.records [⟨⟨"t", 0⟩, 0, 0, []⟩, ⟨⟨"t", 0⟩, 1, 0, []⟩]] }
            ({ through := .listening } : Transcript Host) 0) ∧
      m.act = .obey (.ack ⟨⟨"t", 0⟩, 1⟩) ∧
        (m.heard = [.caughtUp] ∨ ∃ e, perform m.act m.before = .error (.failed (.notify e)) m.after) := by
  refine ⟨_, _, prefix_of_get _ 7 (by decide +kernel), by decide +kernel, ?_⟩
  exact (((caught_up_is_told_at_last_end _ _ _ _ _).2.2 rfl _ _
    (prefix_of_get _ 7 (by decide +kernel))).2.2 (by decide +kernel)).1 (by decide +kernel)

/-- Some record right before the target was acknowledged, and accepted. -/
def Reaches (past : List (Moment ν)) (target : Position) : Prop :=
  ∃ k ∈ past, ∃ pos, k.accepted? = some pos ∧ pos.partition = target.partition ∧
    nextOffset pos.offset = target.offset

omit [Notifier ν] in
theorem mem_reached {past : List (Moment ν)} {target : Position} :
    target ∈ reached past ↔ Reaches past target := by
  rw [reached, List.mem_filterMap, Reaches]
  constructor
  · rintro ⟨k, hk, hnext⟩
    obtain ⟨pos, hpos, rfl⟩ := Option.map_eq_some_iff.1 hnext
    exact ⟨k, hk, pos, hpos, rfl, rfl⟩
  · rintro ⟨k, hk, pos, hpos, hpartition, hoffset⟩
    refine ⟨k, hk, ?_⟩
    rw [hpos, Option.map_some, Position.next, hpartition, hoffset]

/-- What the host has heard of a relay without a group depends only on which records were
acknowledged: as long as the one right before some end is missing it has not heard that the relay
has caught up, and from then on it has heard it once. Other acknowledgements make no difference, not
even those of records that come later in the log. -/
theorem caught_up_once_last_records_are_acknowledged (settings : RelaySettings)
    (hg : settings.group = none) (b : ScriptedBroker) (w : Transcript ν) (now : Nat)
    (ts : List Round) (past : List (Moment (Transcript ν))) (m : Moment (Transcript ν))
    (h : past ++ [m] <+: trail (lifeOf ts) (create settings b w now)) (hok : m.succeeds = true) :
    m.after.desk.notifier.sent = w.sent ++ (past ++ [m]).flatMap Moment.heard ∧
      ((∀ target ∈ foundEnds (create settings b w now), Reaches (past ++ [m]) target) →
        timesCaughtUp (past ++ [m]) = 1) ∧
      ∀ target ∈ foundEnds (create settings b w now), ¬ Reaches (past ++ [m]) target →
        timesCaughtUp (past ++ [m]) = 0 := by
  obtain ⟨flow, hp⟩ := perform_of_succeeds hok
  obtain ⟨hone, hnever⟩ := toldOnce_of_trail hg h hp
  refine ⟨?_, fun hall => hone fun target ht => mem_reached.2 (hall target ht),
    fun target ht hmissing => hnever fun hall => hmissing (mem_reached.1 (hall ht))⟩
  rw [(sent_after m).1, sent_before h, List.flatMap_append, List.flatMap_singleton,
    List.append_assoc]
  rfl

/-- Both records of a partition are acknowledged, the last one first. -/
theorem caught_up_once_last_record_is_acknowledged_first :
    ∃ past m, past ++ [m] <+:
        trail (lifeOf [{}, { arrivals := [.ack ⟨⟨"t", 0⟩, 1⟩, .ack ⟨⟨"t", 0⟩, 0⟩] }])
          (create { topics := ["t"], group := none, pollTimeout := 0, commitInterval := 1 }
            { topics := [("t", [2, 0])],
              script := [.records [⟨⟨"t", 0⟩, 0, 0, []⟩, ⟨⟨"t", 0⟩, 1, 0, []⟩]] }
            ({ through := .listening } : Transcript Host) 0) ∧
      m.act = .obey (.ack ⟨⟨"t", 0⟩, 0⟩) ∧ timesCaughtUp (past ++ [m]) = 1 := by
  refine ⟨_, _, prefix_of_get _ 7 (by decide +kernel), by decide +kernel, ?_⟩
  refine (caught_up_once_last_records_are_acknowledged _ rfl _ _ _ _ _ _
    (prefix_of_get _ 7 (by decide +kernel)) (by decide +kernel)).2.1 ?_
  intro target ht
  refine mem_reached.1 ?_
  revert target ht
  decide +kernel

/-- In a log with a gap right before its end no record is the one right before the end, and reading
past the gap does not make up for it. -/
theorem caught_up_is_not_told_past_a_gap :
    ¬ ∀ (settings : RelaySettings) (b : ScriptedBroker) (ts : List Round), settings.group = none →
      (∀ target ∈ foundEnds (create settings b ({ through := .listening } : Transcript Host) 0),
        ∃ m ∈ trail (lifeOf ts) (create settings b ({ through := .listening } : Transcript Host) 0),
          ∃ pos, m.accepted? = some pos ∧ pos.partition = target.partition ∧
            target.offset.toInt - 1 ≤ pos.offset.toInt) →
      .caughtUp ∈ (live (lifeOf ts) (create settings b
        ({ through := .listening } : Transcript Host) 0)).2.desk.notifier.sent := by
  intro h
  refine absurd (h { topics := ["t"], group := none, pollTimeout := 0, commitInterval := 1 }
    { topics := [("t", [3])],
      script := [.records [⟨⟨"t", 0⟩, 0, 0, []⟩, ⟨⟨"t", 0⟩, 1, 0, []⟩, ⟨⟨"t", 0⟩, 3, 0, []⟩]] }
    [{}, { arrivals := [.ack ⟨⟨"t", 0⟩, 0⟩, .ack ⟨⟨"t", 0⟩, 1⟩, .ack ⟨⟨"t", 0⟩, 3⟩] }] rfl ?_)
    (by decide +kernel)
  intro target ht
  refine ⟨_, List.get_mem _ ⟨8, by decide +kernel⟩, ⟨⟨"t", 0⟩, 3⟩, by decide +kernel, ?_⟩
  revert target ht
  decide +kernel

end Told

end Relay

end AckRelay
