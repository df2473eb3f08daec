import AckRelay.Proofs.Relay.Settlement

/-!
The acknowledgements of a host that answers the records it gets, each at most once and those of a
partition in order. An acknowledgement may be on its way for any time. While none is late, which it
is when its record came before the partition was given up and others have come since, each finds
its record pending or is ignored; a late one takes the place of another, which is then blamed.
-/

namespace AckRelay

structure Tally where
  /-- The positions of its records, in order. -/
  told : List Position := []
  spent : Nat := 0

namespace Tally

def hear (p : Partition) (t : Tally) : Notification → Tally
  | .record r => if r.partition = p then { t with told := t.told ++ [r.position] } else t
  | .unassigned ps => if p ∈ ps then { t with spent := t.told.length } else t
  | .consuming | .caughtUp | .assigned _ | .committed _ => t

def after (p : Partition) (t : Tally) (ns : List Notification) : Tally := ns.foldl (hear p) t

variable {p : Partition} {t : Tally}

theorem after_append (ms ns : List Notification) :
    t.after p (ms ++ ns) = (t.after p ms).after p ns :=
  List.foldl_append

theorem after_of_quiet {ns : List Notification} (h : ∀ n ∈ ns, n.isOfRecords = false) :
    t.after p ns = t := by
  induction ns with
  | nil => rfl
  | cons n ns ih =>
    have hn : t.hear p n = t := by
      have hquiet := h n List.mem_cons_self
      cases n <;> first | rfl | cases hquiet
    rw [after, List.foldl_cons, hn]
    exact ih fun k hk => h k (List.mem_cons_of_mem n hk)

theorem after_records (rs : List Record) :
    t.after p (rs.map .record) =
      { t with told := t.told ++ (rs.filter (·.partition = p)).map Record.position } := by
  induction rs generalizing t with
  | nil => simp [after]
  | cons r rs ih =>
    rw [List.map_cons, after, List.foldl_cons]
    refine ih.trans ?_
    by_cases hr : r.partition = p <;> simp [hear, hr]

theorem after_unassigned (ps : List Partition) :
    t.after p (if ps = [] then [] else [.unassigned ps]) =
      if p ∈ ps then { t with spent := t.told.length } else t := by
  by_cases hps : ps = []
  · simp [hps, after]
  · rw [if_neg hps]
    rfl

/-- The news of a poll tell that a partition is given up exactly if it is. -/
theorem after_news (b : ScriptedBroker) :
    t.after p (b.change?.elim [] Rebalance.news) =
      if p ∈ b.surrendered then { t with spent := t.told.length } else t := by
  rw [ScriptedBroker.surrendered]
  cases b.change? with
  | none => rfl
  | some change =>
    cases change with
    | assigned ps =>
      by_cases hps : ps = [] <;> simp [Rebalance.news, Rebalance.released, hps, after, hear]
    | revoked ps => exact after_unassigned ps
    | lost ps => exact after_unassigned ps

end Tally

namespace Moment

variable {ν : Type}

def ack? (m : Moment ν) : Option Position :=
  match m.act with
  | .obey (.ack pos) => some pos
  | _ => none

/-- Whether an acknowledgement for the partition is obeyed in the moment. -/
def answers (m : Moment ν) (p : Partition) : Bool := m.ack?.any (·.partition = p)

theorem answers_iff {m : Moment ν} {p : Partition} :
    m.answers p = true ↔ ∃ pos, m.ack? = some pos ∧ pos.partition = p := by
  simp [answers, Option.any_eq_true]

def tally (m : Moment (Transcript ν)) (p : Partition) : Tally :=
  Tally.after p {} m.before.desk.notifier.sent

/-- The answer to the `k`-th record of a partition is late: the partition was given up after that
record, and brought others since. -/
def IsLate (m : Moment (Transcript ν)) (p : Partition) (k : Nat) : Prop :=
  k < (m.tally p).spent ∧ (m.tally p).spent < (m.tally p).told.length

instance (m : Moment (Transcript ν)) (p : Partition) (k : Nat) : Decidable (m.IsLate p k) :=
  inferInstanceAs (Decidable (_ ∧ _))

end Moment

/-- The acknowledgements of a life answer records: the one in the `i`-th moment answers the
`nth i`-th record of its partition that the host has got by then, and those of one partition answer
its records in order. -/
structure Answers {ν : Type} (ms : List (Moment (Transcript ν))) (nth : Nat → Nat) : Prop where
  heard : ∀ i : Fin ms.length, ∀ pos ∈ (ms.get i).ack?,
    ((ms.get i).tally pos.partition).told[nth i]? = some pos
  ordered : ∀ i j : Fin ms.length, i < j → ∀ pos ∈ (ms.get i).ack?, ∀ pos' ∈ (ms.get j).ack?,
    pos.partition = pos'.partition → nth i < nth j

/-- No answer for the partition that has come since the partition was last given up before the
moment `i`, the one of this moment included, is late. Up to a late one as many records were spent as
before the moment exactly if the partition was not given up in between. -/
def NoneLate {ν : Type} (ms : List (Moment (Transcript ν))) (nth : Nat → Nat) (p : Partition)
    (i : Fin ms.length) : Prop :=
  ∀ j ≤ i, (ms.get j).answers p = true →
    ((ms.get j).tally p).spent = ((ms.get i).tally p).spent → ¬ (ms.get j).IsLate p (nth j)

instance {ν : Type} (ms : List (Moment (Transcript ν))) (nth : Nat → Nat) (p : Partition)
    (i : Fin ms.length) : Decidable (NoneLate ms nth p i) :=
  inferInstanceAs (Decidable (∀ j, j ≤ i → _ → _ → ¬ _))

namespace Relay

variable {ν : Type} {nth : Nat → Nat} {p : Partition}

structure Answered (nth : Nat → Nat) (p : Partition) (c spent : Nat)
    (past : List (Moment (Transcript ν))) : Prop where
  below : ∀ i (m : Moment (Transcript ν)), past[i]? = some m → m.answers p = true → nth i < c
  timely : ∀ i (m : Moment (Transcript ν)), past[i]? = some m → m.answers p = true →
    (m.tally p).spent = spent → ¬ m.IsLate p (nth i)

theorem Answered.of_append {c spent : Nat} {past : List (Moment (Transcript ν))}
    {m : Moment (Transcript ν)} (h : Answered nth p c spent (past ++ [m])) :
    Answered nth p c spent past := by
  have hget : ∀ {i : Nat} {k : Moment (Transcript ν)}, past[i]? = some k →
      (past ++ [m])[i]? = some k := by
    intro i k hk
    rw [List.getElem?_append_left (List.getElem?_eq_some_iff.1 hk).1, hk]
  exact ⟨fun i k hk => h.below i k (hget hk), fun i k hk => h.timely i k (hget hk)⟩

structure Tallied (nth : Nat → Nat) (p : Partition) (past : List (Moment (Transcript ν)))
    (t : Tally) (f : FlowControl) : Prop where
  spent_le : t.spent ≤ t.told.length
  released : f.wasReleased p = true → t.spent = t.told.length
  kept : f.wasReleased p = false → t.spent = 0 ∨ t.spent < t.told.length
  pending : ∀ c, t.spent ≤ c → Answered nth p c t.spent past → t.told.length ≤ f.pending p + c

namespace Tallied

variable {past : List (Moment (Transcript ν))} {m : Moment (Transcript ν)} {t : Tally}
  {f g : FlowControl}

theorem congr (h : Tallied nth p past t f) (hreleased : g.wasReleased p = f.wasReleased p)
    (hpending : g.pending p = f.pending p) : Tallied nth p (past ++ [m]) t g := by
  refine ⟨h.spent_le, fun hr => ?_, fun hr => ?_, fun c hc ha => ?_⟩
  · exact h.released (hreleased ▸ hr)
  · exact h.kept (hreleased ▸ hr)
  · rw [hpending]
    exact h.pending c hc ha.of_append

/-- An answer is to a record that was given up with its partition, or to one that is pending, unless
it is late or another one was. -/
theorem cases_of_answer {k : Nat} (h : Tallied nth p past t f) (hheard : k < t.told.length)
    (hlate : ¬ (k < t.spent ∧ t.spent < t.told.length)) (ha : Answered nth p k t.spent past) :
    (f.wasReleased p = true ∧ k < t.spent) ∨ (f.wasReleased p = false ∧ 0 < f.pending p) := by
  cases hr : f.wasReleased p with
  -- a partition that was given up and gave no record since has only records that were given up
  | true =>
    have hspent := h.released hr
    exact Or.inl ⟨rfl, by omega⟩
  -- otherwise the record came after the last time, since its answer is not late
  | false =>
    have hkept := h.kept hr
    have hspent : t.spent ≤ k := by omega
    have hpending := h.pending k hspent ha
    exact Or.inr ⟨rfl, by omega⟩

/-- An answer takes its own record off what is pending: those that follow are still pending. -/
theorem acked (h : Tallied nth p past (m.tally p) f) (hf : f.acknowledge? p = some g)
    (hfree : f.wasReleased p = false) (hm : m.answers p = true)
    (hbelow : ∀ i (k : Moment (Transcript ν)), past[i]? = some k → k.answers p = true →
      nth i < nth past.length) :
    Tallied nth p (past ++ [m]) (m.tally p) g := by
  have hsame := FlowControl.wasReleased_acknowledge hf p
  refine ⟨h.spent_le, fun hr => ?_, fun hr => ?_, fun c hc ha => ?_⟩
  · exact h.released (hsame ▸ hr)
  · exact h.kept (hsame ▸ hr)
  · have hlast : (past ++ [m])[past.length]? = some m := by simp
    have hlt : nth past.length < c := ha.below past.length m hlast hm
    have hnot := ha.timely past.length m hlast hm rfl
    rw [Moment.IsLate] at hnot
    have hkept := h.kept hfree
    have hspent : (m.tally p).spent ≤ nth past.length := by omega
    have hbefore : Answered nth p (c - 1) (m.tally p).spent past := by
      refine ⟨fun i k hk hack => ?_, ha.of_append.timely⟩
      have hi := hbelow i k hk hack
      omega
    have hold := h.pending (c - 1) (by omega) hbefore
    have hpending := FlowControl.pending_acknowledge hf p
    rw [if_pos rfl] at hpending
    omega

/-- A release leaves nothing to answer, and records add as much to what is pending as to what is
told. -/
theorem received {b : ScriptedBroker} (h : Tallied nth p past t f)
    (hg : (f.remove b.surrendered).deliverEach? b.arriving = some g) :
    Tallied nth p (past ++ [m])
      ((t.after p (b.change?.elim [] Rebalance.news)).after p (b.arriving.map .record)) g := by
  rw [Tally.after_news, Tally.after_records]
  by_cases hp : p ∈ b.surrendered
  · have harriving : b.arriving = [] := by
      refine List.eq_nil_iff_forall_not_mem.2 fun record hrecord => ?_
      rw [ScriptedBroker.surrendered_of_arriving hrecord] at hp
      cases hp
    have hfree : (f.remove b.surrendered).wasReleased p = true := by simp [hp]
    rw [harriving] at hg ⊢
    cases hg
    rw [if_pos hp]
    refine ⟨?_, fun _ => ?_, fun hr => ?_, fun c hc _ => ?_⟩
    · simp
    · simp
    · cases hfree.symm.trans hr
    · simp only [List.filter_nil, List.map_nil, List.append_nil] at hc ⊢
      omega
  · have hlength : (t.told ++ (b.arriving.filter (·.partition = p)).map Record.position).length =
        t.told.length + b.arriving.countP (·.partition = p) := by
      rw [List.length_append, List.length_map, List.countP_eq_length_filter]
    have hreleased : g.wasReleased p =
        (decide (∀ record ∈ b.arriving, record.partition ≠ p) && f.wasReleased p) := by
      rw [FlowControl.wasReleased_deliverEach hg, FlowControl.wasReleased_remove]
      simp [hp]
    have hnone : (∀ record ∈ b.arriving, record.partition ≠ p) ↔
        b.arriving.countP (·.partition = p) = 0 := by
      simp [List.countP_eq_zero]
    have hspent := h.spent_le
    rw [if_neg hp]
    refine ⟨?_, fun hr => ?_, fun hr => ?_, fun c hc ha => ?_⟩
    · simp only [hlength]
      omega
    · rw [hreleased, Bool.and_eq_true, decide_eq_true_iff, hnone] at hr
      have hold := h.released hr.2
      simp only [hlength]
      omega
    · rw [hreleased, Bool.and_eq_false_iff, decide_eq_false_iff_not, hnone] at hr
      simp only [hlength]
      rcases hr with hr | hr
      · omega
      · have hold := h.kept hr
        omega
    · have hold := h.pending c hc ha.of_append
      rw [FlowControl.pending_deliverEach hg, FlowControl.pending_remove, if_neg hp]
      simp only [hlength]
      omega

end Tallied

section Life

variable [Notifier ν] {past : List (Moment (Transcript ν))} {m k : Moment (Transcript ν)}

theorem tally_of_takes {ns : List Notification}
    (h : Takes ns m.before.desk.notifier k.before.desk.notifier) :
    k.tally p = (m.tally p).after p ns := by
  rw [Moment.tally, h.sent, Tally.after_append]
  rfl

theorem tally_of_quiet
    (h : HearsNoRecords m.before.desk.notifier k.before.desk.notifier) :
    k.tally p = m.tally p := by
  obtain ⟨ns, hns, hquiet⟩ := h
  rw [tally_of_takes hns, Tally.after_of_quiet hquiet]

theorem tallied_step (h : Tallied nth p past (m.tally p) m.before.desk.flow)
    (hheld : m.before.desk.mode.held?.isSome = true) (hs : Step m.before k.before m.act)
    (hbelow : m.answers p = true → ∀ i (k : Moment (Transcript ν)), past[i]? = some k →
      k.answers p = true → nth i < nth past.length) :
    Tallied nth p (past ++ [m]) (k.tally p) k.before.desk.flow := by
  have hquiet : Quiet m.before k.before →
      Tallied nth p (past ++ [m]) (k.tally p) k.before.desk.flow := by
    intro hq
    rw [tally_of_quiet hq.told, hq.flow]
    exact h.congr rfl rfl
  obtain ⟨r, a⟩ := m
  cases hs with
  | started _ hq => exact hquiet hq
  | assumed hnone _ =>
    rw [hnone] at hheld
    cases hheld
  | passed _ hq => exact hquiet hq
  | reported hq => exact hquiet hq
  | ignored _ _ hq => exact hquiet hq
  | idled hq => exact hquiet hq
  | acknowledged pos hi ha =>
    rw [tally_of_quiet ha.told]
    by_cases hpos : pos.partition = p
    · subst hpos
      have hfree : r.desk.flow.wasReleased pos.partition = false := by
        rw [ignores, hheld, Bool.true_and] at hi
        exact hi
      have hanswers : (⟨r, .obey (.ack pos)⟩ : Moment (Transcript ν)).answers pos.partition = true :=
        Moment.answers_iff.2 ⟨pos, rfl, rfl⟩
      exact h.acked ha.flow hfree hanswers (hbelow hanswers)
    · have hpending := FlowControl.pending_acknowledge ha.flow p
      rw [if_neg hpos] at hpending
      exact h.congr (FlowControl.wasReleased_acknowledge ha.flow p) hpending.symm
  | balanced hb =>
    have hframe := FlowControl.reconcile_frame r.desk.flow r.broker.assignment
    rw [tally_of_quiet hb.told, hb.flow, hframe]
    exact h.congr rfl rfl
  | committed _ hc =>
    have htold : HearsNoRecords r.desk.notifier k.before.desk.notifier := by
      rw [hc.notifier]
      exact .refl _
    rw [tally_of_quiet (m := ⟨r, .flush⟩) htold, hc.flow]
    exact h.congr rfl rfl
  | received hr =>
    obtain ⟨ns, hns, hquiet⟩ := hr.told
    rw [tally_of_takes hns, Tally.after_append, Tally.after_append, Tally.after_of_quiet hquiet]
    exact h.received hr.flow

omit [Notifier ν] in
theorem heard_of_answers {ms : List (Moment (Transcript ν))} (h : Answers ms nth)
    {i : Nat} (hm : ms[i]? = some m) (hp : m.answers p = true) :
    nth i < (m.tally p).told.length := by
  obtain ⟨pos, hack, rfl⟩ := Moment.answers_iff.1 hp
  obtain ⟨hi, rfl⟩ := List.getElem?_eq_some_iff.1 hm
  exact (List.getElem?_eq_some_iff.1 (h.heard ⟨i, hi⟩ pos hack)).1

omit [Notifier ν] in
theorem below_of_answers {ms : List (Moment (Transcript ν))} (h : Answers ms nth)
    {i j : Nat} (hij : i < j) (hk : ms[i]? = some k) (hm : ms[j]? = some m)
    (hkp : k.answers p = true) (hmp : m.answers p = true) : nth i < nth j := by
  obtain ⟨pos, hack, hpos⟩ := Moment.answers_iff.1 hkp
  obtain ⟨pos', hack', hpos'⟩ := Moment.answers_iff.1 hmp
  obtain ⟨hi, rfl⟩ := List.getElem?_eq_some_iff.1 hk
  obtain ⟨hj, rfl⟩ := List.getElem?_eq_some_iff.1 hm
  exact h.ordered ⟨i, hi⟩ ⟨j, hj⟩ hij pos hack pos' hack' (hpos.trans hpos'.symm)

variable {settings : RelaySettings} {b : ScriptedBroker} {w : Transcript ν} {now : Nat}
  {ts : List Round}

theorem tallied_of_trail (hg : settings.group ≠ none) (hw : w.log = [])
    (h : Answers (trail (lifeOf ts) (create settings b w now)) nth)
    (hm : past ++ [m] <+: trail (lifeOf ts) (create settings b w now)) :
    Tallied nth p past (m.tally p) m.before.desk.flow := by
  refine trail_induction
    (I := fun past m => Tallied nth p past (m.tally p) m.before.desk.flow)
    (fun m hm => ?_) (fun past m k hk hold => ?_) past m hm
  · have htally : m.tally p = {} := by
      rw [Moment.tally, before_of_first hm, Transcript.sent, create, hw]
      rfl
    rw [htally, before_of_first hm]
    exact ⟨Nat.le_refl 0, fun _ => rfl, fun _ => Or.inl rfl, fun c _ _ => Nat.zero_le _⟩
  · have hpast := prefix_of_next hk
    obtain ⟨offsets, hheld, -⟩ := holds_of_grouped hg hpast
    refine tallied_step hold (by rw [hheld]; rfl) (step_of_perform (perform_of_next hk)) ?_
    intro hack i j hj hj'
    have hi := (List.getElem?_eq_some_iff.1 hj).1
    exact below_of_answers h hi (get_of_mem_past hpast hj) (get_of_past hpast) hj' hack

/-- An answer is ignored or finds a record pending, unless a late one has come since the partition
was last given up. -/
theorem ignored_or_pending (hg : settings.group ≠ none) (hw : w.log = [])
    (h : Answers (trail (lifeOf ts) (create settings b w now)) nth)
    (i : Fin (trail (lifeOf ts) (create settings b w now)).length)
    (hp : ((trail (lifeOf ts) (create settings b w now)).get i).answers p = true)
    (hnone : NoneLate (trail (lifeOf ts) (create settings b w now)) nth p i) :
    let m := (trail (lifeOf ts) (create settings b w now)).get i
    (m.before.ignores p = true ∧ nth i < (m.tally p).spent) ∨
      (m.before.ignores p = false ∧ 0 < m.before.desk.flow.pending p) := by
  intro m
  have hm : (trail (lifeOf ts) (create settings b w now)).take i ++ [m] <+:
      trail (lifeOf ts) (create settings b w now) := prefix_of_get _ i i.isLt
  have hget : (trail (lifeOf ts) (create settings b w now))[(i : Nat)]? = some m :=
    List.getElem?_eq_getElem i.isLt
  have htallied := tallied_of_trail (p := p) hg hw h hm
  obtain ⟨offsets, hheld, -⟩ := holds_of_grouped hg hm
  have hanswered : Answered nth p (nth i) (m.tally p).spent
      ((trail (lifeOf ts) (create settings b w now)).take i) := by
    constructor
    · intro j k hk hkp
      rw [List.getElem?_take] at hk
      split at hk
      · next hj => exact below_of_answers h hj hk hget hkp hp
      · cases hk
    · intro j k hk hkp hspent
      rw [List.getElem?_take] at hk
      split at hk
      · next hj =>
        obtain ⟨hj', rfl⟩ := List.getElem?_eq_some_iff.1 hk
        exact hnone ⟨j, hj'⟩ (Nat.le_of_lt hj) hkp hspent
      · cases hk
  rw [ignores, hheld]
  exact htallied.cases_of_answer (heard_of_answers h hget hp) (hnone i (Nat.le_refl _) hp rfl)
    hanswered

/-- If the host answers the records that it gets, then each of its acknowledgements is ignored, its
record having been given up with the partition, or it finds a record pending, unless a late one has
come since the partition was last given up. The relay blames the host only after a late one. -/
theorem answers_are_ignored_or_pending (settings : RelaySettings) (hg : settings.group ≠ none)
    (b : ScriptedBroker) (w : Transcript ν) (hw : w.log = []) (now : Nat) (ts : List Round)
    (nth : Nat → Nat) (p : Partition) :
    let ms := trail (lifeOf ts) (create settings b w now)
    Answers ms nth →
      (∀ i : Fin ms.length, (ms.get i).answers p = true → NoneLate ms nth p i →
        ((ms.get i).before.ignores p = true ∧ nth i < ((ms.get i).tally p).spent) ∨
          ((ms.get i).before.ignores p = false ∧ 0 < (ms.get i).before.desk.flow.pending p)) ∧
      ((live (lifeOf ts) (create settings b w now)).1 = .failed (.protocolViolation p) →
        ∃ i : Fin ms.length, (ms.get i).answers p = true ∧ (ms.get i).IsLate p (nth i)) := by
  intro ms h
  refine ⟨fun i hp hnone => ignored_or_pending hg hw h i hp hnone, fun hfailed => ?_⟩
  have hlive : live (lifeOf ts) (create settings b w now) =
      (.failed (.protocolViolation p), _) := Prod.ext hfailed rfl
  obtain ⟨past, m, hm, he⟩ := last_of_error (e := .failed _) hlive
  obtain ⟨hi, hget⟩ := List.getElem?_eq_some_iff.1 (get_of_past hm)
  rcases blame_of_perform he with hblameless | ⟨hcrashed, -⟩ | ⟨pos, hact, herror, hignores, hpending⟩
  · obtain ⟨_, herror, hne⟩ := hblameless
    cases herror
    exact absurd rfl (hne p)
  · cases hcrashed
  · cases herror
    rw [FlowControl.acknowledge?_eq_none_iff] at hpending
    apply Classical.byContradiction
    intro hnone
    have hp : m.answers pos.partition = true :=
      Moment.answers_iff.2 ⟨pos, by rw [Moment.ack?, hact], rfl⟩
    have hlast : ms.get ⟨past.length, hi⟩ = m := by rw [List.get_eq_getElem, hget]
    have hcases := ignored_or_pending hg hw h ⟨past.length, hi⟩ (by rw [hlast]; exact hp)
      (fun j _ hj _ hlate => hnone ⟨j, hj, hlate⟩)
    rw [hlast] at hcases
    rcases hcases with ⟨hignored, -⟩ | ⟨-, hsome⟩
    · cases hignored.symm.trans hignores
    · omega

end Life

/-- A host that answers its records may be blamed all the same. The same record comes again after
its partition was given up, and the answer to the first one, when it is late, releases the second.
-/
theorem answers_may_be_a_violation :
    ¬ ∀ (settings : RelaySettings) (b : ScriptedBroker) (ts : List Round) (nth : Nat → Nat)
        (p : Partition), settings.group ≠ none →
      Answers (trail (lifeOf ts) (create settings b { through := Host.listening } 0)) nth →
      (live (lifeOf ts) (create settings b ({ through := .listening } : Transcript Host) 0)).1 ≠
        .failed (.protocolViolation p) := by
  intro h
  refine h { topics := ["t"], group := some "g", pollTimeout := 0, commitInterval := 5000 }
    { script := [.rebalance (.assigned [⟨"t", 0⟩]), .records [⟨⟨"t", 0⟩, 0, 0, []⟩],
        .rebalance (.revoked [⟨"t", 0⟩]), .rebalance (.assigned [⟨"t", 0⟩]),
        .records [⟨⟨"t", 0⟩, 0, 0, []⟩]] }
    [{}, {}, {}, {}, {}, { arrivals := [.ack ⟨⟨"t", 0⟩, 0⟩, .ack ⟨⟨"t", 0⟩, 0⟩] }]
    (fun i => i - 22) ⟨"t", 0⟩ (by decide) ⟨?_, ?_⟩ ?_
  · decide +kernel
  · decide +kernel
  · decide +kernel

/-- The same records and answers, but the first one in time: it is ignored, and the second record is
pending when its answer comes. -/
theorem answers_are_ignored_then_pending :
    let ms := trail (lifeOf [{}, {}, {}, { arrivals := [.ack ⟨⟨"t", 0⟩, 0⟩] }, {},
        { arrivals := [.ack ⟨⟨"t", 0⟩, 0⟩] }])
      (create { topics := ["t"], group := some "g", pollTimeout := 0, commitInterval := 5000 }
        { script := [.rebalance (.assigned [⟨"t", 0⟩]), .records [⟨⟨"t", 0⟩, 0, 0, []⟩],
            .rebalance (.revoked [⟨"t", 0⟩]), .rebalance (.assigned [⟨"t", 0⟩]),
            .records [⟨⟨"t", 0⟩, 0, 0, []⟩]] }
        ({ through := .listening } : Transcript Host) 0)
    ms.countP (·.answers ⟨"t", 0⟩) = 2 ∧
      ∀ i : Fin ms.length, (ms.get i).answers ⟨"t", 0⟩ = true →
        ((ms.get i).before.ignores ⟨"t", 0⟩ = true ∧
            (if (i : Nat) < 20 then 0 else 1) < ((ms.get i).tally ⟨"t", 0⟩).spent) ∨
          ((ms.get i).before.ignores ⟨"t", 0⟩ = false ∧
            0 < (ms.get i).before.desk.flow.pending ⟨"t", 0⟩) := by
  intro ms
  refine ⟨by decide +kernel, fun i hp => ?_⟩
  have hnone : ∀ i : Fin ms.length, NoneLate ms (fun i => if i < 20 then 0 else 1) ⟨"t", 0⟩ i := by
    decide +kernel
  exact (answers_are_ignored_or_pending _ (by decide) _ _ rfl _ _
    (fun i => if i < 20 then 0 else 1) _ ⟨by decide +kernel, by decide +kernel⟩).1 i hp (hnone i)

end Relay

end AckRelay
