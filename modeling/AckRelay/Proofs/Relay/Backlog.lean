import AckRelay.Proofs.Relay.Pauses

/-!
Flow control bounds the number of records that the host has to acknowledge. The bound holds between
any two acts, and what makes it go through is that flow control and the broker agree on which
partitions are paused.
-/

namespace AckRelay

/-- The number of pending records up to which a partition may go on. -/
def Thresholds.limit (t : Thresholds) : Nat :=
  max (max (t.pauseMinMessages - 1) (t.pauseMessages - 1)) t.resumeMessages

/-- Above the limit a partition has to be paused, and cannot be resumed. -/
theorem FlowControl.pause_of_limit {f : FlowControl} {p : Partition}
    (h : f.thresholds.limit < f.pending p) : f.shouldPause p = true ∧ f.shouldResume p = false := by
  rw [Thresholds.limit] at h
  have hmin : f.thresholds.pauseMinMessages ≤ f.pending p := by omega
  have hpause : f.thresholds.pauseMessages ≤ f.pending p := by omega
  have hresume : ¬ f.pending p ≤ f.thresholds.resumeMessages := by omega
  constructor
  · simp [shouldPause, hmin, hpause]
  · simp [shouldResume, hmin, hresume]

namespace Moment

variable {ν : Type}

/-- A poll gives at most so many records, all of partitions that are assigned and not paused. -/
def BringsAtMost (n : Nat) (m : Moment ν) : Prop :=
  m.act = .receive → m.before.broker.arriving.length ≤ n ∧
    ∀ record ∈ m.before.broker.arriving, record.partition ∈ m.before.broker.assignment ∧
      m.before.broker.paused.contains record.partition = false

instance (n : Nat) (m : Moment ν) : Decidable (m.BringsAtMost n) :=
  inferInstanceAs (Decidable (_ → _))

end Moment

namespace Relay

variable {ν : Type}

structure Bounded (t : Thresholds) (n : Nat) (r : Relay ScriptedBroker ν) : Prop where
  thresholds : r.desk.flow.thresholds = t
  agree : r.desk.flow.paused = r.broker.paused
  nodup : r.broker.assignment.Nodup
  bound : ∀ p, r.desk.flow.pending p ≤ t.limit + n

def Checked (t : Thresholds) (r : Relay ScriptedBroker ν) : Prop :=
  ∀ p ∈ r.broker.assignment, r.broker.paused.contains p = false →
    r.desk.flow.pending p ≤ t.limit

variable [Notifier ν] {t : Thresholds} {n : Nat} {r s : Relay ScriptedBroker ν}

namespace Bounded

omit [Notifier ν] in
theorem agreeing (h : Bounded t n r) : Agreeing r := ⟨h.agree, h.nodup⟩

omit [Notifier ν] in
theorem of_agreeing (h : Agreeing r) (hthresholds : r.desk.flow.thresholds = t)
    (hbound : ∀ p, r.desk.flow.pending p ≤ t.limit + n) : Bounded t n r :=
  ⟨hthresholds, h.agree, h.nodup, hbound⟩

theorem of_quiet (h : Bounded t n r) (hq : Quiet r s) : Bounded t n s := by
  apply of_agreeing (h.agreeing.of_quiet hq)
  · rw [hq.flow]
    exact h.thresholds
  · rw [hq.flow]
    exact h.bound

theorem acked {pos : Position} (h : Bounded t n r) (ha : Acked pos r s) : Bounded t n s := by
  apply of_agreeing (h.agreeing.acked ha)
  · exact (FlowControl.acknowledge_eq ha.flow).1.trans h.thresholds
  · intro p
    have hpending := FlowControl.pending_acknowledge ha.flow p
    have hbound := h.bound p
    omega

theorem balanced (h : Bounded t n r) (hb : Balanced r s) : Bounded t n s := by
  have hframe := FlowControl.reconcile_frame r.desk.flow r.broker.assignment
  apply of_agreeing (h.agreeing.balanced hb)
  · rw [hb.flow, hframe]
    exact h.thresholds
  · intro p
    rw [hb.flow, hframe]
    exact h.bound p

/-- After the decisions every partition beyond the limit is paused. -/
theorem checked (h : Bounded t n r) (hb : Balanced r s) : Checked t s := by
  have hframe := FlowControl.reconcile_frame r.desk.flow r.broker.assignment
  have hagree := (h.balanced hb).agree
  intro p hp hpaused
  rw [hb.assignment] at hp
  have hpending : s.desk.flow.pending p = r.desk.flow.pending p := by
    rw [hb.flow, hframe]
    rfl
  rw [hpending]
  apply Nat.le_of_not_lt
  intro hlimit
  rw [← h.thresholds] at hlimit
  obtain ⟨hpause, hresume⟩ := FlowControl.pause_of_limit hlimit
  have hisPaused := FlowControl.isPaused_reconcile r.desk.flow h.nodup hp hpause hresume
  rw [← hb.flow, FlowControl.isPaused, hagree, hpaused] at hisPaused
  cases hisPaused

theorem received (h : Bounded t n r) (hc : Checked t r) (hr : Received r s)
    (hnew : r.broker.granted.Nodup ∧ ∀ p ∈ r.broker.granted, p ∉ r.broker.assignment)
    (hmost : r.broker.arriving.length ≤ n ∧ ∀ record ∈ r.broker.arriving,
      record.partition ∈ r.broker.assignment ∧
        r.broker.paused.contains record.partition = false) : Bounded t n s := by
  apply of_agreeing (h.agreeing.received hr hnew)
  · rw [(FlowControl.deliverEach_eq hr.flow).1, FlowControl.thresholds_remove]
    exact h.thresholds
  · intro p
    rw [FlowControl.pending_deliverEach hr.flow, FlowControl.pending_remove]
    have hkept : (if p ∈ r.broker.surrendered then 0 else r.desk.flow.pending p) ≤
        r.desk.flow.pending p := by
      split <;> omega
    cases hcount : r.broker.arriving.countP (·.partition = p) with
    | zero => exact hkept.trans (h.bound p)
    | succ k =>
      have hpos : 0 < r.broker.arriving.countP (·.partition = p) := by omega
      obtain ⟨record, hrecord, hpartition⟩ := List.countP_pos_iff.1 hpos
      obtain ⟨hassigned, hgoes⟩ := hmost.2 record hrecord
      have hp := of_decide_eq_true hpartition
      subst hp
      have hlimit := hc _ hassigned hgoes
      have hle := List.countP_le_length (p := (·.partition = record.partition)) (l := r.broker.arriving)
      have hn := hmost.1
      omega

theorem step {a : Act} (h : Bounded t n r) (hs : Step r s a)
    (hstart : a = .start → r.desk.mode.held? = none → r.topics.Nodup)
    (hreceive : a = .receive → Checked t r) (hnew : (⟨r, a⟩ : Moment ν).BringsNew)
    (hmost : (⟨r, a⟩ : Moment ν).BringsAtMost n) : Bounded t n s := by
  have hagreeing := h.agreeing.step hs hstart hnew
  cases hs with
  | started _ hq => exact h.of_quiet hq
  | assumed _ ha =>
    apply of_agreeing hagreeing
    · rw [ha.flow]
      exact h.thresholds
    · rw [ha.flow]
      exact h.bound
  | passed _ hq => exact h.of_quiet hq
  | reported hq => exact h.of_quiet hq
  | ignored _ _ hq => exact h.of_quiet hq
  | acknowledged _ _ ha => exact h.acked ha
  | balanced hb => exact h.balanced hb
  | idled hq => exact h.of_quiet hq
  | committed _ hc =>
    apply of_agreeing hagreeing
    · rw [hc.flow]
      exact h.thresholds
    · rw [hc.flow]
      exact h.bound
  | received hr => exact h.received (hreceive rfl) hr (hnew rfl) (hmost rfl)

end Bounded

/-- A flush leaves alone what was checked. -/
theorem Checked.flushed (h : Checked t r) (hs : Step r s .flush) : Checked t s := by
  intro p hp hpaused
  cases hs with
  | idled hq =>
    rw [hq.assignment] at hp
    rw [hq.paused] at hpaused
    rw [hq.flow]
    exact h p hp hpaused
  | committed _ hc =>
    rw [hc.assignment] at hp
    rw [hc.paused] at hpaused
    rw [hc.flow]
    exact h p hp hpaused

section Life

variable {settings : RelaySettings} {b : ScriptedBroker} {w : ν} {now : Nat} {ts : List Round}

omit [Notifier ν] in
theorem bounded_create (hpaused : b.paused = ∅) (hnodup : b.assignment.Nodup) :
    Bounded settings.thresholds n (create settings b w now) :=
  ⟨rfl, hpaused.symm, hnodup, fun _ => Nat.zero_le _⟩

theorem bounded_after (htopics : settings.group = none → settings.topics.Nodup)
    (hnew : ∀ m ∈ trail (lifeOf ts) (create settings b w now), m.BringsNew)
    (hmost : ∀ m ∈ trail (lifeOf ts) (create settings b w now), m.BringsAtMost n)
    {past : List (Moment ν)} {m : Moment ν}
    (h : past ++ [m] <+: trail (lifeOf ts) (create settings b w now))
    (hs : Step m.before s m.act) (hb : Bounded settings.thresholds n m.before)
    (hc : m.act = .receive → Checked settings.thresholds m.before) :
    Bounded settings.thresholds n s := by
  exact hb.step hs (nodup_of_start htopics h) hc (hnew m (mem_of_past h)) (hmost m (mem_of_past h))

theorem bounded_of_trail (hpaused : b.paused = ∅) (hnodup : b.assignment.Nodup)
    (htopics : settings.group = none → settings.topics.Nodup)
    (hnew : ∀ m ∈ trail (lifeOf ts) (create settings b w now), m.BringsNew)
    (hmost : ∀ m ∈ trail (lifeOf ts) (create settings b w now), m.BringsAtMost n)
    {past : List (Moment ν)} {m : Moment ν}
    (h : past ++ [m] <+: trail (lifeOf ts) (create settings b w now)) :
    Bounded settings.thresholds n m.before ∧
      (m.act = .flush ∨ m.act = .receive → Checked settings.thresholds m.before) := by
  refine trail_induction (I := fun _ m => Bounded settings.thresholds n m.before ∧
    (m.act = .flush ∨ m.act = .receive → Checked settings.thresholds m.before))
    (fun m hm => ?_) (fun past m k hk hm => ?_) past m h
  · rw [before_of_first hm, act_of_first hm]
    refine ⟨bounded_create hpaused hnodup, fun hact => ?_⟩
    rcases hact with hact | hact <;> cases hact
  · obtain ⟨hbounded, hchecked⟩ := hm
    have hstep := step_of_perform (perform_of_next hk)
    obtain ⟨hflush, hreceive⟩ := follows_of_next hk
    refine ⟨bounded_after htopics hnew hmost (prefix_of_next hk) hstep hbounded
      fun hact => hchecked (Or.inr hact), fun hact => ?_⟩
    rcases hact with hact | hact
    · rw [hflush hact] at hstep
      cases hstep with
      | balanced hb => exact hbounded.checked hb
    · have hm := hreceive hact
      rw [hm] at hstep
      exact (hchecked (Or.inl hm)).flushed hstep

/-- Flow control bounds what the host has to acknowledge: between any two acts at most `n` records
beyond the limit are pending of a partition. Nothing is paused at the start, and no partition is
assigned twice; a new broker has none. Each poll assigns only partitions that are new, each once,
and gives at most `n` records, all of partitions that are assigned and not paused. -/
theorem pending_le_limit_add (settings : RelaySettings) (b : ScriptedBroker) (w : ν) (now : Nat)
    (ts : List Round) (n : Nat) (hpaused : b.paused = ∅) (hnodup : b.assignment.Nodup)
    (htopics : settings.group = none → settings.topics.Nodup)
    (hnew : ∀ m ∈ trail (lifeOf ts) (create settings b w now), m.BringsNew)
    (hmost : ∀ m ∈ trail (lifeOf ts) (create settings b w now), m.BringsAtMost n) :
    (∀ m ∈ trail (lifeOf ts) (create settings b w now), ∀ p,
        m.before.desk.flow.pending p ≤ settings.thresholds.limit + n) ∧
      ∀ r, live (lifeOf ts) (create settings b w now) = (.running, r) → ∀ p,
        r.desk.flow.pending p ≤ settings.thresholds.limit + n := by
  constructor
  · intro m hm
    obtain ⟨past, h⟩ := exists_past hm
    exact (bounded_of_trail hpaused hnodup htopics hnew hmost h).1.bound
  · intro r hr
    rcases last_of_running hr with rfl | ⟨past, m, h, hp⟩
    · exact (bounded_create (n := n) hpaused hnodup).bound
    · obtain ⟨hb, hc⟩ := bounded_of_trail hpaused hnodup htopics hnew hmost h
      exact (bounded_after htopics hnew hmost h (step_of_perform hp) hb
        fun hact => hc (Or.inr hact)).bound

/-- With thresholds that let no record wait, a single poll reaches the bound. -/
theorem pending_reaches_limit_add :
    ∃ m ∈ trail (lifeOf [{}, {}, {}])
        (create { topics := ["t"], group := some "g", pollTimeout := 0, commitInterval := 1,
                  thresholds := { pauseMinMessages := 1, pauseMessages := 1, resumeMessages := 0 } }
          { script := [.rebalance (.assigned [⟨"t", 0⟩]),
              .records [⟨⟨"t", 0⟩, 7, 0, []⟩, ⟨⟨"t", 0⟩, 8, 0, []⟩]] }
          Host.listening 0),
      m.before.desk.flow.pending ⟨"t", 0⟩ = 2 ∧ ∀ p, m.before.desk.flow.pending p ≤ 2 := by
  refine ⟨_, List.get_mem _ ⟨9, by decide +kernel⟩, by decide +kernel, ?_⟩
  exact (pending_le_limit_add _ _ _ _ _ 2 rfl (by decide) (by decide) (by decide +kernel)
    (by decide +kernel)).1 _ (List.get_mem _ _)

/-- A partition that is assigned twice can go on at the broker while flow control has it paused, and
then nothing bounds what is pending of it. -/
theorem pending_exceeds_limit_from_doubled_assignment :
    ¬ ∀ (settings : RelaySettings) (b : ScriptedBroker) (ts : List Round) (n : Nat), b.paused = ∅ →
      (settings.group = none → settings.topics.Nodup) →
      (∀ m ∈ trail (lifeOf ts) (create settings b Host.listening 0), m.BringsNew) →
      (∀ m ∈ trail (lifeOf ts) (create settings b Host.listening 0), m.BringsAtMost n) →
      ∀ r, live (lifeOf ts) (create settings b Host.listening 0) = (.running, r) → ∀ p,
        r.desk.flow.pending p ≤ settings.thresholds.limit + n := by
  intro h
  have hend : live (lifeOf (oneAcknowledged ++ [.ofTurn {}])) (create hasty doubled Host.listening 0) =
      (.running, _) := Prod.ext (by decide +kernel) rfl
  have hbound := h hasty doubled (oneAcknowledged ++ [.ofTurn {}]) 2 rfl (by decide) (by decide +kernel)
    (by decide +kernel) _ hend ⟨"t", 0⟩
  exact absurd hbound (by decide +kernel)

end Life

end Relay

end AckRelay
