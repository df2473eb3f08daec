import AckRelay.Config.Topics
import AckRelay.Proofs.Relay.CatchUp
import Mathlib.Data.List.Nodup

/-!
What a relay without a group assigns itself at its start: all partitions of its topics, each as
often as its topic is listed, and the host is told of the same. If a topic is not known nothing is
assigned and nothing told.
-/

namespace AckRelay

namespace ScriptedBroker

variable (b : ScriptedBroker) {p : Partition}

/-- The partitions that the broker tells of a topic; none, if it does not know it. -/
def partitions (topic : String) : List Partition :=
  (b.ends? topic).elim [] fun ends => numbered topic ends.length

def notedAll (calls : List Call) : ScriptedBroker := calls.foldl (fun b call => b.noted call) b

theorem notedAll_eq (calls : List Call) :
    b.notedAll calls = { b with log := calls.reverse ++ b.log } := by
  induction calls generalizing b with
  | nil => rfl
  | cons call calls ih =>
    have hrest := ih (b.noted call)
    rw [notedAll, List.foldl_cons]
    rw [notedAll] at hrest
    rw [hrest, List.reverse_cons, List.append_assoc]
    rfl

theorem calls_notedAll (calls : List Call) : (b.notedAll calls).calls = b.calls ++ calls := by
  rw [notedAll_eq, ScriptedBroker.calls, List.reverse_append, List.reverse_reverse]
  rfl

theorem nodup_partitions (topic : String) : (b.partitions topic).Nodup := by
  rw [partitions]
  cases b.ends? topic with
  | none => exact List.nodup_nil
  | some ends => exact Relay.nodup_numbered topic ends.length

theorem topic_of_partitions {topic : String} (h : p ∈ b.partitions topic) : p.topic = topic := by
  rw [partitions] at h
  cases hends : b.ends? topic with
  | none =>
    rw [hends] at h
    cases h
  | some ends =>
    rw [hends] at h
    exact Relay.topic_of_numbered h

theorem mem_numbered_iff {topic : String} {count : Nat} :
    p ∈ numbered topic count ↔ p.topic = topic ∧ 0 ≤ p.number ∧ p.number < Int32.ofNat count := by
  have hcount := (Int32.ofNat count).toInt_lt
  simp only [numbered, List.mem_map, List.mem_range, Int32.le_iff_toInt_le,
    Int32.lt_iff_toInt_lt, Int32.toNatClampNeg]
  constructor
  · rintro ⟨i, hi, rfl⟩
    have hnumber : (Int32.ofNat i).toInt = i := Int32.toInt_ofNat_of_lt (by omega)
    refine ⟨rfl, ?_, ?_⟩
    · rw [hnumber]
      exact Int.natCast_nonneg i
    · rw [hnumber]
      omega
  · rintro ⟨rfl, hlow, hhigh⟩
    have hzero : (0 : Int32).toInt = 0 := rfl
    rw [hzero] at hlow
    refine ⟨p.number.toInt.toNat, by omega, ?_⟩
    have hnumber : Int32.ofNat p.number.toInt.toNat = p.number := by
      apply Int32.toInt_inj.1
      rw [Int32.toInt_ofNat_of_lt (by omega), Int.toNat_of_nonneg hlow]
    rw [hnumber]

def Has (p : Partition) : Prop :=
  ∃ ends, b.ends? p.topic = some ends ∧ 0 ≤ p.number ∧ p.number < Int32.ofNat ends.length

theorem mem_partitions_iff : p ∈ b.partitions p.topic ↔ b.Has p := by
  rw [partitions, Has]
  cases b.ends? p.topic with
  | none => simp
  | some ends => simp [mem_numbered_iff]

theorem count_partitions (topic : String) (p : Partition) :
    (b.partitions topic).count p =
      if topic = p.topic then (if p ∈ b.partitions p.topic then 1 else 0) else 0 := by
  by_cases htopic : topic = p.topic
  · rw [if_pos htopic, htopic, (b.nodup_partitions p.topic).count]
  · rw [if_neg htopic, List.count_eq_zero]
    exact fun h => htopic (b.topic_of_partitions h).symm

/-- Over a list of topics each of its partitions comes as often as its topic. -/
theorem count_flatMap_partitions (topics : List String) (p : Partition) :
    (topics.flatMap b.partitions).count p =
      if p ∈ b.partitions p.topic then topics.count p.topic else 0 := by
  induction topics with
  | nil => simp
  | cons topic topics ih =>
    rw [List.flatMap_cons, List.count_append, ih, count_partitions, List.count_cons]
    simp only [beq_iff_eq]
    split <;> split <;> omega

theorem mem_flatMap_partitions {topics : List String} :
    p ∈ topics.flatMap b.partitions ↔ p.topic ∈ topics ∧ b.Has p := by
  rw [List.mem_flatMap, ← mem_partitions_iff]
  constructor
  · rintro ⟨topic, htopic, hp⟩
    obtain rfl := b.topic_of_partitions hp
    exact ⟨htopic, hp⟩
  · rintro ⟨htopic, hp⟩
    exact ⟨p.topic, htopic, hp⟩

/-- Partitions that are the ones of the topics, each as often as its topic is listed. -/
structure Lists (topics : List String) (ps : List Partition) : Prop where
  all : ∀ p, b.Has p → ps.count p = topics.count p.topic
  only : ∀ p ∈ ps, p.topic ∈ topics ∧ b.Has p
  nodup_iff : ps.Nodup ↔ ∀ p, b.Has p → topics.count p.topic ≤ 1

theorem lists_flatMap_partitions (topics : List String) :
    b.Lists topics (topics.flatMap b.partitions) := by
  have hall : ∀ p, b.Has p → (topics.flatMap b.partitions).count p = topics.count p.topic := by
    intro p hp
    rw [count_flatMap_partitions, if_pos (b.mem_partitions_iff.2 hp)]
  have honly : ∀ p ∈ topics.flatMap b.partitions, p.topic ∈ topics ∧ b.Has p :=
    fun p hp => b.mem_flatMap_partitions.1 hp
  refine ⟨hall, honly, ?_⟩
  rw [List.nodup_iff_count_le_one]
  constructor
  · intro h p hp
    rw [← hall p hp]
    exact h p
  · intro h p
    by_cases hmem : p ∈ topics.flatMap b.partitions
    · obtain ⟨-, hp⟩ := honly p hmem
      rw [hall p hp]
      exact h p hp
    · rw [List.count_eq_zero_of_not_mem hmem]
      exact Nat.zero_le 1

end ScriptedBroker

namespace Relay

variable {ν : Type} {r s : Relay ScriptedBroker ν}

/-- The relay asks for one topic after another, until one is not told. -/
theorem partitionsOf_cases (topics : List String) (r : Relay ScriptedBroker ν) :
    (∀ topic ∈ topics, r.broker.ends? topic ≠ none) ∧
        partitionsOf topics r = .ok (topics.flatMap r.broker.partitions)
          { r with broker := r.broker.notedAll (topics.map .partitionsFor) } ∨
      ∃ e asked, asked <+: topics ∧ partitionsOf topics r =
        .error e { r with broker := r.broker.notedAll (asked.map .partitionsFor) } := by
  induction topics generalizing r with
  | nil => exact Or.inl ⟨nofun, rfl⟩
  | cons topic topics ih =>
    simp only [partitionsOf, bind_apply, ask_apply]
    rcases ScriptedBroker.partitionsFor_cases topic r.broker with ⟨ends, hends, ho⟩ | ⟨e, ho⟩
    · rw [ho]
      have hpartitions : r.broker.partitions topic = ScriptedBroker.numbered topic ends.length := by
        rw [ScriptedBroker.partitions, hends]
        rfl
      rcases ih { r with broker := r.broker.noted (.partitionsFor topic) } with
        ⟨hknown, hrest⟩ | ⟨e, asked, hasked, hrest⟩
      · refine Or.inl ⟨List.forall_mem_cons.2 ⟨by simp [hends], hknown⟩, ?_⟩
        simp only [hrest, List.flatMap_cons, hpartitions]
        rfl
      · refine Or.inr ⟨e, topic :: asked, (List.prefix_cons_inj topic).2 hasked, ?_⟩
        simp only [hrest]
        rfl
    · rw [ho]
      exact Or.inr ⟨.failed (.broker e), [topic], List.prefix_append [topic] topics, rfl⟩

variable [Notifier ν]

/-- The relay has assigned itself partitions, and told the host of the same. -/
structure AssignsItself (ps : List Partition) (r s : Relay ScriptedBroker ν) : Prop where
  calls : s.broker.calls =
    r.broker.calls ++ (r.topics.map Call.partitionsFor ++ [.assign ps, .endOffsets ps])
  assignment : s.broker.assignment = ps
  told : Takes [.assigned ps] r.desk.notifier s.desk.notifier ∨
    Takes [.assigned ps, .caughtUp] r.desk.notifier s.desk.notifier

structure OnlyAsks (r s : Relay ScriptedBroker ν) : Prop where
  calls : ∃ asked, asked <+: r.topics ∧
    s.broker.calls = r.broker.calls ++ asked.map Call.partitionsFor
  assignment : s.broker.assignment = r.broker.assignment
  notifier : s.desk.notifier = r.desk.notifier

theorem assignsItself_of_ok {u : Unit} (h : startAnonymous r = .ok u s) :
    AssignsItself (r.topics.flatMap r.broker.partitions) r s := by
  have hopened := opened_of_ok h
  obtain ⟨ps, ends, r₁, r₂, r₃, r₄, hps, hassign, hends, htell, h⟩ := startAnonymous_eq_ok h
  rcases partitionsOf_cases r.topics r with ⟨-, ho⟩ | ⟨e, asked, -, ho⟩
  · rw [ho] at hps
    cases hps
    have hr₂ := change_eq_ok hassign
    obtain ⟨hr₃, -⟩ := endOffsets_of_ask hends
    obtain ⟨w, -, hr₄⟩ := tell_eq_ok htell
    have hbroker : s.broker = r₃.broker := by
      split at h
      · obtain ⟨_, r₅, hcaught, h⟩ := bind_eq_ok.1 h
        obtain ⟨v, -, hr₅⟩ := tell_eq_ok hcaught
        cases h
        rw [hr₅, hr₄]
        rfl
      · cases h
        rw [hr₄]
        rfl
    have hassignment : s.broker.assignment = r.topics.flatMap r.broker.partitions := by
      rw [hbroker, hr₃, hr₂]
      rfl
    have hcalls : s.broker.calls =
        ((r.broker.notedAll (r.topics.map .partitionsFor)).notedAll
          [.assign (r.topics.flatMap r.broker.partitions),
            .endOffsets (r.topics.flatMap r.broker.partitions)]).calls := by
      rw [hbroker, hr₃, hr₂]
      rfl
    refine ⟨?_, hassignment, ?_⟩
    · rw [hcalls, ScriptedBroker.calls_notedAll, ScriptedBroker.calls_notedAll, List.append_assoc]
    · have htold := hopened.told
      rw [hassignment] at htold
      split at htold
      · exact Or.inr htold
      · exact Or.inl htold
  · rw [ho] at hps
    cases hps

theorem onlyAsks_of_unknown {topic : String} (htopic : topic ∈ r.topics)
    (hunknown : r.broker.ends? topic = none) :
    ∃ e s, startAnonymous r = .error e s ∧ OnlyAsks r s := by
  rcases partitionsOf_cases r.topics r with ⟨hknown, -⟩ | ⟨e, asked, hasked, ho⟩
  · exact absurd hunknown (hknown topic htopic)
  · refine ⟨e, { r with broker := r.broker.notedAll (asked.map .partitionsFor) }, ?_, ?_⟩
    · rw [startAnonymous, bind_apply, get_apply]
      simp only [bind_apply, ho]
    · refine ⟨⟨asked, hasked, ScriptedBroker.calls_notedAll _ _⟩, ?_, rfl⟩
      rw [ScriptedBroker.notedAll_eq]

/-- A relay without a group that starts has assigned itself all partitions of its topics and none
besides, each as often as its topic is listed, and if it does not know a topic it does not start. -/
theorem start_assigns_listed_partitions (settings : RelaySettings) (hgroup : settings.group = none)
    (b : ScriptedBroker) (notifier : ν) (now : Nat) :
    (∀ s, start (create settings b notifier now) = .ok () s →
        ∃ ps, b.Lists settings.topics ps ∧
          AssignsItself ps (create settings b notifier now) s) ∧
      ((∃ topic ∈ settings.topics, b.ends? topic = none) →
        ∃ e s, start (create settings b notifier now) = .error e s ∧
          OnlyAsks (create settings b notifier now) s) := by
  have hmode : (create settings b notifier now).desk.mode = .anonymous .disabled := by
    simp only [create, hgroup]
  rw [start_of_anonymous hmode]
  constructor
  · intro s hs
    exact ⟨_, b.lists_flatMap_partitions settings.topics, assignsItself_of_ok hs⟩
  · rintro ⟨topic, htopic, hunknown⟩
    exact onlyAsks_of_unknown htopic hunknown

def twoTopics : ScriptedBroker := { topics := [("a", [3, 0]), ("b", [0])] }

theorem start_assigns_listed_partitions_of_two_topics :
    (∃ s, start (create ⟨["b", "a"], none, 0, 1000, {}⟩ twoTopics Host.listening 0) = .ok () s ∧
        s.broker.assignment = [⟨"b", 0⟩, ⟨"a", 0⟩, ⟨"a", 1⟩] ∧
        ∃ ps, twoTopics.Lists ["b", "a"] ps ∧
          AssignsItself ps (create ⟨["b", "a"], none, 0, 1000, {}⟩ twoTopics Host.listening 0) s) ∧
      ∃ e s, start (create ⟨["b", "c"], none, 0, 1000, {}⟩ twoTopics Host.listening 0) =
          .error e s ∧
        OnlyAsks (create ⟨["b", "c"], none, 0, 1000, {}⟩ twoTopics Host.listening 0) s := by
  have hknown := start_assigns_listed_partitions ⟨["b", "a"], none, 0, 1000, {}⟩ rfl twoTopics
    Host.listening 0
  have hunknown := start_assigns_listed_partitions ⟨["b", "c"], none, 0, 1000, {}⟩ rfl twoTopics
    Host.listening 0
  refine ⟨⟨_, rfl, by decide +kernel, hknown.1 _ rfl⟩, hunknown.2 ⟨"c", by decide, by decide⟩⟩

/-- A topic that is listed twice has its partition assigned twice. -/
theorem repeated_topic_is_assigned_twice :
    Topics.parse? "t,t" = some ["t", "t"] ∧
      ∃ s, start (create ⟨["t", "t"], none, 0, 1000, {}⟩
          ({ topics := [("t", [0])] } : ScriptedBroker) Host.listening 0) = .ok () s ∧
        s.broker.assignment = [⟨"t", 0⟩, ⟨"t", 0⟩] ∧ ¬s.broker.assignment.Nodup :=
  ⟨by decide +kernel, _, rfl, by decide +kernel, by decide +kernel⟩

end Relay

end AckRelay
