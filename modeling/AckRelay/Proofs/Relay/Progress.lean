import AckRelay.Proofs.Relay.Positions

/-!
How the commits of a partition advance while the relay keeps it. A commit carries the highest offset
accepted since the one before, and may fall back behind that one; it never does exactly if each
comes after an acknowledgement that is not behind, and then the last position is the same wherever
the commits fell (`commits_advance`).
-/

namespace AckRelay

instance instLawfulOrderMaxInt64 : Std.LawfulOrderMax Int64 where
  max_le_iff a b c := by simp only [max]; grind
  max_eq_or a b := by simp only [max]; grind

theorem CommitBatch.le_higher (offset : Int64) (o : Option Int64) : offset ≤ higher offset o := by
  cases o with
  | none => exact Int64.le_refl offset
  | some o => exact Std.left_le_max

theorem CommitBatch.higher_eq_or (offset : Int64) (o : Option Int64) :
    higher offset o = offset ∨ o = some (higher offset o) := by
  cases o with
  | none => exact Or.inl rfl
  | some a =>
    have hhigher : higher offset (some a) = max offset a := rfl
    rw [hhigher, Option.some.injEq]
    exact (Std.MaxEqOr.max_eq_or offset a).imp id Eq.symm

/-- Lists that bound one another have the same maximum. -/
theorem max?_congr {xs ys : List Int64} (hmem : ∀ y ∈ ys, y ∈ xs)
    (hbound : ∀ x ∈ xs, ∃ y ∈ ys, x ≤ y) : xs.max? = ys.max? := by
  cases hy : ys.max? with
  | none =>
    rw [List.max?_eq_none_iff] at hy ⊢
    refine List.eq_nil_iff_forall_not_mem.2 fun x hx => ?_
    obtain ⟨y, hmemy, -⟩ := hbound x hx
    rw [hy] at hmemy
    exact List.not_mem_nil hmemy
  | some a =>
    rw [List.max?_eq_some_iff] at hy ⊢
    refine ⟨hmem a hy.1, fun x hx => ?_⟩
    obtain ⟨y, hmemy, hxy⟩ := hbound x hx
    exact Int64.le_trans hxy (hy.2 y hmemy)

theorem getLast?_eq_max? {xs : List Int64} (h : xs.Pairwise (· ≤ ·)) : xs.getLast? = xs.max? := by
  cases hx : xs.getLast? with
  | none => rw [List.getLast?_eq_none_iff.1 hx, List.max?_nil]
  | some a =>
    obtain ⟨ys, rfl⟩ := List.getLast?_eq_some_iff.1 hx
    symm
    rw [List.max?_eq_some_iff]
    refine ⟨by simp, fun y hy => ?_⟩
    rcases List.mem_append.1 hy with hy | hy
    · exact (List.pairwise_append.1 h).2.2 y hy a (List.mem_singleton.2 rfl)
    · rw [List.mem_singleton.1 hy]
      exact Int64.le_refl a

variable {ν : Type} [Notifier ν] {p : Partition}

namespace Moment

def surrenders (m : Moment ν) (p : Partition) : Bool :=
  match m.act with
  | .receive => decide (p ∈ m.before.broker.surrendered)
  | _ => false

def passedOf (m : Moment ν) (p : Partition) : List Int64 := m.calls.filterMap (·.1.get? p)

end Moment

def passed (ms : List (Moment ν)) (p : Partition) : List Int64 := ms.flatMap (·.passedOf p)

def acknowledged (ms : List (Moment ν)) (p : Partition) : List Int64 :=
  ms.filterMap (·.acceptedOf? p)

namespace Relay

theorem passed_append (ms : List (Moment ν)) (m : Moment ν) (p : Partition) :
    passed (ms ++ [m]) p = passed ms p ++ m.passedOf p := by
  rw [passed, List.flatMap_append, List.flatMap_singleton]
  rfl

omit [Notifier ν] in
theorem acknowledged_append (ms : List (Moment ν)) (m : Moment ν) (p : Partition) :
    acknowledged (ms ++ [m]) p = acknowledged ms p ++ (m.acceptedOf? p).toList := by
  rw [acknowledged, List.filterMap_append]
  cases h : m.acceptedOf? p <;> simp [acknowledged, h]

section Commits

variable {calls : List (Offsets × Bool)} {due : Partition → Option Int64}

open ScriptedBroker (stored storedBy get?_storedBy)

theorem passed_of_commits (h : Commits calls due) (p : Partition) :
    calls.filterMap (·.1.get? p) = (due p).toList := by
  rcases h with ⟨rfl, hnone⟩ | ⟨offsets, accepted, rfl, hoffsets, -⟩
  · rw [hnone p]
    rfl
  · simp only [List.filterMap_cons, hoffsets p]
    cases due p <;> rfl

theorem stored_of_commits (h : Commits calls due) (haccepted : ∀ call ∈ calls, call.2 = true)
    (positions : Offsets) (p : Partition) :
    (stored calls positions).get? p = ((due p).map (· + 1)).or (positions.get? p) := by
  rcases h with ⟨rfl, hnone⟩ | ⟨offsets, accepted, rfl, hoffsets, -⟩
  · rw [hnone p]
    rfl
  · have hstored :
        stored [(offsets, accepted)] positions = storedBy positions (offsets, accepted) := rfl
    have htrue : accepted = true := haccepted (offsets, accepted) (List.mem_singleton.2 rfl)
    rw [hstored, get?_storedBy, if_pos htrue, hoffsets p]

/-- A partition for which nothing is due stays where it is, accepted or not. -/
theorem stored_of_not_due (h : Commits calls due) (hp : due p = none) (positions : Offsets) :
    (stored calls positions).get? p = positions.get? p := by
  rcases h with ⟨rfl, -⟩ | ⟨offsets, accepted, rfl, hoffsets, -⟩
  · rfl
  · have hstored :
        stored [(offsets, accepted)] positions = storedBy positions (offsets, accepted) := rfl
    rw [hstored, get?_storedBy, hoffsets p, hp]
    split <;> rfl

end Commits

variable {past : List (Moment ν)} {m n : Moment ν}

/-- What a moment carries for a partition is owed for it. -/
theorem passedOf_of_holds (h : Holds past m) (p : Partition) :
    m.passedOf p = [] ∨ ∃ offset, owed past p = some offset ∧ m.passedOf p = [offset] := by
  have hcommits : ∀ {due : Partition → Option Int64}, Commits m.calls due →
      (∀ offset, due p = some offset → owed past p = some offset) →
      m.passedOf p = [] ∨ ∃ offset, owed past p = some offset ∧ m.passedOf p = [offset] := by
    intro due hc hdue
    have hpassed : m.passedOf p = (due p).toList := passed_of_commits hc p
    rw [hpassed]
    cases hp : due p with
    | none => exact Or.inl rfl
    | some offset => exact Or.inr ⟨offset, hdue offset hp, rfl⟩
  have hnone : m.calls = [] → m.passedOf p = [] := by
    intro hc
    rw [Moment.passedOf, hc]
    rfl
  have hdue := commitsDue_of_holds h
  obtain ⟨r, a⟩ := m
  cases a with
  | start => exact Or.inl (hnone hdue)
  | await t => exact Or.inl (hnone hdue)
  | balance => exact Or.inl (hnone hdue)
  | flush =>
    rcases hdue with hc | hc
    · exact Or.inl (hnone hc)
    · exact hcommits hc fun _ ho => ho
  | obey c =>
    cases c with
    | ack pos => exact Or.inl (hnone hdue)
    | committedOffsets => exact Or.inl (hnone hdue)
    | unrecognized raw => exact Or.inl (hnone hdue)
    | stop => exact hcommits hdue fun _ ho => ho
  | receive =>
    simp only [Moment.CommitsDue] at hdue
    cases hchange : r.broker.change? with
    | none =>
      rw [hchange] at hdue
      exact Or.inl (hnone hdue)
    | some change =>
      rw [hchange] at hdue
      cases change with
      | assigned ps => exact Or.inl (hnone hdue)
      | lost ps => exact Or.inl (hnone hdue)
      | revoked ps =>
        refine hcommits hdue fun offset ho => ?_
        split at ho
        · exact ho
        · cases ho

inductive Deals (past : List (Moment ν)) (m : Moment ν) (p : Partition) : Prop
  | nothing (hpassed : m.passedOf p = []) (haccepted : m.acceptedOf? p = none)
      (howed : owed (past ++ [m]) p = owed past p)
      (hposition : m.after.broker.positions.get? p = m.before.broker.positions.get? p)
  | accepts (offset : Int64) (hpassed : m.passedOf p = [])
      (haccepted : m.acceptedOf? p = some offset)
      (howed : owed (past ++ [m]) p = some (CommitBatch.higher offset (owed past p)))
      (hposition : m.after.broker.positions.get? p = m.before.broker.positions.get? p)
  | commits (offset : Int64) (hpassed : m.passedOf p = [offset])
      (haccepted : m.acceptedOf? p = none) (hdue : owed past p = some offset)
      (howed : owed (past ++ [m]) p = none)
      (hposition : m.after.broker.positions.get? p = some (offset + 1))

theorem deals_of_uncalled (hcalls : m.calls = []) (hs : m.settles p = false) : Deals past m p := by
  have hpassed : m.passedOf p = [] := by
    rw [Moment.passedOf, hcalls]
    rfl
  have hposition : m.after.broker.positions.get? p = m.before.broker.positions.get? p := by
    rw [positions_after, hcalls]
    rfl
  have howed := owed_append past m p
  rw [hs] at howed
  cases haccepted : m.acceptedOf? p with
  | none =>
    rw [haccepted] at howed
    exact .nothing hpassed haccepted howed hposition
  | some offset =>
    rw [haccepted] at howed
    exact .accepts offset hpassed haccepted howed hposition

/-- A commit of what is owed passes it and moves the position behind it. -/
theorem deals_of_commit (hcommits : Commits m.calls (owed past))
    (haccepted : ∀ call ∈ m.calls, call.2 = true) (hs : m.settles p = true)
    (hnone : m.acceptedOf? p = none) : Deals past m p := by
  have hpassed : m.passedOf p = (owed past p).toList := passed_of_commits hcommits p
  have hposition := stored_of_commits hcommits haccepted m.before.broker.positions p
  rw [← positions_after m] at hposition
  have howed : owed (past ++ [m]) p = none := owed_of_settled hs
  cases ho : owed past p with
  | none =>
    rw [ho] at hpassed hposition
    exact .nothing hpassed hnone (howed.trans ho.symm) hposition
  | some offset =>
    rw [ho] at hpassed hposition
    exact .commits offset hpassed hnone ho howed hposition

/-- A commit for other partitions changes nothing, whether it is accepted or not. -/
theorem deals_of_other_commit {due : Partition → Option Int64} (hcommits : Commits m.calls due)
    (hdue : due p = none) (hs : m.settles p = false) (hnone : m.accepted? = none) :
    Deals past m p := by
  have hpassed : m.passedOf p = [] := by
    rw [Moment.passedOf, passed_of_commits hcommits p, hdue]
    rfl
  have hposition := stored_of_not_due hcommits hdue m.before.broker.positions
  rw [← positions_after m] at hposition
  have haccepted : m.acceptedOf? p = none := by
    rw [Moment.acceptedOf?, hnone]
    rfl
  exact .nothing hpassed haccepted (owed_of_idle hs hnone) hposition

theorem deals_of_perform (hp : perform m.act m.before = .ok .goOn n.before) (h : Holds past m)
    (hkeeps : m.surrenders p = false) : Deals past m p := by
  have hafter : m.after = n.before := endState_of_ok hp
  have hdue := commitsDue_of_holds h
  have hstep := step_of_perform hp
  obtain ⟨r, a⟩ := m
  cases hstep with
  | started _ hq => exact deals_of_uncalled hdue rfl
  | assumed _ ha => exact deals_of_uncalled hdue rfl
  | passed t hq => exact deals_of_uncalled hdue rfl
  | reported hq => exact deals_of_uncalled hdue rfl
  | ignored pos hi hq => exact deals_of_uncalled hdue rfl
  | acknowledged pos hi ha => exact deals_of_uncalled hdue rfl
  | balanced hb => exact deals_of_uncalled hdue rfl
  | idled hq =>
    have hcalls : (⟨r, .flush⟩ : Moment ν).calls = [] :=
      calls_of_uncommitted (hafter ▸ hq.commitCalls)
    refine deals_of_uncalled hcalls ?_
    rw [Moment.settles, hcalls]
    rfl
  | committed offsets hc =>
    have hcalls : (⟨r, .flush⟩ : Moment ν).calls = [(offsets, true)] :=
      calls_of_append (hafter ▸ hc.commitCalls)
    have hsettles : (⟨r, .flush⟩ : Moment ν).settles p = true := by
      rw [Moment.settles, hcalls]
      rfl
    rcases hdue with hnone | hcommits
    · rw [hcalls] at hnone
      cases hnone
    · exact deals_of_commit hcommits (by simp [hcalls]) hsettles rfl
  | received hr =>
    have hkept : p ∉ r.broker.surrendered := of_decide_eq_false hkeeps
    cases hchange : r.broker.change? with
    | none =>
      simp only [Moment.CommitsDue, hchange] at hdue
      exact deals_of_uncalled hdue hkeeps
    | some change =>
      simp only [Moment.CommitsDue, hchange] at hdue
      cases change with
      | assigned ps => exact deals_of_uncalled hdue hkeeps
      | lost ps => exact deals_of_uncalled hdue hkeeps
      | revoked ps =>
        have hps : p ∉ ps := by
          rw [ScriptedBroker.surrendered, hchange] at hkept
          exact hkept
        exact deals_of_other_commit hdue (if_neg hps) hkeeps rfl

end Relay

/-- A while in which the relay keeps a partition: from the start of its life, or from a moment in
which it gave the partition up, to any later moment. -/
structure Tenure (ν : Type) [Notifier ν] (p : Partition) where
  settings : RelaySettings
  grouped : settings.group ≠ none
  broker : ScriptedBroker
  host : ν
  clock : Nat
  rounds : List Round
  earlier : List (Moment ν)
  during : List (Moment ν)
  last : Moment ν
  lived : earlier ++ (during ++ [last]) <+:
    Relay.trail (lifeOf rounds) (Relay.create settings broker host clock)
  begins : ∀ m ∈ earlier.getLast?, m.surrenders p = true
  keeps : ∀ m ∈ during, m.surrenders p = false

namespace Tenure

variable (x : Tenure ν p)

def moments : List (Moment ν) := x.during ++ [x.last]

def passed : List Int64 := AckRelay.passed x.moments p

def acknowledged : List Int64 := AckRelay.acknowledged x.moments p

/-- Each commit of the partition comes after an acknowledgement, accepted since the commit before,
that is not below any offset passed so far. -/
def InOrder : Prop :=
  ∀ done m, done ++ [m] <+: x.moments → m.passedOf p ≠ [] →
    ∃ offset ∈ unsettled (x.earlier ++ done) p, ∀ o ∈ AckRelay.passed done p, o ≤ offset

def Stops : Prop := x.last.act = .obey .stop ∧ ∀ call ∈ x.last.calls, call.2 = true

def position? : Option Int64 := x.last.after.broker.positions.get? p

theorem lived_of_prefix {done ms : List (Moment ν)} (h : done ++ ms <+: x.moments) :
    (x.earlier ++ done) ++ ms <+:
      Relay.trail (lifeOf x.rounds) (Relay.create x.settings x.broker x.host x.clock) := by
  rw [List.append_assoc]
  exact ((List.prefix_append_right_inj x.earlier).2 h).trans x.lived

theorem holds_of_prefix {done : List (Moment ν)} {m : Moment ν} (h : done ++ [m] <+: x.moments) :
    Relay.Holds (x.earlier ++ done) m :=
  Relay.holds_of_grouped x.grouped (x.lived_of_prefix h)

theorem keeps_of_next {done : List (Moment ν)} {k m : Moment ν}
    (h : done ++ [k] ++ [m] <+: x.moments) : k.surrenders p = false := by
  have hduring : done ++ [k] <+: x.during := by
    rcases List.prefix_concat_iff.1 h with he | he
    · exact (List.append_inj' he rfl).1 ▸ List.prefix_rfl
    · exact (List.prefix_append _ _).trans he
  exact x.keeps k (hduring.subset (by simp))

theorem owed_of_begins : owed x.earlier p = none := by
  rcases List.eq_nil_or_concat x.earlier with he | ⟨before, m, he⟩
  · rw [he]
    rfl
  · rw [List.concat_eq_append] at he
    have hm : m.surrenders p = true := by
      refine x.begins m ?_
      rw [he, List.getLast?_concat]
      rfl
    rw [he]
    apply Relay.owed_of_settled
    obtain ⟨r, a⟩ := m
    cases a with
    | receive => exact hm
    | _ => cases hm

structure Accounts (earlier done : List (Moment ν)) (m : Moment ν) (p : Partition) : Prop where
  accepted : ∀ o ∈ AckRelay.passed done p ++ (owed (earlier ++ done) p).toList,
    o ∈ AckRelay.acknowledged done p
  covered : ∀ a ∈ AckRelay.acknowledged done p,
    ∃ o ∈ AckRelay.passed done p ++ (owed (earlier ++ done) p).toList, a ≤ o
  recent : (AckRelay.acknowledged done p).Pairwise (· ≤ ·) →
    ∀ o ∈ AckRelay.passed done p, ∀ a, owed (earlier ++ done) p = some a → o ≤ a
  position : ∀ o, (AckRelay.passed done p).getLast? = some o →
    m.before.broker.positions.get? p = some (o + 1)

/-- An accepted offset is owed from then on, unless a higher one is. -/
theorem Accounts.accepts {earlier done : List (Moment ν)} {m n : Moment ν}
    (h : Accounts earlier done m p) {offset : Int64} (hp : m.passedOf p = [])
    (ha : m.acceptedOf? p = some offset)
    (ho : owed (earlier ++ (done ++ [m])) p =
      some (CommitBatch.higher offset (owed (earlier ++ done) p)))
    (hs : n.before.broker.positions.get? p = m.before.broker.positions.get? p) :
    Accounts earlier (done ++ [m]) n p := by
  obtain ⟨haccepted, hcovered, hrecent, hposition⟩ := h
  constructor <;>
    simp only [Relay.passed_append, Relay.acknowledged_append, hp, ha, ho, Option.toList_some,
      List.append_nil, hs]
  · intro o hmem
    rcases List.mem_append.1 hmem with hold | hnew
    · exact List.mem_append_left _ (haccepted o (List.mem_append_left _ hold))
    · rw [List.mem_singleton.1 hnew]
      rcases CommitBatch.higher_eq_or offset (owed (earlier ++ done) p) with hnew | hold
      · exact List.mem_append_right _ (List.mem_singleton.2 hnew)
      · refine List.mem_append_left _ (haccepted _ (List.mem_append_right _ ?_))
        exact Option.mem_toList.2 hold
  · intro a hmem
    rcases List.mem_append.1 hmem with hold | hnew
    · obtain ⟨o, ho, hle⟩ := hcovered a hold
      rcases List.mem_append.1 ho with ho | ho
      · exact ⟨o, List.mem_append_left _ ho, hle⟩
      · refine ⟨_, List.mem_append_right _ (List.mem_singleton.2 rfl), ?_⟩
        rw [Option.mem_toList] at ho
        rw [ho]
        exact Int64.le_trans hle Std.right_le_max
    · refine ⟨_, List.mem_append_right _ (List.mem_singleton.2 rfl), ?_⟩
      rw [List.mem_singleton.1 hnew]
      exact CommitBatch.le_higher _ _
  · intro hsorted o hmem a heq
    cases heq
    have hbefore : o ∈ AckRelay.acknowledged done p := haccepted o (List.mem_append_left _ hmem)
    have hle : o ≤ offset :=
      (List.pairwise_append.1 hsorted).2.2 o hbefore offset (List.mem_singleton.2 rfl)
    exact Int64.le_trans hle (CommitBatch.le_higher _ _)
  · exact hposition

theorem Accounts.next {earlier done : List (Moment ν)} {m n : Moment ν}
    (h : Accounts earlier done m p) (hd : Relay.Deals (earlier ++ done) m p)
    (hafter : m.after = n.before) : Accounts earlier (done ++ [m]) n p := by
  have ⟨haccepted, hcovered, hrecent, hposition⟩ := h
  cases hd with
  | nothing hp ha ho hs =>
    rw [List.append_assoc] at ho
    constructor <;>
      simp only [Relay.passed_append, Relay.acknowledged_append, hp, ha, ho, Option.toList_none,
        List.append_nil, ← hafter, hs]
    · exact haccepted
    · exact hcovered
    · exact hrecent
    · exact hposition
  | commits offset hp ha hdue ho hs =>
    rw [List.append_assoc] at ho
    rw [hdue, Option.toList_some] at haccepted hcovered
    constructor <;>
      simp only [Relay.passed_append, Relay.acknowledged_append, hp, ha, ho, Option.toList_none,
        List.append_nil, ← hafter, hs]
    · exact haccepted
    · exact hcovered
    · intro _ o _ a hnone
      cases hnone
    · intro o hlast
      rw [List.getLast?_concat] at hlast
      cases hlast
      rfl
  | accepts offset hp ha ho hs =>
    rw [List.append_assoc] at ho
    exact h.accepts hp ha ho (hafter ▸ hs)

theorem accounts_of_prefix (done : List (Moment ν)) (m : Moment ν) (h : done ++ [m] <+: x.moments) :
    Accounts x.earlier done m p := by
  -- by induction on what has been done since the partition was taken, from its end
  induction done using List.reverseRecOn generalizing m with
  | nil =>
    constructor <;> simp [AckRelay.passed, AckRelay.acknowledged, x.owed_of_begins]
  | append_singleton done k ih =>
    have hk : done ++ [k] <+: x.moments := (List.prefix_append _ _).trans h
    have hnext : Relay.perform k.act k.before = .ok .goOn m.before := by
      rw [List.append_assoc] at h
      exact Relay.perform_of_next (x.lived_of_prefix h)
    have hdeals := Relay.deals_of_perform hnext (x.holds_of_prefix hk) (x.keeps_of_next h)
    exact (ih k hk).next hdeals (endState_of_ok hnext)

theorem inOrder_of_sorted (h : x.passed.Pairwise (· ≤ ·)) : x.InOrder := by
  intro done m hm hpassed
  rcases Relay.passedOf_of_holds (x.holds_of_prefix hm) p with hnone | ⟨offset, howed, hone⟩
  · exact absurd hnone hpassed
  · refine ⟨offset, List.max?_mem howed, fun o ho => ?_⟩
    have hsorted : (AckRelay.passed (done ++ [m]) p).Pairwise (· ≤ ·) := by
      obtain ⟨rest, hrest⟩ := hm
      rw [passed, ← hrest, AckRelay.passed, List.flatMap_append] at h
      exact (List.pairwise_append.1 h).1
    rw [Relay.passed_append, hone] at hsorted
    exact (List.pairwise_append.1 hsorted).2.2 o ho offset (List.mem_singleton.2 rfl)

theorem sorted_of_inOrder (h : x.InOrder) : x.passed.Pairwise (· ≤ ·) := by
  have hprefix : ∀ ms, ms <+: x.moments → (AckRelay.passed ms p).Pairwise (· ≤ ·) := by
    intro ms
    induction ms using List.reverseRecOn with
    | nil => exact fun _ => List.Pairwise.nil
    | append_singleton done m ih =>
      intro hm
      have hdone := ih ((List.prefix_append _ _).trans hm)
      rw [Relay.passed_append]
      rcases Relay.passedOf_of_holds (x.holds_of_prefix hm) p with hnone | ⟨offset, howed, hone⟩
      · rw [hnone, List.append_nil]
        exact hdone
      · obtain ⟨a, hmem, hbound⟩ := h done m hm (by rw [hone]; exact List.cons_ne_nil _ _)
        have hle : a ≤ offset := (List.max?_eq_some_iff.1 howed).2 a hmem
        rw [hone]
        refine List.pairwise_append.2 ⟨hdone, List.pairwise_singleton _ _, fun o ho b hb => ?_⟩
        rw [List.mem_singleton.1 hb]
        exact Int64.le_trans (hbound o ho) hle
  exact hprefix x.moments List.prefix_rfl

theorem inOrder_of_ascending (h : x.acknowledged.Pairwise (· ≤ ·)) : x.InOrder := by
  intro done m hm hpassed
  rcases Relay.passedOf_of_holds (x.holds_of_prefix hm) p with hnone | ⟨offset, howed, hone⟩
  · exact absurd hnone hpassed
  · have hsorted : (AckRelay.acknowledged done p).Pairwise (· ≤ ·) := by
      obtain ⟨rest, hrest⟩ := hm
      rw [acknowledged, ← hrest, List.append_assoc, AckRelay.acknowledged,
        List.filterMap_append] at h
      exact (List.pairwise_append.1 h).1
    have hrecent := (x.accounts_of_prefix done m hm).recent hsorted
    exact ⟨offset, List.max?_mem howed, fun o ho => hrecent o ho offset howed⟩

theorem commits_of_stops (h : x.Stops) : Commits x.last.calls (owed (x.earlier ++ x.during)) := by
  have hdue := Relay.commitsDue_of_holds (x.holds_of_prefix List.prefix_rfl)
  rw [Moment.CommitsDue, h.1] at hdue
  exact hdue

theorem passed_of_stops (h : x.Stops) :
    x.passed = AckRelay.passed x.during p ++ (owed (x.earlier ++ x.during) p).toList := by
  rw [passed, moments, Relay.passed_append, Moment.passedOf,
    Relay.passed_of_commits (x.commits_of_stops h) p]

/-- After a stop whose commit succeeds the position is the one that was passed last. -/
theorem position_of_stops (h : x.Stops) {offset : Int64} (hlast : x.passed.getLast? = some offset) :
    x.position? = some (offset + 1) := by
  have hposition :=
    Relay.stored_of_commits (x.commits_of_stops h) h.2 x.last.before.broker.positions p
  rw [← Relay.positions_after] at hposition
  rw [position?, hposition]
  rw [x.passed_of_stops h] at hlast
  cases howed : owed (x.earlier ++ x.during) p with
  | none =>
    rw [howed, Option.toList_none, List.append_nil] at hlast
    exact (x.accounts_of_prefix _ _ List.prefix_rfl).position offset hlast
  | some o =>
    rw [howed, Option.toList_some, List.getLast?_concat] at hlast
    cases hlast
    rfl

/-- After a stop the highest offset that was passed is the highest one that was accepted. -/
theorem max_of_stops (h : x.Stops) : x.passed.max? = x.acknowledged.max? := by
  have haccounts := x.accounts_of_prefix x.during x.last List.prefix_rfl
  have hnone : x.last.acceptedOf? p = none := by
    rw [Moment.acceptedOf?, Moment.accepted?, h.1]
    rfl
  have hacknowledged : x.acknowledged = AckRelay.acknowledged x.during p := by
    rw [acknowledged, moments, Relay.acknowledged_append, hnone, Option.toList_none,
      List.append_nil]
  rw [x.passed_of_stops h, hacknowledged]
  exact (max?_congr haccounts.accepted haccounts.covered).symm

theorem position_of_inOrder (h : x.Stops) (hin : x.InOrder) {offset : Int64}
    (hmax : x.acknowledged.max? = some offset) : x.position? = some (offset + 1) := by
  apply x.position_of_stops h
  calc x.passed.getLast? = x.passed.max? := getLast?_eq_max? (x.sorted_of_inOrder hin)
    _ = x.acknowledged.max? := x.max_of_stops h
    _ = some offset := hmax

/-- The offsets that commits pass for a partition never decrease exactly if each commit comes after
an acknowledgement that is not behind. So it is where the acknowledgements never decrease, whenever
commits fall. Then a stop leaves the position after the highest offset accepted, and the same one
for any other commits between the same acknowledgements. -/
theorem commits_advance (x : Tenure ν p) :
    (x.passed.Pairwise (· ≤ ·) ↔ x.InOrder) ∧
      (x.acknowledged.Pairwise (· ≤ ·) → x.InOrder) ∧
      (x.InOrder → x.Stops → ∀ offset, x.acknowledged.max? = some offset →
        x.position? = some (offset + 1) ∧
        ∀ y : Tenure ν p, y.acknowledged = x.acknowledged → y.InOrder → y.Stops →
          y.position? = x.position?) := by
  refine ⟨⟨x.inOrder_of_sorted, x.sorted_of_inOrder⟩, x.inOrder_of_ascending, ?_⟩
  intro hin hstops offset hmax
  have hposition := x.position_of_inOrder hstops hin hmax
  refine ⟨hposition, fun y hsame hiny hstopsy => ?_⟩
  rw [hposition]
  exact y.position_of_inOrder hstopsy hiny (hsame ▸ hmax)

def first (settings : RelaySettings) (grouped : settings.group ≠ none) (broker : ScriptedBroker)
    (host : ν) (rounds : List Round) (i : Nat)
    (h : i < (Relay.trail (lifeOf rounds) (Relay.create settings broker host 0)).length)
    (keeps : ∀ m ∈ (Relay.trail (lifeOf rounds) (Relay.create settings broker host 0)).take i,
      m.surrenders p = false) : Tenure ν p where
  settings
  grouped
  broker
  host
  clock := 0
  rounds
  earlier := []
  during := (Relay.trail (lifeOf rounds) (Relay.create settings broker host 0)).take i
  last := (Relay.trail (lifeOf rounds) (Relay.create settings broker host 0)).get ⟨i, h⟩
  lived := Relay.prefix_of_get _ i h
  begins _ hm := by cases hm
  keeps := keeps

/-- Three records come and are acknowledged, with a commit after the first two acknowledgements and
without one. -/
theorem commits_advance_either_way :
    ∃ x y : Tenure Host ⟨"t", 0⟩, x.passed = [1, 2] ∧ y.passed = [2] ∧
      x.position? = some 3 ∧ y.position? = x.position? := by
  let settings : RelaySettings :=
    { topics := ["t"], group := some "g", pollTimeout := 0, commitInterval := 1 }
  let broker : ScriptedBroker :=
    { script := [.rebalance (.assigned [⟨"t", 0⟩]),
        .records [⟨⟨"t", 0⟩, 0, 0, []⟩, ⟨⟨"t", 0⟩, 1, 0, []⟩, ⟨⟨"t", 0⟩, 2, 0, []⟩]] }
  let rounds (elapsed : Nat) : List Round :=
    [{}, {}, { elapsed, arrivals := [.ack ⟨⟨"t", 0⟩, 1⟩, .ack ⟨⟨"t", 0⟩, 0⟩] },
      { arrivals := [.ack ⟨⟨"t", 0⟩, 2⟩, .stop] }]
  let x : Tenure Host ⟨"t", 0⟩ := first settings (by decide) broker .listening (rounds 1) 17
    (by decide +kernel) (by decide +kernel)
  let y : Tenure Host ⟨"t", 0⟩ := first settings (by decide) broker .listening (rounds 0) 17
    (by decide +kernel) (by decide +kernel)
  have hx : x.passed = [1, 2] := by decide +kernel
  have hy : y.passed = [2] := by decide +kernel
  have hinx : x.InOrder := (commits_advance x).1.1 (by rw [hx]; decide)
  have hiny : y.InOrder := (commits_advance y).1.1 (by rw [hy]; decide)
  have hstopsx : x.Stops := ⟨by decide +kernel, by decide +kernel⟩
  have hstopsy : y.Stops := ⟨by decide +kernel, by decide +kernel⟩
  obtain ⟨hposition, hsame⟩ := (commits_advance x).2.2 hinx hstopsx 2 (by decide +kernel)
  exact ⟨x, y, hx, hy, hposition, hsame y (by decide +kernel) hiny hstopsy⟩

/-- A commit between two acknowledgements that come in the wrong order makes the next commit fall
back, and leaves another position than no commit there would. -/
theorem commits_fall_back :
    ∃ x y : Tenure Host ⟨"t", 0⟩, y.acknowledged = x.acknowledged ∧ x.Stops ∧ y.Stops ∧
      x.acknowledged.max? = some 1 ∧ x.passed = [1, 0] ∧ x.position? = some 1 ∧
      y.position? = some 2 := by
  let settings : RelaySettings :=
    { topics := ["t"], group := some "g", pollTimeout := 0, commitInterval := 1 }
  let broker : ScriptedBroker :=
    { script := [.rebalance (.assigned [⟨"t", 0⟩]),
        .records [⟨⟨"t", 0⟩, 0, 0, []⟩, ⟨⟨"t", 0⟩, 1, 0, []⟩]] }
  let rounds (elapsed : Nat) : List Round :=
    [{}, {}, { elapsed, arrivals := [.ack ⟨⟨"t", 0⟩, 1⟩] },
      { arrivals := [.ack ⟨⟨"t", 0⟩, 0⟩, .stop] }]
  let x : Tenure Host ⟨"t", 0⟩ := first settings (by decide) broker .listening (rounds 1) 16
    (by decide +kernel) (by decide +kernel)
  let y : Tenure Host ⟨"t", 0⟩ := first settings (by decide) broker .listening (rounds 0) 16
    (by decide +kernel) (by decide +kernel)
  refine ⟨x, y, by decide +kernel, ⟨by decide +kernel, by decide +kernel⟩,
    ⟨by decide +kernel, by decide +kernel⟩, by decide +kernel, by decide +kernel,
    by decide +kernel, by decide +kernel⟩

end Tenure

end AckRelay
