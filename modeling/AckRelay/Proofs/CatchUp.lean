import AckRelay.Proofs.PartitionMap
import AckRelay.Relay.CatchUp

namespace AckRelay.CatchUp

variable {targets reached : List Position} {c : CatchUp}

/-- The targets left are those that are not reached. When all are reached nothing is waited for. -/
def Awaits (targets reached : List Position) (c : CatchUp) : Prop :=
  match c.targets with
  | none => targets ⊆ reached
  | some left =>
    ¬ targets ⊆ reached ∧
      ∀ p e, left.get? p = some e ↔ ⟨p, e⟩ ∈ targets ∧ (⟨p, e⟩ : Position) ∉ reached

/-- The map holds the targets that are not reached. -/
def Leaves (targets reached : List Position) (left : Offsets) : Prop :=
  ∀ p e, left.get? p = some e ↔ ⟨p, e⟩ ∈ targets ∧ (⟨p, e⟩ : Position) ∉ reached

namespace Leaves

variable {left : Offsets} {next : Position}

/-- Nothing is left just when all targets are reached. -/
theorem isEmpty_iff (h : Leaves targets reached left) :
    left.isEmpty = true ↔ targets ⊆ reached := by
  rw [PartitionMap.isEmpty_iff]
  constructor
  · rintro hnone ⟨p, e⟩ ht
    apply Classical.byContradiction
    intro hr
    have hsome := (h p e).2 ⟨ht, hr⟩
    rw [hnone p] at hsome
    cases hsome
  · intro hsub p
    apply Option.eq_none_iff_forall_ne_some.2
    intro e he
    obtain ⟨ht, hr⟩ := (h p e).1 he
    exact hr (hsub ht)

theorem not_subset (h : Leaves targets reached left) (he : left.isEmpty = false) :
    ¬ targets ⊆ reached := by
  intro hsub
  rw [h.isEmpty_iff.2 hsub] at he
  cases he

/-- To reach a target that is left takes its partition out. -/
theorem erase (h : Leaves targets reached left)
    (hnext : left.get? next.partition = some next.offset) :
    Leaves targets (reached ++ [next]) (left.erase next.partition) := by
  intro p e
  rw [PartitionMap.get?_erase, List.mem_append, List.mem_singleton]
  by_cases hp : next.partition = p
  · -- each partition has one end only, so nothing is left to wait for in this one
    rw [if_pos hp]
    constructor
    · intro hnone
      cases hnone
    · rintro ⟨ht, hr⟩
      have he := (h p e).2 ⟨ht, fun hold => hr (Or.inl hold)⟩
      rw [← hp, hnext] at he
      have heq : (⟨p, e⟩ : Position) = next := by rw [← Option.some.inj he, ← hp]
      exact absurd (Or.inr heq) hr
  · rw [if_neg hp, h]
    have hother : (⟨p, e⟩ : Position) ≠ next :=
      fun heq => hp (congrArg Position.partition heq).symm
    simp [hother]

/-- A position that is no target, or was reached before, leaves what was left. -/
theorem skip (h : Leaves targets reached left)
    (hnext : left.get? next.partition ≠ some next.offset) :
    Leaves targets (reached ++ [next]) left := by
  have hold : ¬ (next ∈ targets ∧ next ∉ reached) := fun hboth => hnext ((h _ _).2 hboth)
  intro p e
  rw [h, List.mem_append, List.mem_singleton]
  constructor
  · rintro ⟨ht, hr⟩
    refine ⟨ht, ?_⟩
    rintro (hr' | heq)
    · exact hr hr'
    · exact hold (heq ▸ ⟨ht, hr⟩)
  · rintro ⟨ht, hr⟩
    exact ⟨ht, fun hr' => hr (Or.inl hr')⟩

end Leaves

/-- At first all ends past zero are left. -/
theorem leaves_ofEnds {ends : Offsets}
    (htargets : ∀ p e, ⟨p, e⟩ ∈ targets ↔ ends.get? p = some e ∧ 0 < e) :
    Leaves targets [] (PartitionMap.ofList (ends.entries.filter (fun e => 0 < e.2))) := by
  intro p e
  have hone : ∀ (q : Partition) (u v : Int64), (q, u) ∈ ends.entries.filter (fun e => 0 < e.2) →
      (q, v) ∈ ends.entries.filter (fun e => 0 < e.2) → u = v := by
    intro q u v hu hv
    have hu' := (PartitionMap.mem_entries_iff ends q u).1 (List.mem_filter.1 hu).1
    have hv' := (PartitionMap.mem_entries_iff ends q v).1 (List.mem_filter.1 hv).1
    exact Option.some.inj (hu'.symm.trans hv')
  rw [PartitionMap.get?_ofList hone, List.mem_filter, PartitionMap.mem_entries_iff,
    decide_eq_true_iff, htargets]
  exact (and_iff_left List.not_mem_nil).symm

/-- At first nothing is reached. If there is nothing to wait for, that is known at once. -/
theorem awaits_ofEnds {ends : Offsets}
    (htargets : ∀ p e, ⟨p, e⟩ ∈ targets ↔ ends.get? p = some e ∧ 0 < e) :
    Awaits targets [] (ofEnds ends).takeCaughtUp.2 ∧
      ((ofEnds ends).takeCaughtUp.1 = true ↔ targets = []) := by
  let left := PartitionMap.ofList (ends.entries.filter (fun e => 0 < e.2))
  have hleft : Leaves targets [] left := leaves_ofEnds htargets
  have htake : (ofEnds ends).takeCaughtUp =
      if left.isEmpty then (true, disabled) else (false, ⟨some left⟩) := rfl
  rw [htake, ← List.subset_nil]
  cases he : left.isEmpty with
  | true => exact ⟨hleft.isEmpty_iff.1 he, iff_of_true rfl (hleft.isEmpty_iff.1 he)⟩
  | false =>
    have hsome := hleft.not_subset he
    exact ⟨⟨hsome, hleft⟩, iff_of_false Bool.false_ne_true hsome⟩

/-- An acknowledgement reaches the position after it, and it reports just when that is the last one
waited for. -/
theorem awaits_acknowledge (h : Awaits targets reached c) (pos : Position) :
    Awaits targets (reached ++ [pos.next]) (c.acknowledge pos).2 ∧
      ((c.acknowledge pos).1 = true ↔
        ¬ targets ⊆ reached ∧ targets ⊆ reached ++ [pos.next]) := by
  rw [Awaits] at h
  cases hc : c.targets with
  | none =>
    rw [hc] at h
    simp only at h
    simp only [acknowledge, hc, Awaits, Bool.false_eq_true, false_iff, not_and]
    exact ⟨List.Subset.trans h (List.subset_append_left reached _), fun hn => absurd h hn⟩
  | some left =>
    rw [hc] at h
    obtain ⟨hnot, hleft⟩ : ¬ targets ⊆ reached ∧ Leaves targets reached left := h
    by_cases hnext : left.get? pos.next.partition = some pos.next.offset
    · have herased := hleft.erase hnext
      simp only [acknowledge, hc, hnext, ↓reduceIte]
      cases he : (left.erase pos.next.partition).isEmpty with
      | true =>
        have hall := herased.isEmpty_iff.1 he
        exact ⟨hall, iff_of_true rfl ⟨hnot, hall⟩⟩
      | false =>
        have hsome := herased.not_subset he
        exact ⟨⟨hsome, herased⟩, iff_of_false Bool.false_ne_true fun hboth => hsome hboth.2⟩
    · have hsame := hleft.skip hnext
      have hsome : ¬ targets ⊆ reached ++ [pos.next] :=
        fun hall => hnot (hleft.isEmpty_iff.1 (hsame.isEmpty_iff.2 hall))
      simp only [acknowledge, hc, hnext, ↓reduceIte, Awaits]
      exact ⟨⟨hsome, hsame⟩, iff_of_false Bool.false_ne_true fun hboth => hsome hboth.2⟩

/-! ### Acknowledgements in any order -/

section Order

variable {pos : Position}

def Hits (c : CatchUp) (pos : Position) : Prop :=
  ∃ left, c.targets = some left ∧ left.get? pos.next.partition = some pos.next.offset

theorem acknowledge_of_miss (h : ¬c.Hits pos) : c.acknowledge pos = (false, c) := by
  rw [acknowledge]
  cases hc : c.targets with
  | none => rfl
  | some left => exact if_neg fun hget => h ⟨left, hc, hget⟩

theorem acknowledge_of_hit {left : Offsets} (hc : c.targets = some left)
    (hget : left.get? pos.next.partition = some pos.next.offset) :
    c.acknowledge pos =
      if (left.erase pos.next.partition).isEmpty then (true, disabled)
      else (false, ⟨some (left.erase pos.next.partition)⟩) := by
  rw [acknowledge, hc]
  exact if_pos hget

/-- What is not waited for is not waited for later. -/
theorem hits_of_acknowledge {a b : Position} (h : (c.acknowledge a).2.Hits b) : c.Hits b := by
  by_cases ha : c.Hits a
  · obtain ⟨left, hc, hget⟩ := ha
    rw [acknowledge_of_hit hc hget] at h
    obtain ⟨rest, hrest, hb⟩ := h
    split at hrest
    · cases hrest
    · cases hrest
      rw [PartitionMap.get?_erase] at hb
      split at hb
      · cases hb
      · exact ⟨left, hc, hb⟩
  · rwa [acknowledge_of_miss ha] at h

theorem acknowledge_congr {a b : Position} (h : a.next = b.next) (c : CatchUp) :
    c.acknowledge a = c.acknowledge b := by
  rw [acknowledge, acknowledge, h]

/-- Two targets of different partitions are reached one after the other. -/
theorem acknowledge_of_hits {a b : Position} {left : Offsets} (hc : c.targets = some left)
    (ha : left.get? a.next.partition = some a.next.offset)
    (hb : left.get? b.next.partition = some b.next.offset)
    (hab : a.next.partition ≠ b.next.partition) :
    (c.acknowledge a).2.acknowledge b =
      if ((left.erase a.next.partition).erase b.next.partition).isEmpty then (true, disabled)
      else (false, ⟨some ((left.erase a.next.partition).erase b.next.partition)⟩) := by
  have hrest : (left.erase a.next.partition).get? b.next.partition = some b.next.offset := by
    rw [PartitionMap.get?_erase, if_neg hab, hb]
  have hsome : ¬(left.erase a.next.partition).isEmpty = true := fun hempty => by
    rw [(PartitionMap.isEmpty_iff _).1 hempty] at hrest
    cases hrest
  rw [acknowledge_of_hit hc ha, if_neg hsome]
  exact acknowledge_of_hit rfl hrest

/-- The targets that are left do not depend on the order. -/
theorem acknowledge_comm (c : CatchUp) (a b : Position) :
    ((c.acknowledge a).2.acknowledge b).2 = ((c.acknowledge b).2.acknowledge a).2 := by
  by_cases ha : c.Hits a
  · by_cases hb : c.Hits b
    · obtain ⟨left, hc, hgeta⟩ := ha
      obtain ⟨_, hc', hgetb⟩ := hb
      obtain rfl := Option.some.inj (hc.symm.trans hc')
      by_cases hab : a.next.partition = b.next.partition
      · -- a partition has one target, so both reach the same one
        have hoffset : a.next.offset = b.next.offset := by
          rw [hab, hgetb] at hgeta
          exact (Option.some.inj hgeta).symm
        have hnext : a.next = b.next := by
          cases ha : a.next
          cases hb : b.next
          rw [ha, hb] at hab hoffset
          simp only at hab hoffset
          rw [hab, hoffset]
        rw [acknowledge_congr hnext c, acknowledge_congr hnext]
      · rw [acknowledge_of_hits hc hgeta hgetb hab, acknowledge_of_hits hc hgetb hgeta (Ne.symm hab),
          PartitionMap.erase_comm]
    · rw [acknowledge_of_miss hb, acknowledge_of_miss fun h => hb (hits_of_acknowledge h)]
  · rw [acknowledge_of_miss ha, acknowledge_of_miss fun h => ha (hits_of_acknowledge h)]

/-- What is waited for is over with the acknowledgement that reports so. -/
theorem told_iff (c : CatchUp) (pos : Position) :
    (c.acknowledge pos).1 = (c.isActive && !(c.acknowledge pos).2.isActive) := by
  by_cases h : c.Hits pos
  · obtain ⟨left, hc, hget⟩ := h
    have hactive : c.isActive = true := by rw [isActive, hc]; rfl
    rw [acknowledge_of_hit hc hget, hactive]
    split <;> rfl
  · rw [acknowledge_of_miss h, Bool.and_not_self]

theorem isActive_of_acknowledge (h : (c.acknowledge pos).2.isActive = true) :
    c.isActive = true := by
  by_cases hhit : c.Hits pos
  · obtain ⟨left, hc, -⟩ := hhit
    rw [isActive, hc]
    rfl
  · rwa [acknowledge_of_miss hhit] at h

end Order

end AckRelay.CatchUp
