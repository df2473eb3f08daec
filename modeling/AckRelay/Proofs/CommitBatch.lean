import AckRelay.Proofs.Outcome
import AckRelay.Proofs.PartitionMap
import AckRelay.Relay.CommitBatch

namespace AckRelay

instance instAssociativeMaxInt64 : Std.Associative (max : Int64 → Int64 → Int64) :=
  ⟨fun a b c => by simp only [max]; grind⟩

namespace CommitBatch

variable {β : Type} (commit : Committer β) (b : CommitBatch) (broker : β)

def higher (offset : Int64) (o : Option Int64) : Int64 := o.elim offset (max offset)

theorem pending_record (p : Partition) (offset : Int64) :
    (b.record p offset).pending = b.pending.insert p (higher offset (b.pending.get? p)) := by
  rw [record]
  cases ho : b.pending.get? p with
  | none => rfl
  | some o =>
    have hmax : higher offset (some o) = if offset ≤ o then o else offset := rfl
    rw [hmax]
    simp only
    split
    · refine PartitionMap.ext_get? fun q => ?_
      rw [PartitionMap.get?_insert]
      by_cases h : p = q
      · rw [if_pos h, ← h, ho]
      · rw [if_neg h]
    · rfl

theorem take_cons (p : Partition) (ps : List Partition) :
    b.take (p :: ps) =
      ((b.pending.get? p).elim (take ps { b with pending := b.pending.erase p }).1
          ((take ps { b with pending := b.pending.erase p }).1.insert p),
        (take ps { b with pending := b.pending.erase p }).2) := by
  rw [take]
  cases b.pending.get? p <;> rfl

theorem get?_take (ps : List Partition) (q : Partition) :
    (b.take ps).1.get? q = (if q ∈ ps then b.pending.get? q else none) ∧
      (b.take ps).2.pending.get? q = if q ∈ ps then none else b.pending.get? q := by
  induction ps generalizing b with
  | nil => simp [take]
  | cons p ps ih =>
    obtain ⟨htaken, hrest⟩ := ih { b with pending := b.pending.erase p }
    rw [PartitionMap.get?_erase] at htaken hrest
    rw [take_cons]
    by_cases hp : p = q
    · subst hp
      cases ho : b.pending.get? p <;> simp [htaken, hrest, PartitionMap.get?_insert]
    · cases ho : b.pending.get? p <;>
        simp [htaken, hrest, PartitionMap.get?_insert, hp, Ne.symm hp]

theorem taken_eq (ps : List Partition) : (b.take ps).1 = b.pending.restrict ps := by
  refine PartitionMap.ext_get? fun q => ?_
  rw [PartitionMap.get?_restrict]
  exact (get?_take b ps q).1

theorem take_eq (ps : List Partition) :
    (b.take ps).2 = { b with pending := ps.foldl PartitionMap.erase b.pending } := by
  induction ps generalizing b with
  | nil => rfl
  | cons p ps ih =>
    rw [take_cons]
    exact ih { b with pending := b.pending.erase p }

theorem pending_take (ps : List Partition) :
    (b.take ps).2.pending = ps.foldl PartitionMap.erase b.pending := by
  rw [take_eq]

theorem frame_record (p : Partition) (offset : Int64) :
    (b.record p offset).interval = b.interval ∧ (b.record p offset).lastFlush = b.lastFlush := by
  rw [record]
  split
  · split
    · exact ⟨rfl, rfl⟩
    · exact ⟨rfl, rfl⟩
  · exact ⟨rfl, rfl⟩

theorem record_eq (p : Partition) (offset : Int64) :
    b.record p offset =
      { b with pending := b.pending.insert p (higher offset (b.pending.get? p)) } := by
  obtain ⟨hinterval, hlast⟩ := frame_record b p offset
  have hpending := pending_record b p offset
  cases hr : b.record p offset
  rw [hr] at hinterval hlast hpending
  simp only at hinterval hlast hpending
  rw [hinterval, hlast, hpending]

theorem higher_left_comm (x y : Int64) (o : Option Int64) :
    higher x (some (higher y o)) = higher y (some (higher x o)) := by
  cases o with
  | none => change max x y = max y x; simp only [max]; grind
  | some z => change max x (max y z) = max y (max x z); simp only [max]; grind

/-- The highest offset of each partition does not depend on the order. -/
theorem record_comm (p q : Partition) (x y : Int64) :
    (b.record p x).record q y = (b.record q y).record p x := by
  simp only [record_eq]
  by_cases hpq : p = q
  · subst hpq
    simp only [PartitionMap.get?_insert, ↓reduceIte, PartitionMap.insert_insert]
    rw [higher_left_comm]
  · simp only [PartitionMap.get?_insert, if_neg hpq, if_neg (Ne.symm hpq)]
    rw [PartitionMap.insert_comm hpq]

theorem flush_of_not_due {forced : Bool} {now : Nat}
    (h : forced = false ∧ now - b.lastFlush < b.interval) :
    b.flush commit forced now broker = (.idle, b, broker) :=
  if_pos h

/-- A flush that is due starts the interval again, and commits all that is pending. -/
theorem flush_of_due {forced : Bool} {now : Nat}
    (h : ¬(forced = false ∧ now - b.lastFlush < b.interval)) :
    b.pending.isEmpty = true ∧
        b.flush commit forced now broker = (.idle, { b with lastFlush := now }, broker) ∨
      b.pending.isEmpty = false ∧
        ((∃ next, commit b.pending broker = .ok () next ∧
            b.flush commit forced now broker =
              (.committed, { b with lastFlush := now, pending := ∅ }, next)) ∨
          ∃ e next, commit b.pending broker = .error e next ∧
            b.flush commit forced now broker =
              (.failed e, { b with lastFlush := now }, next)) := by
  rw [flush, if_neg h]
  cases he : b.pending.isEmpty with
  | true => exact Or.inl ⟨rfl, by simp [he]⟩
  | false =>
    refine Or.inr ⟨rfl, ?_⟩
    cases hc : commit b.pending broker with
    | ok u next => exact Or.inl ⟨next, rfl, by simp [he, hc]⟩
    | error e next => exact Or.inr ⟨e, next, rfl, by simp [he, hc]⟩

/-- A flush does nothing, or it commits all that is pending. A forced one that does nothing has
nothing to commit. -/
theorem flush_cases (forced : Bool) (now : Nat) :
    (∃ last, b.flush commit forced now broker = (.idle, { b with lastFlush := last }, broker) ∧
        (forced = true → b.pending.isEmpty = true)) ∨
      b.pending.isEmpty = false ∧
        ((∃ next, commit b.pending broker = .ok () next ∧
            b.flush commit forced now broker =
              (.committed, { b with lastFlush := now, pending := ∅ }, next)) ∨
          ∃ e next, commit b.pending broker = .error e next ∧
            b.flush commit forced now broker =
              (.failed e, { b with lastFlush := now }, next)) := by
  by_cases h : forced = false ∧ now - b.lastFlush < b.interval
  · refine Or.inl ⟨b.lastFlush, flush_of_not_due commit b broker h, fun hf => ?_⟩
    rw [hf] at h
    cases h.1
  · rcases flush_of_due commit b broker h with ⟨hempty, ho⟩ | hcommits
    · exact Or.inl ⟨now, ho, fun _ => hempty⟩
    · exact Or.inr hcommits

/-- A revocation commits what is pending for the partitions, if there is anything. -/
theorem revoke_cases (ps : List Partition) :
    (b.take ps).1.isEmpty = true ∧ b.revoke commit ps broker = (.idle, (b.take ps).2, broker) ∨
      (b.take ps).1.isEmpty = false ∧
        ((∃ next, commit (b.take ps).1 broker = .ok () next ∧
            b.revoke commit ps broker = (.committed, (b.take ps).2, next)) ∨
          ∃ e next, commit (b.take ps).1 broker = .error e next ∧
            b.revoke commit ps broker = (.failed e, (b.take ps).2, next)) := by
  rw [revoke]
  cases he : (b.take ps).1.isEmpty with
  | true => exact Or.inl ⟨rfl, by simp [he]⟩
  | false =>
    refine Or.inr ⟨rfl, ?_⟩
    cases hc : commit (b.take ps).1 broker with
    | ok u next => exact Or.inl ⟨next, rfl, by simp [he, hc]⟩
    | error e next => exact Or.inr ⟨e, next, rfl, by simp [he, hc]⟩

/-- However the commit of a revocation ends, the batch loses what was revoked. -/
theorem batch_revoke (ps : List Partition) : (b.revoke commit ps broker).2.1 = (b.take ps).2 := by
  rcases b.revoke_cases commit broker ps with ⟨-, ho⟩ | ⟨-, ⟨next, -, ho⟩ | ⟨e, next, -, ho⟩⟩ <;>
    rw [ho]

end CommitBatch

end AckRelay
