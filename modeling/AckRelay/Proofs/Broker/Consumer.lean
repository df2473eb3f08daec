import AckRelay.Broker.Consumer
import AckRelay.Log.PartitionMap.Lookup
import AckRelay.Proofs.Outcome
import Mathlib.Data.Int.Order.Basic

namespace AckRelay

variable {o : Int64}

theorem lt_maxValue_iff : o < Int64.maxValue ↔ o ≠ Int64.maxValue := by
  have hle : o.toInt ≤ Int64.maxValue.toInt := Int64.toInt_le o
  rw [Int64.lt_iff_toInt_lt, ne_eq, ← Int64.toInt_inj]
  omega

theorem not_committable_iff : isCommittable o = false ↔ o < 0 ∨ o = Int64.maxValue := by
  rw [isCommittable, Bool.and_eq_false_iff, decide_eq_false_iff_not, decide_eq_false_iff_not,
    lt_maxValue_iff, not_not, Int64.not_le]

/-- An offset that can be committed is none of the negative ones, and not the greatest one. -/
theorem committable_iff_toInt :
    isCommittable o = true ↔ 0 ≤ o.toInt ∧ o.toInt ≤ Int64.maxValue.toInt - 1 := by
  rw [isCommittable, Bool.and_eq_true, decide_eq_true_eq, decide_eq_true_eq,
    Int64.le_iff_toInt_le, Int64.lt_iff_toInt_lt, Int.le_sub_one_iff]
  rfl

/-- The offset after one that can be committed is really the next one. -/
theorem toInt_successor (h : isCommittable o = true) : (o + 1).toInt = o.toInt + 1 := by
  have hrange := committable_iff_toInt.1 h
  have hmax : Int64.maxValue.toInt = 9223372036854775807 := rfl
  have hone : (1 : Int64).toInt = 1 := rfl
  rw [Int64.toInt_add, hone]
  apply Int.bmod_eq_of_le <;> omega

/-- Checking the successor and then the sign accepts the offsets that a command may have. -/
theorem checked_successor_eq (o : Int64) :
    (nextOffset? o).filter (fun _ => decide (0 ≤ o)) =
      if isCommittable o then some (o + 1) else none := by
  cases h : isCommittable o with
  | true =>
    rw [isCommittable, Bool.and_eq_true, decide_eq_true_eq, decide_eq_true_eq,
      lt_maxValue_iff] at h
    simp [nextOffset?, h.1, h.2]
  | false =>
    rcases not_committable_iff.1 h with hneg | hmax
    · have hsign : ¬0 ≤ o := Int64.not_le.2 hneg
      simp [hsign]
    · simp [nextOffset?, hmax]

def Offsets.Committable (offsets : Offsets) : Prop :=
  ∀ p o, offsets.get? p = some o → isCommittable o = true

namespace Consumer

theorem successors?_cons (p : Partition) (o : Int64) (rest : List (Partition × Int64)) :
    successors? ((p, o) :: rest) =
      if isCommittable o then (successors? rest).map (⟨p, o + 1⟩ :: ·)
      else
        .error (.rejected Operation.commit.name
          s!"invalid offset {toString o.toInt} for {p.display}") := by
  rw [successors?, checked_successor_eq]
  cases isCommittable o <;> rfl

theorem successors?_of_committable {entries : List (Partition × Int64)}
    (h : ∀ e ∈ entries, isCommittable e.2 = true) :
    successors? entries = .ok (entries.map fun e => ⟨e.1, e.2 + 1⟩) := by
  induction entries with
  | nil => rfl
  | cons e entries ih =>
    rw [successors?_cons, if_pos (h e List.mem_cons_self),
      ih fun d hd => h d (List.mem_cons_of_mem _ hd)]
    rfl

/-- The first entry without a successor is the reason against all of them. -/
theorem successors?_of_not_committable {entries : List (Partition × Int64)}
    (h : ∃ e ∈ entries, isCommittable e.2 = false) :
    ∃ e ∈ entries, isCommittable e.2 = false ∧
      successors? entries =
        .error (.rejected Operation.commit.name
          s!"invalid offset {toString e.2.toInt} for {e.1.display}") := by
  induction entries with
  | nil =>
    obtain ⟨e, he, -⟩ := h
    cases he
  | cons d entries ih =>
    cases hd : isCommittable d.2 with
    | false => exact ⟨d, List.mem_cons_self, hd, by rw [successors?_cons, hd]; rfl⟩
    | true =>
      have hrest : ∃ e ∈ entries, isCommittable e.2 = false := by
        obtain ⟨e, he, hbad⟩ := h
        rcases List.mem_cons.1 he with rfl | he
        · rw [hd] at hbad
          cases hbad
        · exact ⟨e, he, hbad⟩
      obtain ⟨e, he, hbad, herror⟩ := ih hrest
      refine ⟨e, List.mem_cons_of_mem _ he, hbad, ?_⟩
      rw [successors?_cons, hd, herror]
      rfl

/-- What the client fails with is no refusal of the consumer. -/
theorem ask_ne_rejected {κ α : Type} {tag operation reason : String}
    {op : EStateM ClientError κ α} {c d : Consumer κ} :
    ask tag op c ≠ .error (.rejected operation reason) d := by
  intro h
  rw [ask] at h
  split at h <;> cases h

variable {κ : Type} [Client κ] {offsets : Offsets}

/-- The client gets one list, with the offset after each of those given. -/
theorem commit_of_committable (h : offsets.Committable) (c : Consumer κ) :
    commit offsets c =
      ask Operation.commit.name
        (Client.store (offsets.entries.map fun e => ⟨e.1, e.2 + 1⟩)) c := by
  have hentries : ∀ e ∈ offsets.entries, isCommittable e.2 = true := by
    intro e he
    exact h e.1 e.2 ((PartitionMap.mem_entries_iff offsets e.1 e.2).1 he)
  rw [commit, successors?_of_committable hentries]

/-- The client is not asked, and the consumer stays as it is. -/
theorem commit_of_not_committable (h : ¬offsets.Committable) (c : Consumer κ) :
    ∃ p o, offsets.get? p = some o ∧ isCommittable o = false ∧
      commit offsets c =
        .error (.rejected Operation.commit.name
          s!"invalid offset {toString o.toInt} for {p.display}") c := by
  have hentries : ∃ e ∈ offsets.entries, isCommittable e.2 = false := by
    simp only [Offsets.Committable, not_forall, Bool.not_eq_true] at h
    obtain ⟨p, o, ho, hbad⟩ := h
    exact ⟨(p, o), (PartitionMap.mem_entries_iff offsets p o).2 ho, hbad⟩
  obtain ⟨⟨p, o⟩, he, hbad, herror⟩ := successors?_of_not_committable hentries
  refine ⟨p, o, (PartitionMap.mem_entries_iff offsets p o).1 he, hbad, ?_⟩
  rw [commit, herror]
  rfl

theorem commit_all_or_nothing (m : Offsets) (c : Consumer κ) :
    ((∃ reason, commit m c = .error (.rejected Operation.commit.name reason) c) ↔
      ∃ p o, m.get? p = some o ∧ (o < 0 ∨ o = Int64.maxValue)) ∧
    ((¬∃ p o, m.get? p = some o ∧ (o < 0 ∨ o = Int64.maxValue)) →
      commit m c =
        ask Operation.commit.name (Client.store (m.entries.map fun e => ⟨e.1, e.2 + 1⟩)) c) := by
  have hall : m.Committable ↔ ¬∃ p o, m.get? p = some o ∧ (o < 0 ∨ o = Int64.maxValue) := by
    simp only [← not_committable_iff, Offsets.Committable, not_exists, not_and, Bool.not_eq_false]
  refine ⟨⟨fun hrejected => ?_, fun hbad => ?_⟩, fun hgood => ?_⟩
  · obtain ⟨reason, hrejected⟩ := hrejected
    by_contra hgood
    rw [commit_of_committable (hall.2 hgood)] at hrejected
    exact ask_ne_rejected hrejected
  · obtain ⟨p, o, -, -, hrejected⟩ := commit_of_not_committable (fun h => hall.1 h hbad) c
    exact ⟨_, hrejected⟩
  · exact commit_of_committable (hall.2 hgood) c

end Consumer

end AckRelay
