import AckRelay.Log.PartitionMap

namespace AckRelay.PartitionMap

variable {α : Type}

theorem get?_empty (p : Partition) : (∅ : PartitionMap α).get? p = none := rfl

/-- The entry that is found is the new one for its own partition, and the old one for others. -/
theorem find?_insertEntry (p q : Partition) (v : α) (es : List (Partition × α)) :
    (insertEntry p v es).find? (fun e => e.1 = q) =
      if p = q then some (p, v) else es.find? (fun e => e.1 = q) := by
  induction es with
  | nil => by_cases h : p = q <;> simp [insertEntry, h]
  | cons d ds ih =>
    simp only [insertEntry]
    split
    · by_cases h : p = q <;> simp [h]
    · split
      · next hd =>
        by_cases h : p = q
        · simp [h]
        · simp [h, ← hd]
      · next hd =>
        rw [List.find?_cons, ih, List.find?_cons]
        by_cases h : p = q
        · subst h
          simp [Ne.symm hd]
        · simp [h]

theorem get?_insert (m : PartitionMap α) (p q : Partition) (v : α) :
    (m.insert p v).get? q = if p = q then some v else m.get? q := by
  simp only [get?, insert, find?_insertEntry]
  split <;> rfl

theorem find?_erase (p q : Partition) (es : List (Partition × α)) :
    (es.filter (fun e => e.1 ≠ p)).find? (fun e => e.1 = q) =
      if p = q then none else es.find? (fun e => e.1 = q) := by
  induction es with
  | nil => simp
  | cons d ds ih =>
    by_cases hd : d.1 = p
    · rw [List.filter_cons_of_neg (by simpa using hd), ih, List.find?_cons]
      by_cases h : p = q
      · simp [h]
      · simp [h, hd]
    · rw [List.filter_cons_of_pos (by simpa using hd), List.find?_cons, ih, List.find?_cons]
      by_cases h : p = q
      · subst h
        simp [hd]
      · simp [h]

theorem get?_erase (m : PartitionMap α) (p q : Partition) :
    (m.erase p).get? q = if p = q then none else m.get? q := by
  simp only [get?, erase, find?_erase]
  split <;> rfl

theorem contains_insert (m : PartitionMap α) (p q : Partition) (v : α) :
    (m.insert p v).contains q = (decide (p = q) || m.contains q) := by
  by_cases h : p = q <;> simp [contains, get?_insert, h]

theorem contains_erase (m : PartitionMap α) (p q : Partition) :
    (m.erase p).contains q = (decide (p ≠ q) && m.contains q) := by
  by_cases h : p = q <;> simp [contains, get?_erase, h]

/-- The entries are what lookups find. -/
theorem mem_entries_iff (m : PartitionMap α) (p : Partition) (v : α) :
    (p, v) ∈ m.entries ↔ m.get? p = some v := by
  obtain ⟨es, hs⟩ := m
  simp only [get?]
  induction es with
  | nil => simp
  | cons d ds ih =>
    have hd := List.pairwise_cons.1 hs
    rw [List.find?_cons, List.mem_cons]
    by_cases h : d.1 = p
    · simp only [h, decide_true, Option.map_some, Option.some.injEq]
      constructor
      · rintro (rfl | hm)
        · rfl
        · exact absurd (hd.1 _ hm) (by simpa [h] using Partition.lt_irrefl p)
      · intro hv
        exact Or.inl (by rw [← h, ← hv])
    · simp only [h, decide_false]
      rw [← ih hd.2]
      constructor
      · rintro (rfl | hm)
        · exact absurd rfl h
        · exact hm
      · exact Or.inr

/-- Ascending lists with the same members are equal. -/
theorem eq_of_sorted {es fs : List (Partition × α)} (he : es.Pairwise (fun a b => a.1 < b.1))
    (hf : fs.Pairwise (fun a b => a.1 < b.1)) (h : ∀ e, e ∈ es ↔ e ∈ fs) : es = fs := by
  induction es generalizing fs with
  | nil =>
    cases fs with
    | nil => rfl
    | cons f fs => exact absurd ((h f).2 List.mem_cons_self) (by simp)
  | cons e es ih =>
    cases fs with
    | nil => exact absurd ((h e).1 List.mem_cons_self) (by simp)
    | cons f fs =>
      have he' := List.pairwise_cons.1 he
      have hf' := List.pairwise_cons.1 hf
      have hef : e = f := by
        rcases List.mem_cons.1 ((h e).1 List.mem_cons_self) with h1 | h1
        · exact h1
        rcases List.mem_cons.1 ((h f).2 List.mem_cons_self) with h2 | h2
        · exact h2.symm
        exact absurd (hf'.1 e h1) (Partition.lt_asymm (he'.1 f h2))
      subst hef
      refine congrArg _ (ih he'.2 hf'.2 fun d => ⟨fun hd => ?_, fun hd => ?_⟩)
      · rcases List.mem_cons.1 ((h d).1 (List.mem_cons_of_mem _ hd)) with h1 | h1
        · exact absurd (he'.1 d hd) (h1 ▸ Partition.lt_irrefl _)
        · exact h1
      · rcases List.mem_cons.1 ((h d).2 (List.mem_cons_of_mem _ hd)) with h1 | h1
        · exact absurd (hf'.1 d hd) (h1 ▸ Partition.lt_irrefl _)
        · exact h1

/-- Maps with the same lookups are equal. -/
theorem ext_get? {m n : PartitionMap α} (h : ∀ p, m.get? p = n.get? p) : m = n := by
  have he : m.entries = n.entries :=
    eq_of_sorted m.sorted n.sorted fun ⟨p, v⟩ => by rw [mem_entries_iff, mem_entries_iff, h p]
  cases m
  cases n
  subst he
  rfl

end AckRelay.PartitionMap
