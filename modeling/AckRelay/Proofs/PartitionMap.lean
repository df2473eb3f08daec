import AckRelay.Log.PartitionMap.Lookup

namespace AckRelay.PartitionMap

variable {α : Type}

attribute [simp] get?_empty

/-- Changes of different partitions may be made in any order. -/
theorem insert_comm {p q : Partition} (h : p ≠ q) (u v : α) (m : PartitionMap α) :
    (m.insert p u).insert q v = (m.insert q v).insert p u := by
  refine ext_get? fun k => ?_
  simp only [get?_insert]
  by_cases hp : p = k
  · subst hp
    rw [if_neg (Ne.symm h), if_pos rfl, if_pos rfl]
  · rw [if_neg hp, if_neg hp]

theorem insert_insert (p : Partition) (u v : α) (m : PartitionMap α) :
    (m.insert p u).insert p v = m.insert p v := by
  refine ext_get? fun k => ?_
  simp only [get?_insert]
  by_cases hp : p = k
  · rw [if_pos hp, if_pos hp]
  · rw [if_neg hp, if_neg hp, if_neg hp]

theorem erase_comm (p q : Partition) (m : PartitionMap α) :
    (m.erase p).erase q = (m.erase q).erase p := by
  refine ext_get? fun k => ?_
  simp only [get?_erase]
  by_cases hp : p = k
  · rw [if_pos hp, if_pos hp, ite_self]
  · rw [if_neg hp, if_neg hp]

theorem get?_foldl_erase (ps : List Partition) (m : PartitionMap α) (q : Partition) :
    (ps.foldl erase m).get? q = if q ∈ ps then none else m.get? q := by
  induction ps generalizing m with
  | nil => simp
  | cons p ps ih =>
    rw [List.foldl_cons, ih, get?_erase]
    by_cases hp : p = q
    · simp [hp]
    · simp [hp, Ne.symm hp]

theorem get?_foldl_insert (ps : List Partition) (v : α) (m : PartitionMap α) (q : Partition) :
    (ps.foldl (fun m p => m.insert p v) m).get? q = if q ∈ ps then some v else m.get? q := by
  induction ps generalizing m with
  | nil => simp
  | cons p ps ih =>
    rw [List.foldl_cons, ih, get?_insert]
    by_cases hp : p = q
    · simp [hp]
    · simp [hp, Ne.symm hp]

/-- Entries that are put into a map one after another are found there, each for its own partition.
-/
theorem get?_foldl_entries {β : Type} (n : PartitionMap β) (f : β → α) (m : PartitionMap α)
    (q : Partition) :
    (n.entries.foldl (fun m e => m.insert e.1 (f e.2)) m).get? q =
      ((n.get? q).map f).or (m.get? q) := by
  obtain ⟨es, hs⟩ := n
  have hfound : (⟨es, hs⟩ : PartitionMap β).get? q = (es.find? (fun e => e.1 = q)).map Prod.snd := rfl
  rw [hfound]
  clear hfound
  -- by induction on the entries; no later one is of the same partition, since they ascend
  induction es generalizing m with
  | nil => rfl
  | cons d ds ih =>
    obtain ⟨hfirst, hrest⟩ := List.pairwise_cons.1 hs
    rw [List.foldl_cons, ih _ hrest, get?_insert, List.find?_cons]
    by_cases hd : d.1 = q
    · have hnone : ds.find? (fun e => e.1 = q) = none := by
        rw [List.find?_eq_none]
        intro e he heq
        have hlt := hfirst e he
        rw [hd, of_decide_eq_true heq] at hlt
        exact Partition.lt_irrefl q hlt
      simp [hd, hnone]
    · simp [hd]

/-- A list with one value for each of its partitions makes a map of just these entries. -/
theorem get?_ofList {es : List (Partition × α)} {p : Partition} {v : α}
    (hone : ∀ q u w, (q, u) ∈ es → (q, w) ∈ es → u = w) :
    (ofList es).get? p = some v ↔ (p, v) ∈ es := by
  have hfold : ∀ (es : List (Partition × α)) (m : PartitionMap α),
      (∀ q u w, (q, u) ∈ es → (q, w) ∈ es → u = w) →
      ((es.foldl (fun m e => m.insert e.1 e.2) m).get? p = some v ↔
        (p, v) ∈ es ∨ (∀ w, (p, w) ∉ es) ∧ m.get? p = some v) := by
    intro es
    induction es with
    | nil => simp
    | cons d ds ih =>
      intro m hone
      have htail : ∀ q u w, (q, u) ∈ ds → (q, w) ∈ ds → u = w := by
        intro q u w hu hw
        exact hone q u w (List.mem_cons_of_mem d hu) (List.mem_cons_of_mem d hw)
      rw [List.foldl_cons, ih _ htail, get?_insert]
      obtain ⟨q, u⟩ := d
      by_cases hq : q = p
      · subst hq
        have hsame : ∀ w, (q, w) ∈ ds → u = w :=
          fun w hw => hone q u w List.mem_cons_self (List.mem_cons_of_mem _ hw)
        by_cases hmem : ∃ w, (q, w) ∈ ds
        · obtain ⟨w, hw⟩ := hmem
          have huw := hsame w hw
          subst huw
          simp only [List.mem_cons, Prod.mk.injEq, true_and]
          constructor
          · rintro (hv | ⟨hnone, -⟩)
            · exact Or.inl (Or.inr hv)
            · exact absurd hw (hnone u)
          · rintro ((rfl | hv) | ⟨hnone, -⟩)
            · exact Or.inl hw
            · exact Or.inl hv
            · exact absurd (Or.inr hw) (hnone u)
        · have hnone : ∀ w, (q, w) ∉ ds := fun w hw => hmem ⟨w, hw⟩
          simp [hnone, eq_comm]
      · have hqp : ∀ w, (p, w) ≠ (q, u) := fun w h => hq (congrArg Prod.fst h).symm
        simp [hq, hqp]
  rw [ofList, hfold es empty hone]
  have hempty : (empty : PartitionMap α).get? p = none := rfl
  simp [hempty]

theorem isEmpty_iff (m : PartitionMap α) : m.isEmpty = true ↔ ∀ p, m.get? p = none := by
  constructor
  · intro h p
    have he : m.entries = [] := List.isEmpty_iff.1 h
    rw [get?, he]
    rfl
  · intro h
    refine List.isEmpty_iff.2 (List.eq_nil_iff_forall_not_mem.2 ?_)
    rintro ⟨p, v⟩ he
    rw [mem_entries_iff, h p] at he
    cases he

theorem exists_get?_of_nonempty {m : PartitionMap α} (h : m.isEmpty = false) :
    ∃ p, m.get? p ≠ none := by
  apply Classical.byContradiction
  intro hnone
  have hempty : m.isEmpty = true := by
    rw [isEmpty_iff]
    intro p
    exact Classical.byContradiction fun hp => hnone ⟨p, hp⟩
  rw [h] at hempty
  cases hempty

theorem mem_keys_iff (m : PartitionMap α) (p : Partition) : p ∈ m.keys ↔ m.contains p = true := by
  rw [contains, Option.isSome_iff_exists, keys, List.mem_map]
  constructor
  · rintro ⟨⟨q, v⟩, he, rfl⟩
    exact ⟨v, (mem_entries_iff m q v).1 he⟩
  · rintro ⟨v, hv⟩
    exact ⟨(p, v), (mem_entries_iff m p v).2 hv, rfl⟩

def restrict (ps : List Partition) (m : PartitionMap α) : PartitionMap α :=
  ⟨m.entries.filter (fun e => e.1 ∈ ps), m.sorted.filter _⟩

theorem get?_restrict (ps : List Partition) (m : PartitionMap α) (q : Partition) :
    (m.restrict ps).get? q = if q ∈ ps then m.get? q else none := by
  refine Option.ext fun v => ?_
  rw [← mem_entries_iff, restrict, List.mem_filter, mem_entries_iff, decide_eq_true_iff]
  split
  · next h => simp [h]
  · next h => simp [h]

end AckRelay.PartitionMap
