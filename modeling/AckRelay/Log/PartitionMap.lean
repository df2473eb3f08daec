import AckRelay.Log.Partition

/-!
Finite maps and sets keyed by partition. The entries are kept in strictly ascending order, so a map
has one form only and two maps with the same lookups are equal.
-/

namespace AckRelay

structure PartitionMap (α : Type) where
  entries : List (Partition × α)
  sorted : entries.Pairwise (fun a b => a.1 < b.1)

namespace PartitionMap

variable {α : Type}

def insertEntry (p : Partition) (v : α) : List (Partition × α) → List (Partition × α)
  | [] => [(p, v)]
  | e :: es =>
    if p < e.1 then (p, v) :: e :: es
    else if p = e.1 then (p, v) :: es
    else e :: insertEntry p v es

theorem mem_insertEntry {p : Partition} {v : α} {e : Partition × α} {es : List (Partition × α)}
    (h : e ∈ insertEntry p v es) : e = (p, v) ∨ e ∈ es := by
  induction es with
  | nil => exact Or.inl (by simpa [insertEntry] using h)
  | cons d ds ih =>
    simp only [insertEntry] at h
    split at h
    · simpa using h
    · split at h
      · rcases List.mem_cons.1 h with h | h
        · exact Or.inl h
        · exact Or.inr (List.mem_cons_of_mem _ h)
      · rcases List.mem_cons.1 h with h | h
        · exact Or.inr (h ▸ List.mem_cons_self)
        · exact (ih h).imp id (List.mem_cons_of_mem _)

theorem insertEntry_sorted (p : Partition) (v : α) {es : List (Partition × α)}
    (h : es.Pairwise (fun a b => a.1 < b.1)) :
    (insertEntry p v es).Pairwise (fun a b => a.1 < b.1) := by
  induction es with
  | nil => simp [insertEntry]
  | cons d ds ih =>
    have hd := List.pairwise_cons.1 h
    simp only [insertEntry]
    split
    · next hlt =>
      refine List.pairwise_cons.2 ⟨fun e he => ?_, h⟩
      rcases List.mem_cons.1 he with he | he
      · exact he ▸ hlt
      · exact Partition.lt_trans hlt (hd.1 e he)
    · next hnlt =>
      split
      · next heq => exact List.pairwise_cons.2 ⟨fun e he => heq ▸ hd.1 e he, hd.2⟩
      · next hne =>
        refine List.pairwise_cons.2 ⟨fun e he => ?_, ih hd.2⟩
        rcases mem_insertEntry he with rfl | he
        · rcases Partition.lt_trichotomy p d.1 with hl | hl | hl
          · exact absurd hl hnlt
          · exact absurd hl hne
          · exact hl
        · exact hd.1 e he

def empty : PartitionMap α := ⟨[], List.Pairwise.nil⟩

instance : EmptyCollection (PartitionMap α) := ⟨empty⟩

instance : Inhabited (PartitionMap α) := ⟨empty⟩

def insert (m : PartitionMap α) (p : Partition) (v : α) : PartitionMap α :=
  ⟨insertEntry p v m.entries, insertEntry_sorted p v m.sorted⟩

def erase (m : PartitionMap α) (p : Partition) : PartitionMap α :=
  ⟨m.entries.filter (fun e => e.1 ≠ p), m.sorted.filter _⟩

def get? (m : PartitionMap α) (p : Partition) : Option α :=
  (m.entries.find? (fun e => e.1 = p)).map Prod.snd

def contains (m : PartitionMap α) (p : Partition) : Bool :=
  (m.get? p).isSome

def keys (m : PartitionMap α) : List Partition :=
  m.entries.map Prod.fst

def size (m : PartitionMap α) : Nat := m.entries.length

def isEmpty (m : PartitionMap α) : Bool := m.entries.isEmpty

/-- The entries of a list; of two for the same partition the later one counts. -/
def ofList (es : List (Partition × α)) : PartitionMap α :=
  es.foldl (fun m e => m.insert e.1 e.2) empty

end PartitionMap

abbrev PartitionSet := PartitionMap Unit

abbrev Offsets := PartitionMap Int64

end AckRelay
