namespace AckRelay

structure Partition where
  topic : String
  number : Int32
  deriving DecidableEq, Repr, Inhabited

namespace Partition

instance : LT Partition where
  lt a b := a.topic < b.topic ∨ a.topic = b.topic ∧ a.number < b.number

theorem lt_def {a b : Partition} :
    a < b ↔ a.topic < b.topic ∨ a.topic = b.topic ∧ a.number < b.number := Iff.rfl

instance (a b : Partition) : Decidable (a < b) :=
  inferInstanceAs (Decidable (a.topic < b.topic ∨ a.topic = b.topic ∧ a.number < b.number))

instance : LE Partition where
  le a b := ¬ b < a

instance (a b : Partition) : Decidable (a ≤ b) := inferInstanceAs (Decidable (¬ b < a))

theorem lt_irrefl (a : Partition) : ¬ a < a := by
  rintro (h | ⟨-, h⟩)
  · exact String.lt_irrefl _ h
  · exact Int32.lt_irrefl h

theorem lt_trans {a b c : Partition} (hab : a < b) (hbc : b < c) : a < c := by
  rcases hab with h | ⟨h, hn⟩ <;> rcases hbc with h' | ⟨h', hn'⟩
  · exact Or.inl (String.lt_trans h h')
  · exact Or.inl (h' ▸ h)
  · exact Or.inl (h ▸ h')
  · exact Or.inr ⟨h.trans h', Int32.lt_trans hn hn'⟩

/-- Any two partitions are equal or one comes first. -/
theorem lt_trichotomy (a b : Partition) : a < b ∨ a = b ∨ b < a := by
  rcases a with ⟨s, m⟩
  rcases b with ⟨t, n⟩
  by_cases hst : s < t
  · exact Or.inl (Or.inl hst)
  by_cases hts : t < s
  · exact Or.inr (Or.inr (Or.inl hts))
  have he : s = t := String.le_antisymm (String.not_lt.1 hts) (String.not_lt.1 hst)
  subst he
  by_cases hmn : m < n
  · exact Or.inl (Or.inr ⟨rfl, hmn⟩)
  by_cases hnm : n < m
  · exact Or.inr (Or.inr (Or.inr ⟨rfl, hnm⟩))
  have hn : m = n := Int32.le_antisymm (Int32.not_lt.1 hnm) (Int32.not_lt.1 hmn)
  exact Or.inr (Or.inl (hn ▸ rfl))

theorem lt_asymm {a b : Partition} (h : a < b) : ¬ b < a :=
  fun h' => lt_irrefl a (lt_trans h h')

def display (p : Partition) : String :=
  p.topic ++ "-" ++ toString p.number.toInt

def sort (ps : List Partition) : List Partition :=
  ps.mergeSort (fun a b => decide (a ≤ b))

end Partition

end AckRelay
