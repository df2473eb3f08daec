namespace AckRelay

variable {α β : Type}

/-- What there is of some pieces, one after another: the first few of them in full, and then at most
a part of the one that comes next. -/
structure Cut (f : α → List β) (xs : List α) (bs : List β) (whole : List α) (tail : List β) :
    Prop where
  isPrefix : whole <+: xs
  eq_append : bs = whole.flatMap f ++ tail
  torn : tail = [] ∨ ∃ x, whole ++ [x] <+: xs ∧ tail <+: f x ∧ tail ≠ f x

theorem exists_cut (f : α → List β) (xs : List α) (n : Nat) :
    ∃ whole tail, Cut f xs ((xs.flatMap f).take n) whole tail := by
  induction xs generalizing n with
  | nil => exact ⟨[], [], List.nil_prefix, List.take_nil, .inl rfl⟩
  | cons x xs ih =>
    rw [List.flatMap_cons, List.take_append]
    by_cases hn : n < (f x).length
    · have htorn : (f x).take n ≠ f x := fun h => by
        have hlength := congrArg List.length h
        rw [List.length_take] at hlength
        omega
      refine ⟨[], (f x).take n, List.nil_prefix, ?_, .inr ⟨x, ?_, List.take_prefix n _, htorn⟩⟩
      · rw [Nat.sub_eq_zero_of_le (Nat.le_of_lt hn), List.take_zero, List.append_nil]
        rfl
      · exact List.prefix_append [x] xs
    · obtain ⟨whole, tail, hfirst, heq, htorn⟩ := ih (n - (f x).length)
      have hcons : ∀ {ys}, ys <+: xs → x :: ys <+: x :: xs := (List.prefix_cons_inj x).2
      refine ⟨x :: whole, tail, hcons hfirst, ?_, ?_⟩
      · rw [heq, List.take_of_length_le (Nat.le_of_not_lt hn), List.flatMap_cons, List.append_assoc]
      · exact htorn.imp_right fun ⟨y, hy, htail⟩ => ⟨y, hcons hy, htail⟩

end AckRelay
