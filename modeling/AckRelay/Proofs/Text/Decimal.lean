import AckRelay.Text.Decimal

namespace AckRelay.Text

variable {n max : Nat} {c : Char} {cs : List Char} {s : String}

/-- The text writes the number in decimal digits, perhaps after a plus sign. -/
def Numeral (n : Nat) (s : String) : Prop :=
  ∃ digits : List Char, digits ≠ [] ∧ (∀ c ∈ digits, c.isDigit = true) ∧
    (s.toList = digits ∨ s.toList = '+' :: digits) ∧ n = Nat.ofDigitChars 10 digits 0

theorem digit?_of_isDigit (h : c.isDigit = true) : digit? c = some (c.toNat - '0'.toNat) := by
  have hrange := Char.isDigit_iff_toNat.1 h
  rw [digit?, if_pos]
  exact hrange

theorem digit?_of_not_isDigit (h : ¬c.isDigit = true) : digit? c = none := by
  rw [digit?, if_neg]
  exact fun hrange => h (Char.isDigit_iff_toNat.2 hrange)

theorem digits?_of_all (h : ∀ c ∈ cs, c.isDigit = true) :
    digits? n cs = some (Nat.ofDigitChars 10 cs n) := by
  induction cs generalizing n with
  | nil => rfl
  | cons c cs ih =>
    obtain ⟨hc, hcs⟩ := List.forall_mem_cons.1 h
    rw [digits?, digit?_of_isDigit hc, Option.bind_some, ih hcs, Nat.ofDigitChars_cons]

theorem all_of_digits? {m : Nat} (h : digits? n cs = some m) : ∀ c ∈ cs, c.isDigit = true := by
  induction cs generalizing n with
  | nil => exact List.forall_mem_nil _
  | cons c cs ih =>
    by_cases hc : c.isDigit = true
    · rw [digits?, digit?_of_isDigit hc, Option.bind_some] at h
      exact List.forall_mem_cons.2 ⟨hc, ih h⟩
    · rw [digits?, digit?_of_not_isDigit hc] at h
      cases h

theorem digits?_eq_some_iff {m : Nat} :
    digits? n cs = some m ↔ (∀ c ∈ cs, c.isDigit = true) ∧ m = Nat.ofDigitChars 10 cs n := by
  constructor
  · intro h
    have hall := all_of_digits? h
    rw [digits?_of_all hall] at h
    exact ⟨hall, (Option.some.inj h).symm⟩
  · rintro ⟨hall, rfl⟩
    exact digits?_of_all hall

theorem body_eq_some_iff {body : List Char} :
    (if body = [] then none else (digits? 0 body).filter (· ≤ max)) = some n ↔
      (body ≠ [] ∧ (∀ c ∈ body, c.isDigit = true) ∧ n = Nat.ofDigitChars 10 body 0) ∧ n ≤ max := by
  split
  · next hnil => exact ⟨nofun, fun h => absurd hnil h.1.1⟩
  · next hsome =>
    rw [Option.filter_eq_some_iff, digits?_eq_some_iff, decide_eq_true_eq, and_iff_right hsome]

/-- A number is read exactly if the text writes it and it is not too great. -/
theorem readNat?_eq_some_iff : readNat? max s = some n ↔ Numeral n s ∧ n ≤ max := by
  simp only [readNat?]
  rw [body_eq_some_iff, and_congr_left_iff]
  intro _
  split
  · next cs hs =>
    constructor
    · rintro ⟨hsome, hall, hn⟩
      exact ⟨cs, hsome, hall, Or.inr hs, hn⟩
    · rintro ⟨digits, hsome, hall, hdigits | hdigits, hn⟩
      · rw [← hdigits, hs] at hall
        exact absurd (hall '+' List.mem_cons_self) (by decide)
      · rw [hs, List.cons.injEq] at hdigits
        rw [hdigits.2]
        exact ⟨hsome, hall, hn⟩
  · next hplus =>
    constructor
    · rintro ⟨hsome, hall, hn⟩
      exact ⟨s.toList, hsome, hall, Or.inl rfl, hn⟩
    · rintro ⟨digits, hsome, hall, hdigits | hdigits, hn⟩
      · rw [hdigits]
        exact ⟨hsome, hall, hn⟩
      · exact absurd hdigits (hplus digits)

end AckRelay.Text
