import AckRelay.Proofs.Json.Grammar
import AckRelay.Proofs.Json.Numbers

namespace AckRelay.Json

open Grammar

variable {bs cs ds rest : List UInt8}

/-- What is read in two steps is read in each of them. -/
theorem bind_eq_ok {α β : Type} {x : Except Fault α} {f : α → Except Fault β} {b : β} :
    (x >>= f) = .ok b ↔ ∃ a, x = .ok a ∧ f a = .ok b := by
  constructor
  · intro h
    cases x with
    | error e => cases h
    | ok a => exact ⟨a, rfl, h⟩
  · rintro ⟨a, rfl, h⟩
    exact h

def Free (p : UInt8 → Bool) (bs : List UInt8) : Prop := ∀ b ∈ bs.head?, p b = false

theorem free_nil (p : UInt8 → Bool) : Free p [] := by
  intro b hb
  cases hb

theorem free_cons {p : UInt8 → Bool} {b : UInt8} (h : p b = false) : Free p (b :: bs) := by
  intro a ha
  cases ha
  exact h

theorem free_dropWhile (p : UInt8 → Bool) (bs : List UInt8) : Free p (bs.dropWhile p) := by
  intro b hb
  have hhead := List.head?_dropWhile_not p bs
  rw [hb] at hhead
  exact hhead

/-- A run ends where the bytes after it do not prolong it. -/
theorem takeWhile_of_free {p : UInt8 → Bool} {w : List UInt8} (hw : ∀ b ∈ w, p b = true)
    (hf : Free p rest) : (w ++ rest).takeWhile p = w := by
  rw [List.takeWhile_append_of_pos hw]
  cases rest with
  | nil => rw [List.takeWhile_nil, List.append_nil]
  | cons b bs => rw [List.takeWhile_cons_of_neg (by simp [hf b rfl]), List.append_nil]

theorem dropWhile_of_free {p : UInt8 → Bool} {w : List UInt8} (hw : ∀ b ∈ w, p b = true)
    (hf : Free p rest) : (w ++ rest).dropWhile p = rest := by
  rw [List.dropWhile_append_of_pos hw]
  cases rest with
  | nil => rfl
  | cons b bs => rw [List.dropWhile_cons_of_neg (by simp [hf b rfl])]

/-! ### White space and literals -/

theorem of_mem_takeWhile {p : UInt8 → Bool} {b : UInt8} (h : b ∈ bs.takeWhile p) : p b = true :=
  List.all_eq_true.1 List.all_takeWhile b h

theorem blanks_refl (bs : List UInt8) : Blanks bs bs := by
  refine ⟨[], ?_, rfl⟩
  intro b hb
  cases hb

theorem Grammar.Blanks.trans (h : Blanks bs cs) (h' : Blanks cs rest) : Blanks bs rest := by
  obtain ⟨w, hw, rfl⟩ := h
  obtain ⟨u, hu, rfl⟩ := h'
  refine ⟨w ++ u, ?_, (List.append_assoc _ _ _).symm⟩
  intro b hb
  rcases List.mem_append.1 hb with hb | hb
  · exact hw b hb
  · exact hu b hb

theorem blanks_skipBlank (bs : List UInt8) : Blanks bs (skipBlank bs) :=
  ⟨bs.takeWhile isBlank, fun _ hb => of_mem_takeWhile hb, List.takeWhile_append_dropWhile.symm⟩

theorem free_skipBlank (bs : List UInt8) : Free isBlank (skipBlank bs) := free_dropWhile isBlank bs

/-- All white space is skipped, and no more than that. -/
theorem skipBlank_of_blanks (h : Blanks bs rest) (hf : Free isBlank rest) :
    skipBlank bs = rest := by
  obtain ⟨w, hw, rfl⟩ := h
  exact dropWhile_of_free hw hf

theorem Grammar.Blanks.length_le (h : Blanks bs rest) : rest.length ≤ bs.length := by
  obtain ⟨w, -, rfl⟩ := h
  rw [List.length_append]
  exact Nat.le_add_left _ _

/-- A literal is read as it stands. -/
theorem literal_eq_ok {es : List UInt8} : literal es bs = .ok rest ↔ bs = es ++ rest := by
  induction es generalizing bs with
  | nil =>
    rw [literal]
    exact ⟨fun h => by cases h; rfl, fun h => by rw [h]; rfl⟩
  | cons e es ih =>
    cases bs with
    | nil => simp [literal]
    | cons b bs =>
      rw [literal, List.cons_append, List.cons.injEq]
      split
      · next h => rw [ih, and_iff_right h]
      · next h => simp [h]

theorem colon_eq_ok : colon bs = .ok rest ↔ Blanks bs (Ascii.colon :: rest) := by
  rw [colon, literal_eq_ok]
  constructor
  · intro h
    have hb := blanks_skipBlank bs
    rwa [h] at hb
  · intro h
    exact skipBlank_of_blanks h (free_cons rfl)

/-! ### Numbers -/

theorem someDigits_eq_ok {values : List Nat} :
    someDigits bs = .ok (values, rest) ↔ Digits bs values rest ∧ Free isDigit rest := by
  constructor
  · intro h
    cases bs with
    | nil => cases h
    | cons b bs =>
      rw [someDigits] at h
      split at h
      · next hb =>
        cases h
        refine ⟨⟨(b :: bs).takeWhile isDigit, ?_, fun _ ha => of_mem_takeWhile ha, rfl,
          List.takeWhile_append_dropWhile.symm⟩, free_dropWhile isDigit _⟩
        rw [List.takeWhile_cons_of_pos hb]
        exact List.cons_ne_nil _ _
      · cases h
  · rintro ⟨⟨w, hne, hw, rfl, rfl⟩, hf⟩
    have htake := takeWhile_of_free hw hf
    have hdrop := dropWhile_of_free hw hf
    cases w with
    | nil => exact absurd rfl hne
    | cons b w =>
      rw [List.cons_append, someDigits, if_pos (hw b List.mem_cons_self), digits,
        ← List.cons_append, htake, hdrop]

theorem Grammar.Digits.head {values : List Nat} (h : Digits bs values rest) :
    ∃ b cs, bs = b :: cs ∧ isDigit b = true := by
  obtain ⟨w, hne, hw, -, rfl⟩ := h
  cases w with
  | nil => exact absurd rfl hne
  | cons b w => exact ⟨b, w ++ rest, rfl, hw b List.mem_cons_self⟩

/-- The reader takes as many digits before the point as there are. -/
theorem wholePart_eq_ok {values : List Nat} :
    wholePart bs = .ok (values, rest) ↔ Whole bs values rest ∧ Free isDigit rest := by
  rw [wholePart, bind_eq_ok, Whole, and_right_comm, ← someDigits_eq_ok]
  constructor
  · rintro ⟨⟨ds, cs⟩, hd, h⟩
    simp only at h
    split at h
    · cases h
    · next hzero =>
      cases h
      refine ⟨hd, fun hhead => ?_⟩
      exact Classical.byContradiction fun hlen => hzero ⟨hhead, hlen⟩
  · rintro ⟨hd, hzero⟩
    refine ⟨_, hd, if_neg ?_⟩
    rintro ⟨hhead, hlen⟩
    exact hlen (hzero hhead)

/-- What is read after the point is a fraction of the grammar. -/
theorem fraction_of_ok {f : Option (List Nat)} (h : fractionPart bs = .ok (f, rest)) :
    Fraction bs f rest := by
  cases bs with
  | nil =>
    cases h
    exact .absent
  | cons b bs =>
    rw [fractionPart] at h
    split at h
    · next hb =>
      subst hb
      cases hd : someDigits bs with
      | error e =>
        rw [hd] at h
        cases h
      | ok x =>
        rw [hd] at h
        cases h
        exact .present (someDigits_eq_ok.1 hd).1
    · cases h
      exact .absent

/-- A fraction is read in full, unless what follows prolongs it. -/
theorem fractionPart_of_fraction {f : Option (List Nat)} (h : Fraction bs f rest)
    (hd : Free isDigit rest) (hp : Free (· == Ascii.point) rest) :
    fractionPart bs = .ok (f, rest) := by
  cases h with
  | absent =>
    cases bs with
    | nil => rfl
    | cons b bs =>
      have hb : b ≠ Ascii.point := by simpa using hp b rfl
      rw [fractionPart, if_neg hb]
  | present h =>
    rw [fractionPart, if_pos rfl, someDigits_eq_ok.2 ⟨h, hd⟩]
    rfl

def afterSign (bs : List UInt8) : List UInt8 :=
  if bs.head? = some Ascii.minus ∨ bs.head? = some Ascii.plus then bs.drop 1 else bs

theorem exponentPart_cons (b : UInt8) (bs : List UInt8) :
    exponentPart (b :: bs) =
      if b = 0x65 ∨ b = 0x45 then
        (someDigits (afterSign bs)).map fun x =>
          (some (if bs.head? = some Ascii.minus then -Int.ofNat (ofDigits x.1)
            else Int.ofNat (ofDigits x.1)), x.2)
      else .ok (none, b :: bs) := by
  rw [exponentPart]
  split
  · simp only [afterSign]
    cases someDigits (if bs.head? = some Ascii.minus ∨ bs.head? = some Ascii.plus then bs.drop 1
      else bs) <;> rfl
  · rfl

theorem sign_afterSign (bs : List UInt8) :
    Sign bs (decide (bs.head? = some Ascii.minus)) (afterSign bs) := by
  cases bs with
  | nil => exact .absent
  | cons b bs =>
    by_cases hm : b = Ascii.minus
    · subst hm
      exact .minus
    · by_cases hp : b = Ascii.plus
      · subst hp
        exact .plus
      · simp only [afterSign, List.head?_cons, Option.some.injEq, hm, hp, or_self, ↓reduceIte,
          decide_false]
        exact .absent

theorem sign_of_digits {negative : Bool} {values : List Nat} (hs : Sign bs negative cs)
    (hd : Digits cs values rest) :
    negative = decide (bs.head? = some Ascii.minus) ∧ afterSign bs = cs := by
  cases hs with
  | minus => exact ⟨rfl, rfl⟩
  | plus => exact ⟨rfl, rfl⟩
  | absent =>
    obtain ⟨b, w, rfl, hb⟩ := hd.head
    have hminus : b ≠ Ascii.minus := by rintro rfl; cases hb
    have hplus : b ≠ Ascii.plus := by rintro rfl; cases hb
    simp [afterSign, hminus, hplus]

/-- What is read after the letter is an exponent of the grammar. -/
theorem exponent_of_ok {e : Option Int} (h : exponentPart bs = .ok (e, rest)) :
    Exponent bs e rest := by
  cases bs with
  | nil =>
    cases h
    exact .absent
  | cons b bs =>
    rw [exponentPart_cons] at h
    split at h
    · next hb =>
      cases hd : someDigits (afterSign bs) with
      | error f =>
        rw [hd] at h
        cases h
      | ok x =>
        rw [hd] at h
        cases h
        have hexponent := Exponent.present hb (sign_afterSign bs) (someDigits_eq_ok.1 hd).1
        simpa using hexponent
    · cases h
      exact .absent

/-- An exponent is read in full, unless what follows prolongs it. -/
theorem exponentPart_of_exponent {e : Option Int} (h : Exponent bs e rest) (hd : Free isDigit rest)
    (he : Free (fun b => b == 0x65 || b == 0x45) rest) : exponentPart bs = .ok (e, rest) := by
  cases h with
  | absent =>
    cases bs with
    | nil => rfl
    | cons b bs =>
      have hb : ¬(b = 0x65 ∨ b = 0x45) := by simpa using he b rfl
      rw [exponentPart_cons, if_neg hb]
  | present hb hs h =>
    obtain ⟨rfl, hcs⟩ := sign_of_digits hs h
    rw [exponentPart_cons, if_pos hb, hcs, someDigits_eq_ok.2 ⟨h, hd⟩]
    simp [Except.map]

def prolongs (b : UInt8) : Bool := isDigit b || b == Ascii.point || b == 0x65 || b == 0x45

theorem Free.mono {p q : UInt8 → Bool} (h : Free p bs) (hq : ∀ b, q b = true → p b = true) :
    Free q bs := by
  intro b hb
  have hp := h b hb
  cases hqb : q b with
  | false => rfl
  | true => rw [hq b hqb] at hp; cases hp

section Unsigned

variable {negative : Bool} {x : Numeral}

def unsigned (negative : Bool) (bs : List UInt8) : Except Fault (Numeral × List UInt8) := do
  let (whole, rest) ← wholePart bs
  let (fraction, rest) ← fractionPart rest
  let (exponent, rest) ← exponentPart rest
  .ok (⟨negative, whole, fraction, exponent⟩, rest)

theorem numeral_eq (bs : List UInt8) :
    numeral bs =
      if bs.head? = some Ascii.minus then unsigned true (bs.drop 1) else unsigned false bs := by
  rw [numeral]
  split
  · next h =>
    simp only [h, decide_true]
    rfl
  · next h =>
    simp only [h, decide_false]
    rfl

/-- The reader takes only numbers of the grammar, and reads from them what they mean. -/
theorem unsigned_of_ok (h : unsigned negative bs = .ok (x, rest)) :
    Unsigned negative bs x rest := by
  obtain ⟨⟨whole, cs⟩, hw, h⟩ := bind_eq_ok.1 h
  obtain ⟨⟨fraction, ds⟩, hf, h⟩ := bind_eq_ok.1 h
  obtain ⟨⟨exponent, es⟩, he, h⟩ := bind_eq_ok.1 h
  cases h
  exact .mk (wholePart_eq_ok.1 hw).1 (fraction_of_ok hf) (exponent_of_ok he)

/-- Neither an exponent nor what comes after a number can be taken for digits or a point. -/
theorem free_of_exponent {e : Option Int} (h : Exponent bs e rest) (hd : Free isDigit rest)
    (hp : Free (· == Ascii.point) rest) : Free isDigit bs ∧ Free (· == Ascii.point) bs := by
  cases h with
  | absent => exact ⟨hd, hp⟩
  | present he _ _ => rcases he with rfl | rfl <;> exact ⟨free_cons rfl, free_cons rfl⟩

theorem free_of_fraction {f : Option (List Nat)} (h : Fraction bs f rest) (hd : Free isDigit rest) :
    Free isDigit bs := by
  cases h with
  | absent => exact hd
  | present _ => exact free_cons rfl

/-- It takes all of them that the bytes after them do not prolong. -/
theorem unsigned_of_grammar (h : Unsigned negative bs x rest) (hf : Free prolongs rest) :
    unsigned negative bs = .ok (x, rest) := by
  have hdigit : Free isDigit rest := hf.mono fun b hb => by simp [prolongs, hb]
  have hpoint : Free (· == Ascii.point) rest := hf.mono fun b hb => by simp [prolongs, hb]
  have hletter : Free (fun b => b == 0x65 || b == 0x45) rest := hf.mono fun b hb => by
    simp only [prolongs, Bool.or_assoc, hb, Bool.or_true]
  cases h with
  | mk hw hfraction he =>
    obtain ⟨hexponent, hpoint⟩ := free_of_exponent he hdigit hpoint
    rw [unsigned, wholePart_eq_ok.2 ⟨hw, free_of_fraction hfraction hexponent⟩]
    simp only [bind, Except.bind, fractionPart_of_fraction hfraction hexponent hpoint,
      exponentPart_of_exponent he hdigit hletter]

theorem Grammar.Unsigned.head (h : Unsigned negative bs x rest) :
    ∃ b cs, bs = b :: cs ∧ isDigit b = true := by
  obtain ⟨hw, -, -⟩ := h
  exact hw.1.head

theorem numeral_of_ok (h : numeral bs = .ok (x, rest)) : Number bs x rest := by
  rw [numeral_eq] at h
  split at h
  · next hm =>
    obtain ⟨cs, rfl⟩ := List.head?_eq_some_iff.1 hm
    exact .minus (unsigned_of_ok h)
  · exact .plain (unsigned_of_ok h)

/-- A number that is read is one of the grammar, and small enough for a double. -/
theorem number_of_ok (h : number bs = .ok (x, rest)) : Number bs x rest ∧ x.Fits := by
  obtain ⟨⟨y, cs⟩, hn, h⟩ := bind_eq_ok.1 h
  simp only at h
  split at h
  · cases h
  · next hhuge =>
    cases h
    exact ⟨numeral_of_ok hn, Bool.eq_false_iff.2 hhuge⟩

/-- Every such number is read, if nothing prolongs it. -/
theorem number_of_grammar (h : Number bs x rest) (hx : x.Fits)
    (hf : Free prolongs rest) : number bs = .ok (x, rest) := by
  have hn : numeral bs = .ok (x, rest) := by
    rw [numeral_eq]
    cases h with
    | minus h => exact unsigned_of_grammar h hf
    | plain h =>
      obtain ⟨b, cs, rfl, hb⟩ := h.head
      have hm : (b :: cs).head? ≠ some Ascii.minus := by
        rw [List.head?_cons]
        rintro hb'
        cases hb'
        cases hb
      rw [if_neg hm]
      exact unsigned_of_grammar h hf
  refine bind_eq_ok.2 ⟨_, hn, if_neg ?_⟩
  exact Bool.eq_false_iff.1 hx

end Unsigned

end AckRelay.Json
