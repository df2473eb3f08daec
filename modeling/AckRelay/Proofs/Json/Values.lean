import AckRelay.Proofs.Json.Strings

namespace AckRelay.Json

open Grammar

variable {fits : Numeral → Prop} {bs cs ds rest : List UInt8} {levels : Nat} {first : Bool}
  {v : Json}

/-- The strings that are read are those of the grammar. -/
theorem string_eq_ok {s : String} : string bs = .ok (s, rest) ↔ Letters bs s.toList rest :=
  ⟨letters_of_ok, string_of_letters⟩

/-! ### Where phrases begin -/

theorem not_blank_of_digit {b : UInt8} (h : isDigit b = true) : isBlank b = false := by
  simp only [isDigit, isBlank, Bool.and_eq_true, decide_eq_true_eq, UInt8.le_iff_toNat_le,
    Bool.or_eq_false_iff, beq_eq_false_iff_ne, ne_eq, ← UInt8.toNat_inj] at h ⊢
  simp at h ⊢
  omega

theorem not_prolongs_of_blank {b : UInt8} (h : isBlank b = true) : prolongs b = false := by
  simp only [isBlank, Bool.or_eq_true, beq_iff_eq] at h
  rcases h with ((rfl | rfl) | rfl) | rfl <;> rfl

theorem free_of_blanks (h : Blanks bs rest) (hf : Free prolongs rest) : Free prolongs bs := by
  obtain ⟨w, hw, rfl⟩ := h
  cases w with
  | nil => exact hf
  | cons b w => exact free_cons (not_prolongs_of_blank (hw b List.mem_cons_self))

theorem Grammar.Number.head {x : Numeral} (h : Number bs x rest) :
    ∃ b cs, bs = b :: cs ∧ (b = Ascii.minus ∨ isDigit b = true) := by
  cases h with
  | minus h => exact ⟨_, _, rfl, Or.inl rfl⟩
  | plain h =>
    obtain ⟨b, cs, rfl, hb⟩ := h.head
    exact ⟨b, cs, rfl, Or.inr hb⟩

/-- No value begins with white space or a closing bracket. -/
theorem Grammar.Value.head (h : Value fits levels bs v rest) :
    ∃ b cs, bs = b :: cs ∧ isBlank b = false ∧ b ≠ Ascii.closeList := by
  cases h with
  | null => exact ⟨_, _, rfl, rfl, by decide⟩
  | yes => exact ⟨_, _, rfl, rfl, by decide⟩
  | no => exact ⟨_, _, rfl, rfl, by decide⟩
  | text h => exact ⟨_, _, rfl, rfl, by decide⟩
  | list h => exact ⟨_, _, rfl, rfl, by decide⟩
  | object h => exact ⟨_, _, rfl, rfl, by decide⟩
  | number h hx =>
    obtain ⟨b, cs, rfl, rfl | hb⟩ := h.head
    · exact ⟨_, _, rfl, rfl, by decide⟩
    · refine ⟨b, cs, rfl, not_blank_of_digit hb, ?_⟩
      rintro rfl
      cases hb

theorem ofNumeral_cases (x : Numeral) : (∃ n, ofNumeral x = .integer n) ∨ ofNumeral x = .real := by
  rw [ofNumeral]
  cases x.integer? with
  | some n => exact Or.inl ⟨n, rfl⟩
  | none => exact Or.inr rfl

theorem letters_of_value {s : String} (h : Value fits levels bs (.text s) rest) :
    ∃ cs, bs = Ascii.quote :: cs ∧ Letters cs s.toList rest := by
  generalize hv : Json.text s = v at h
  cases h with
  | text h =>
    cases hv
    exact ⟨_, rfl, h⟩
  | @number _ _ _ x _ _ => rcases ofNumeral_cases x with ⟨n, hx⟩ | hx <;> rw [hx] at hv <;> cases hv
  | _ => cases hv

theorem members_of_value {ms : List (String × Json)}
    (h : Value fits levels bs (.object ms) rest) :
    ∃ n cs, levels = n + 1 ∧ bs = Ascii.openObject :: cs ∧ Members fits true n cs ms rest := by
  generalize hv : Json.object ms = v at h
  cases h with
  | object h =>
    cases hv
    exact ⟨_, _, rfl, rfl, h⟩
  | @number _ _ _ x _ _ => rcases ofNumeral_cases x with ⟨n, hx⟩ | hx <;> rw [hx] at hv <;> cases hv
  | _ => cases hv

theorem Grammar.Lead.trans (h : Lead first bs cs) (h' : Blanks cs rest) : Lead first bs rest := by
  cases h with
  | first h => exact .first (h.trans h')
  | next h hcs => exact .next h (hcs.trans h')

theorem Grammar.Lead.length_le (h : Lead first bs rest) : rest.length ≤ bs.length := by
  cases h with
  | first h => exact h.length_le
  | next h h' =>
    have hle := h.length_le
    have hle' := h'.length_le
    rw [List.length_cons] at hle
    omega

theorem Grammar.Digits.length_lt {values : List Nat} (h : Digits bs values rest) :
    rest.length < bs.length := by
  obtain ⟨w, hne, -, -, rfl⟩ := h
  have hpos := List.length_pos_iff.2 hne
  rw [List.length_append]
  omega

theorem Grammar.Fraction.length_le {f : Option (List Nat)} (h : Fraction bs f rest) :
    rest.length ≤ bs.length := by
  cases h with
  | absent => exact Nat.le_refl _
  | present h => exact Nat.le_of_lt (Nat.lt_succ_of_lt h.length_lt)

theorem Grammar.Exponent.length_le {e : Option Int} (h : Exponent bs e rest) :
    rest.length ≤ bs.length := by
  cases h with
  | absent => exact Nat.le_refl _
  | present _ hs h =>
    have hlt := h.length_lt
    cases hs <;> simp only [List.length_cons] at * <;> omega

/-- Each number has a byte at least, so the reader gets on. -/
theorem Grammar.Number.length_lt {x : Numeral} (h : Number bs x rest) :
    rest.length < bs.length := by
  have hunsigned : ∀ {negative bs}, Unsigned negative bs x rest → rest.length < bs.length := by
    intro negative bs h
    obtain ⟨hw, hf, he⟩ := h
    have hlt := hw.1.length_lt
    have hle := hf.length_le
    have hle' := he.length_le
    omega
  cases h with
  | plain h => exact hunsigned h
  | minus h => exact Nat.lt_succ_of_lt (hunsigned h)

theorem length_lt_literal (b : UInt8) (es rest : List UInt8) :
    rest.length < (b :: (es ++ rest)).length := by
  rw [List.length_cons, List.length_append]
  omega

mutual

theorem Grammar.Value.length_lt {levels : Nat} {bs rest : List UInt8} {v : Json} :
    Value fits levels bs v rest → rest.length < bs.length
  | .null => length_lt_literal _ _ _
  | .yes => length_lt_literal _ _ _
  | .no => length_lt_literal _ _ _
  | .number h _ => h.length_lt
  | .text h => Nat.lt_succ_of_lt h.length_lt
  | .list h => Nat.lt_succ_of_lt h.length_lt
  | .object h => Nat.lt_succ_of_lt h.length_lt

theorem Grammar.Items.length_lt {first : Bool} {levels : Nat} {bs rest : List UInt8}
    {xs : List Json} : Items fits first levels bs xs rest → rest.length < bs.length
  | .closed h => h.length_le
  | .item hl hv h => Nat.lt_of_lt_of_le (Nat.lt_trans h.length_lt hv.length_lt) hl.length_le

theorem Grammar.Members.length_lt {first : Bool} {levels : Nat} {bs rest : List UInt8}
    {ms : List (String × Json)} : Members fits first levels bs ms rest → rest.length < bs.length
  | .closed h => h.length_le
  | .member hl hk hc hb hv h => by
    have hlead := hl.length_le
    have hkey := hk.length_lt
    have hcolon := hc.length_le
    have hblanks := hb.length_le
    have hvalue := hv.length_lt
    have hrest := h.length_lt
    rw [List.length_cons] at hlead hcolon
    omega

end

/-! ### The elements of lists and the members of objects -/

theorem nextItem_closed : nextItem first bs = .ok (.closed rest) ↔
    Blanks bs (Ascii.closeList :: rest) := by
  constructor
  · intro h
    have hb := blanks_skipBlank bs
    rw [nextItem] at h
    split at h
    · cases h
    · next b cs hs =>
      rw [hs] at hb
      split at h
      · next hclose =>
        cases h
        rwa [hclose] at hb
      · split at h
        · cases h
        · split at h
          · split at h
            · cases h
            · split at h <;> cases h
          · cases h
  · intro h
    rw [nextItem, skipBlank_of_blanks h (free_cons rfl)]
    rfl

/-- An element that comes next is the first one or stands after a comma. -/
theorem lead_of_nextItem (h : nextItem first bs = .ok (.more rest)) : Lead first bs rest := by
  have hb := blanks_skipBlank bs
  rw [nextItem] at h
  split at h
  · cases h
  · next b cs hs =>
    rw [hs] at hb
    split at h
    · cases h
    · split at h
      · next hfirst =>
        cases h
        subst hfirst
        exact .first hb
      · next hfirst =>
        rw [Bool.not_eq_true] at hfirst
        subst hfirst
        split at h
        · next hcomma =>
          subst hcomma
          have hc := blanks_skipBlank cs
          split at h
          · cases h
          · next c ds hs' =>
            rw [hs'] at hc
            split at h
            · cases h
            · cases h
              exact .next hb hc
        · cases h

theorem nextItem_of_lead (h : Lead first bs rest)
    (hr : ∃ b cs, rest = b :: cs ∧ isBlank b = false ∧ b ≠ Ascii.closeList) :
    nextItem first bs = .ok (.more rest) := by
  obtain ⟨b, cs, rfl, hblank, hclose⟩ := hr
  cases h with
  | first h =>
    rw [nextItem, skipBlank_of_blanks h (free_cons hblank)]
    simp only [hclose, ↓reduceIte]
  | next h h' =>
    rw [nextItem, skipBlank_of_blanks h (free_cons rfl)]
    simp only [skipBlank_of_blanks h' (free_cons hblank), hclose, ↓reduceIte]
    rfl

theorem nextKey_closed : nextKey first bs = .ok (.closed rest) ↔
    Blanks bs (Ascii.closeObject :: rest) := by
  have hopen : ∀ cs, openKey cs ≠ .ok (.closed rest) := by
    intro cs h
    obtain ⟨ds, -, h⟩ := bind_eq_ok.1 h
    cases h
  constructor
  · intro h
    have hb := blanks_skipBlank bs
    rw [nextKey] at h
    split at h
    · cases h
    · next b cs hs =>
      rw [hs] at hb
      split at h
      · next hclose =>
        cases h
        rwa [hclose] at hb
      · split at h
        · exact absurd h (hopen _)
        · split at h
          · exact absurd h (hopen _)
          · cases h
  · intro h
    rw [nextKey, skipBlank_of_blanks h (free_cons rfl)]
    rfl

theorem openKey_eq_ok : openKey bs = .ok (.more rest) ↔ Blanks bs (Ascii.quote :: rest) := by
  rw [openKey, bind_eq_ok]
  constructor
  · rintro ⟨cs, hl, h⟩
    cases h
    have hb := blanks_skipBlank bs
    rwa [literal_eq_ok.1 hl] at hb
  · intro h
    exact ⟨rest, literal_eq_ok.2 (skipBlank_of_blanks h (free_cons rfl)), rfl⟩

/-- A key that comes next is the first one or stands after a comma. -/
theorem nextKey_more : nextKey first bs = .ok (.more rest) ↔
    Lead first bs (Ascii.quote :: rest) := by
  constructor
  · intro h
    have hb := blanks_skipBlank bs
    have hf := free_skipBlank bs
    rw [nextKey] at h
    split at h
    · cases h
    · next b cs hs =>
      rw [hs] at hb hf
      split at h
      · cases h
      · split at h
        · next hfirst =>
          subst hfirst
          have hquote := openKey_eq_ok.1 h
          rw [← skipBlank_of_blanks hquote (free_cons rfl),
            skipBlank_of_blanks (blanks_refl _) hf]
          exact .first hb
        · next hfirst =>
          rw [Bool.not_eq_true] at hfirst
          subst hfirst
          split at h
          · next hcomma =>
            subst hcomma
            exact .next hb (openKey_eq_ok.1 h)
          · cases h
  · intro h
    cases h with
    | first h =>
      rw [nextKey, skipBlank_of_blanks h (free_cons rfl)]
      exact openKey_eq_ok.2 (blanks_refl _)
    | next h h' =>
      rw [nextKey, skipBlank_of_blanks h (free_cons rfl)]
      exact openKey_eq_ok.2 h'

/-! ### From the reader to the grammar -/

theorem map_eq_ok {α β : Type} {x : Except Fault α} {f : α → β} {b : β} :
    x.map f = .ok b ↔ ∃ a, x = .ok a ∧ f a = b := by
  cases x with
  | error e => simp [Except.map]
  | ok a => simp [Except.map]

/-- Strings, numbers and literals are values of the grammar. -/
theorem value_of_scalar (h : scalar bs = .ok (v, rest)) : Value Numeral.Fits levels bs v rest := by
  cases bs with
  | nil => cases h
  | cons b bs =>
    rw [scalar] at h
    split at h
    · next hb =>
      obtain ⟨cs, hl, h⟩ := map_eq_ok.1 h
      cases h
      rw [hb, literal_eq_ok.1 hl]
      exact .null
    · split at h
      · next hb =>
        obtain ⟨cs, hl, h⟩ := map_eq_ok.1 h
        cases h
        rw [hb, literal_eq_ok.1 hl]
        exact .yes
      · split at h
        · next hb =>
          obtain ⟨cs, hl, h⟩ := map_eq_ok.1 h
          cases h
          rw [hb, literal_eq_ok.1 hl]
          exact .no
        · split at h
          · obtain ⟨⟨x, cs⟩, hn, h⟩ := map_eq_ok.1 h
            cases h
            obtain ⟨hnumber, hhuge⟩ := number_of_ok hn
            exact .number hnumber hhuge
          · cases h

mutual

/-- What is read as a value is one of the grammar; by recursion on the steps of the reader. -/
theorem grammar_of_value {levels : Nat} {bs rest : List UInt8} {v : Json} :
    (fuel : Nat) → value fuel levels bs = .ok (v, rest) →
      Value Numeral.Fits levels (skipBlank bs) v rest
  | 0, h => by cases h
  | fuel + 1, h => by
    rw [value] at h
    split at h
    · cases h
    · next b cs hs =>
      rw [hs]
      split at h
      · next hb =>
        subst hb
        split at h
        · cases h
        · next hlevels =>
          obtain ⟨xs, rfl, hxs⟩ := grammar_of_items fuel h
          obtain ⟨levels, rfl⟩ := Nat.exists_eq_succ_of_ne_zero hlevels
          exact .list hxs
      · split at h
        · next hb =>
          subst hb
          split at h
          · cases h
          · next hlevels =>
            obtain ⟨ms, rfl, hms⟩ := grammar_of_members fuel h
            obtain ⟨levels, rfl⟩ := Nat.exists_eq_succ_of_ne_zero hlevels
            exact .object hms
        · split at h
          · next hb =>
            subst hb
            obtain ⟨⟨s, ds⟩, hstring, h⟩ := map_eq_ok.1 h
            cases h
            exact .text (string_eq_ok.1 hstring)
          · exact value_of_scalar h

/-- What is read as the rest of a list is one of the grammar. -/
theorem grammar_of_items {levels : Nat} {read : List Json} {bs rest : List UInt8} {v : Json} :
    (fuel : Nat) → items fuel levels read bs = .ok (v, rest) →
      ∃ xs, v = .list (read.reverse ++ xs) ∧ Items Numeral.Fits read.isEmpty levels bs xs rest
  | 0, h => by cases h
  | fuel + 1, h => by
    rw [items] at h
    split at h
    · cases h
    · next hn =>
      cases h
      exact ⟨[], by rw [List.append_nil], .closed (nextItem_closed.1 hn)⟩
    · next cs hn =>
      split at h
      · cases h
      · next x ds hx =>
        obtain ⟨xs, rfl, hxs⟩ := grammar_of_items fuel h
        have hlead := (lead_of_nextItem hn).trans (blanks_skipBlank cs)
        refine ⟨x :: xs, by rw [List.reverse_cons, List.append_assoc]; rfl, ?_⟩
        exact .item hlead (grammar_of_value fuel hx) hxs

/-- What is read as the rest of an object is one of the grammar. -/
theorem grammar_of_members {levels : Nat} {read : List (String × Json)} {bs rest : List UInt8}
    {v : Json} : (fuel : Nat) → members fuel levels read bs = .ok (v, rest) →
      ∃ ms, v = .object (read.reverse ++ ms) ∧
        Members Numeral.Fits read.isEmpty levels bs ms rest
  | 0, h => by cases h
  | fuel + 1, h => by
    rw [members] at h
    split at h
    · cases h
    · next hn =>
      cases h
      exact ⟨[], by rw [List.append_nil], .closed (nextKey_closed.1 hn)⟩
    · next cs hn =>
      split at h
      · cases h
      · next key ds hk =>
        split at h
        · cases h
        · next es hc =>
          split at h
          · cases h
          · next x fs hx =>
            obtain ⟨ms, rfl, hms⟩ := grammar_of_members fuel h
            refine ⟨(key, x) :: ms, by rw [List.reverse_cons, List.append_assoc]; rfl, ?_⟩
            exact .member (nextKey_more.1 hn) (string_eq_ok.1 hk) (colon_eq_ok.1 hc)
              (blanks_skipBlank es) (grammar_of_value fuel hx) hms

end

/-! ### From the grammar to the reader -/

theorem scalar_of_number {x : Numeral} (h : Number bs x rest) (hx : x.isHuge = false)
    (hf : Free prolongs rest) : scalar bs = .ok (ofNumeral x, rest) := by
  have hread := number_of_grammar h hx hf
  obtain ⟨b, cs, rfl, hb⟩ := h.head
  have hletter : b ≠ 0x6E ∧ b ≠ 0x74 ∧ b ≠ 0x66 := by
    refine ⟨?_, ?_, ?_⟩ <;> rintro rfl <;> rcases hb with hb | hb <;> cases hb
  rw [scalar, if_neg hletter.1, if_neg hletter.2.1, if_neg hletter.2.2, if_pos hb, hread]
  rfl

theorem value_of_nonblank {fuel : Nat} {b : UInt8} (hb : isBlank b = false) :
    value (fuel + 1) levels (b :: bs) =
      if b = Ascii.openList then
        if levels = 0 then .error .malformed else items fuel (levels - 1) [] bs
      else if b = Ascii.openObject then
        if levels = 0 then .error .malformed else members fuel (levels - 1) [] bs
      else if b = Ascii.quote then (string bs).map (fun x => (.text x.1, x.2))
      else scalar (b :: bs) := by
  rw [value, skipBlank_of_blanks (blanks_refl _) (free_cons hb)]

theorem value_openList {fuel : Nat} :
    value (fuel + 1) (levels + 1) (Ascii.openList :: bs) = items fuel levels [] bs := by
  rw [value_of_nonblank rfl, if_pos rfl, if_neg (Nat.succ_ne_zero _), Nat.add_sub_cancel]

theorem value_openObject {fuel : Nat} :
    value (fuel + 1) (levels + 1) (Ascii.openObject :: bs) = members fuel levels [] bs := by
  rw [value_of_nonblank rfl, if_neg (by decide), if_pos rfl, if_neg (Nat.succ_ne_zero _),
    Nat.add_sub_cancel]

/-- White space in front of a value does not matter. -/
theorem value_of_blanks {fuel : Nat} (h : Blanks bs cs) :
    value fuel levels bs = value fuel levels cs := by
  have hskip : skipBlank bs = skipBlank cs :=
    skipBlank_of_blanks (h.trans (blanks_skipBlank cs)) (free_skipBlank cs)
  cases fuel with
  | zero => rfl
  | succ fuel => rw [value, value, hskip]

theorem free_of_items {xs : List Json} (h : Items fits false levels bs xs rest) :
    Free prolongs bs := by
  cases h with
  | closed h => exact free_of_blanks h (free_cons rfl)
  | item hl _ _ =>
    cases hl with
    | next h _ => exact free_of_blanks h (free_cons rfl)

theorem free_of_members {ms : List (String × Json)} (h : Members fits false levels bs ms rest) :
    Free prolongs bs := by
  cases h with
  | closed h => exact free_of_blanks h (free_cons rfl)
  | member hl _ _ _ _ _ =>
    cases hl with
    | next h _ => exact free_of_blanks h (free_cons rfl)

/-- Two steps for each byte are enough. -/
theorem fuel_of_cons {fuel : Nat} {b : UInt8} (h : 2 * (b :: bs).length ≤ fuel) :
    ∃ n, fuel = n + 1 ∧ 2 * bs.length + 1 ≤ n := by
  rw [List.length_cons] at h
  exact ⟨fuel - 1, by omega, by omega⟩

theorem value_of_number {fuel : Nat} {x : Numeral} (h : Number bs x rest) (hx : x.isHuge = false)
    (hf : Free prolongs rest) (hfuel : 2 * bs.length ≤ fuel) :
    value fuel levels bs = .ok (ofNumeral x, rest) := by
  have hscalar := scalar_of_number h hx hf
  obtain ⟨b, cs, rfl, hb⟩ := h.head
  obtain ⟨n, rfl, -⟩ := fuel_of_cons hfuel
  have hblank : isBlank b = false := by
    rcases hb with rfl | hb
    · rfl
    · exact not_blank_of_digit hb
  have hopen : b ≠ Ascii.openList ∧ b ≠ Ascii.openObject ∧ b ≠ Ascii.quote := by
    refine ⟨?_, ?_, ?_⟩ <;> rintro rfl <;> rcases hb with hb | hb <;> cases hb
  rw [value_of_nonblank hblank, if_neg hopen.1, if_neg hopen.2.1, if_neg hopen.2.2, hscalar]

theorem value_of_literal {fuel : Nat} {b : UInt8} {es : List UInt8}
    (hscalar : scalar (b :: (es ++ rest)) = .ok (v, rest))
    (hb : isBlank b = false ∧ b ≠ Ascii.openList ∧ b ≠ Ascii.openObject ∧ b ≠ Ascii.quote)
    (hfuel : 2 * (b :: (es ++ rest)).length ≤ fuel) :
    value fuel levels (b :: (es ++ rest)) = .ok (v, rest) := by
  obtain ⟨n, rfl, -⟩ := fuel_of_cons hfuel
  obtain ⟨hblank, hlist, hobject, hquote⟩ := hb
  rw [value_of_nonblank hblank, if_neg hlist, if_neg hobject, if_neg hquote, hscalar]

mutual

/-- A value of the grammar is read, if there are steps enough and nothing prolongs it. -/
theorem value_of_grammar {levels : Nat} {bs rest : List UInt8} {v : Json} (fuel : Nat)
    (hf : Free prolongs rest) : Value Numeral.Fits levels bs v rest → 2 * bs.length ≤ fuel →
      value fuel levels bs = .ok (v, rest)
  | .null, hfuel => by
    refine value_of_literal ?_ (by decide) hfuel
    rw [scalar, if_pos rfl, literal_eq_ok.2 rfl]
    rfl
  | .yes, hfuel => by
    refine value_of_literal ?_ (by decide) hfuel
    rw [scalar, if_neg (by decide), if_pos rfl, literal_eq_ok.2 rfl]
    rfl
  | .no, hfuel => by
    refine value_of_literal ?_ (by decide) hfuel
    rw [scalar, if_neg (by decide), if_neg (by decide), if_pos rfl, literal_eq_ok.2 rfl]
    rfl
  | .number h hx, hfuel => value_of_number h hx hf hfuel
  | .text h, hfuel => by
    obtain ⟨n, rfl, -⟩ := fuel_of_cons hfuel
    rw [value_of_nonblank rfl, if_neg (by decide), if_neg (by decide), if_pos rfl,
      string_eq_ok.2 h]
    rfl
  | .list h, hfuel => by
    obtain ⟨n, rfl, hn⟩ := fuel_of_cons hfuel
    rw [value_openList]
    exact items_of_grammar n [] h rfl hn
  | .object h, hfuel => by
    obtain ⟨n, rfl, hn⟩ := fuel_of_cons hfuel
    rw [value_openObject]
    exact members_of_grammar n [] h rfl hn

/-- The rest of a list is read, after the elements that were read before. -/
theorem items_of_grammar {first : Bool} {levels : Nat} {bs rest : List UInt8} {xs : List Json}
    (fuel : Nat) (read : List Json) :
      Items Numeral.Fits first levels bs xs rest → read.isEmpty = first →
      2 * bs.length + 1 ≤ fuel → items fuel levels read bs = .ok (.list (read.reverse ++ xs), rest)
  | .closed h, _, hfuel => by
    obtain ⟨n, rfl⟩ := Nat.exists_eq_add_of_lt (Nat.lt_of_lt_of_le (Nat.succ_pos _) hfuel)
    rw [Nat.zero_add, items, nextItem_closed.2 h]
    simp only [List.append_nil]
  | .item hl hv h, hread, hfuel => by
    have hlead := hl.length_le
    have hvalue := hv.length_lt
    obtain ⟨n, rfl⟩ := Nat.exists_eq_add_of_lt (Nat.lt_of_lt_of_le (Nat.succ_pos _) hfuel)
    rw [Nat.zero_add, items, hread, nextItem_of_lead hl hv.head]
    simp only
    rw [value_of_grammar n (free_of_items h) hv (by omega)]
    simp only
    rw [items_of_grammar n (_ :: read) h rfl (by omega), List.reverse_cons, List.append_assoc,
      List.singleton_append]

/-- The rest of an object is read, after the members that were read before. -/
theorem members_of_grammar {first : Bool} {levels : Nat} {bs rest : List UInt8}
    {ms : List (String × Json)} (fuel : Nat) (read : List (String × Json)) :
    Members Numeral.Fits first levels bs ms rest → read.isEmpty = first → 2 * bs.length + 1 ≤ fuel →
      members fuel levels read bs = .ok (.object (read.reverse ++ ms), rest)
  | .closed h, _, hfuel => by
    obtain ⟨n, rfl⟩ := Nat.exists_eq_add_of_lt (Nat.lt_of_lt_of_le (Nat.succ_pos _) hfuel)
    rw [Nat.zero_add, members, nextKey_closed.2 h]
    simp only [List.append_nil]
  | .member hl hk hc hb hv h, hread, hfuel => by
    have hlead := hl.length_le
    have hkey := hk.length_lt
    have hcolon := hc.length_le
    have hblanks := hb.length_le
    have hvalue := hv.length_lt
    rw [List.length_cons] at hlead hcolon
    obtain ⟨n, rfl⟩ := Nat.exists_eq_add_of_lt (Nat.lt_of_lt_of_le (Nat.succ_pos _) hfuel)
    rw [Nat.zero_add, members, hread, nextKey_more.2 hl]
    simp only [string_eq_ok.2 hk, colon_eq_ok.2 hc, value_of_blanks hb]
    rw [value_of_grammar n (free_of_members h) hv (by omega)]
    simp only
    rw [members_of_grammar n (_ :: read) h rfl (by omega), List.reverse_cons,
      List.append_assoc, List.singleton_append]

end

/-! ### Whole texts -/

theorem next_of_grammar (hb : Blanks bs cs) (h : Value Numeral.Fits levels cs v rest)
    (hf : Free prolongs rest) : next levels bs = .ok (v, rest) := by
  have hle := hb.length_le
  rw [next, stepsFor, value_of_blanks hb]
  exact value_of_grammar _ hf h (by omega)

theorem grammar_of_next (h : next levels bs = .ok (v, rest)) :
    Value Numeral.Fits levels (skipBlank bs) v rest :=
  grammar_of_value _ h

/-- A text ends with white space alone. -/
theorem finish_eq_ok {u : Unit} : finish bs = .ok u ↔ Blanks bs [] := by
  rw [finish]
  constructor
  · intro h
    split at h
    · next hs =>
      have hb := blanks_skipBlank bs
      rwa [hs] at hb
    · cases h
  · intro h
    rw [if_pos (skipBlank_of_blanks h (free_nil _))]

/-- What is read as a text is what the grammar says. -/
theorem parse_eq_ok : parse bs = .ok v ↔ Document Numeral.Fits bs v := by
  rw [parse, bind_eq_ok]
  constructor
  · rintro ⟨⟨w, cs⟩, hnext, h⟩
    obtain ⟨u, hfinish, h⟩ := bind_eq_ok.1 h
    cases h
    exact ⟨_, cs, blanks_skipBlank bs, grammar_of_next hnext, finish_eq_ok.1 hfinish⟩
  · rintro ⟨cs, ds, hb, hv, he⟩
    refine ⟨(v, ds), next_of_grammar hb hv (free_of_blanks he (free_nil _)), ?_⟩
    exact bind_eq_ok.2 ⟨(), finish_eq_ok.2 he, rfl⟩

end AckRelay.Json
