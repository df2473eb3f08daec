import AckRelay.Proofs.Json.Values

/-!
Phrases of the grammar are texts of their own. Whatever comes after a phrase leaves it as it is, so
that nothing but white space comes after a list or an object that is a whole text; and all of it is
UTF-8.
-/

namespace AckRelay.Json

open Grammar
open String (utf8EncodeChar)
open Text (encode encode_append encode_cons)

variable {fits : Numeral → Prop} {bs cs rest : List UInt8} {levels : Nat} {first : Bool} {v : Json}

/-! ### More bytes at the end -/

section Extend

variable (more : List UInt8)

theorem Grammar.Blanks.extend (h : Blanks bs rest) : Blanks (bs ++ more) (rest ++ more) := by
  obtain ⟨w, hw, rfl⟩ := h
  exact ⟨w, hw, List.append_assoc _ _ _⟩

theorem Grammar.Digits.extend {values : List Nat} (h : Digits bs values rest) :
    Digits (bs ++ more) values (rest ++ more) := by
  obtain ⟨w, hne, hw, hvalues, rfl⟩ := h
  exact ⟨w, hne, hw, hvalues, List.append_assoc _ _ _⟩

theorem Grammar.Fraction.extend {f : Option (List Nat)} (h : Fraction bs f rest) :
    Fraction (bs ++ more) f (rest ++ more) := by
  cases h with
  | absent => exact .absent
  | present h => exact .present (h.extend more)

theorem Grammar.Sign.extend {negative : Bool} (h : Sign bs negative rest) :
    Sign (bs ++ more) negative (rest ++ more) := by
  cases h with
  | absent => exact .absent
  | plus => exact .plus
  | minus => exact .minus

theorem Grammar.Exponent.extend {e : Option Int} (h : Exponent bs e rest) :
    Exponent (bs ++ more) e (rest ++ more) := by
  cases h with
  | absent => exact .absent
  | present he hs hd => exact .present he (hs.extend more) (hd.extend more)

theorem Grammar.Unsigned.extend {negative : Bool} {x : Numeral} (h : Unsigned negative bs x rest) :
    Unsigned negative (bs ++ more) x (rest ++ more) := by
  obtain ⟨hw, hf, he⟩ := h
  exact .mk ⟨hw.1.extend more, hw.2⟩ (hf.extend more) (he.extend more)

/-- A number with all that comes after it, however much more there is. -/
theorem Grammar.Number.extend {x : Numeral} (h : Number bs x rest) :
    Number (bs ++ more) x (rest ++ more) := by
  cases h with
  | plain h => exact .plain (h.extend more)
  | minus h => exact .minus (h.extend more)

theorem Grammar.FourHex.extend {n : Nat} (h : FourHex bs n rest) :
    FourHex (bs ++ more) n (rest ++ more) := by
  obtain ⟨ha, hb, hc, hd⟩ := h
  exact .mk ha hb hc hd

theorem Grammar.Escape.extend {c : Char} (h : Escape bs c rest) :
    Escape (bs ++ more) c (rest ++ more) := by
  cases h with
  | short h => exact .short h
  | unit h hn => exact .unit (h.extend more) hn
  | pair h hn h' hm => exact .pair (h.extend more) hn (h'.extend more) hm

/-- The closing quote ends a string, whatever comes after it. -/
theorem Grammar.Letters.extend {s : List Char} (h : Letters bs s rest) :
    Letters (bs ++ more) s (rest ++ more) := by
  induction h with
  | closed => exact .closed
  | plain hq hb hc _ ih =>
    rw [List.append_assoc]
    exact .plain hq hb hc ih
  | escaped he _ ih => exact .escaped (he.extend more) ih

theorem Grammar.Lead.extend (h : Lead first bs rest) : Lead first (bs ++ more) (rest ++ more) := by
  cases h with
  | first h => exact .first (h.extend more)
  | next h h' => exact .next (h.extend more) (h'.extend more)

mutual

theorem Grammar.Value.extend {levels : Nat} {bs rest : List UInt8} {v : Json} :
    Value fits levels bs v rest → Value fits levels (bs ++ more) v (rest ++ more)
  | .null => .null
  | .yes => .yes
  | .no => .no
  | .number h hx => .number (h.extend more) hx
  | .text h => .text (h.extend more)
  | .list h => .list h.extend
  | .object h => .object h.extend

theorem Grammar.Items.extend {first : Bool} {levels : Nat} {bs rest : List UInt8}
    {xs : List Json} :
    Items fits first levels bs xs rest → Items fits first levels (bs ++ more) xs (rest ++ more)
  | .closed h => .closed (h.extend more)
  | .item hl hv h => .item (hl.extend more) hv.extend h.extend

theorem Grammar.Members.extend {first : Bool} {levels : Nat} {bs rest : List UInt8}
    {ms : List (String × Json)} :
    Members fits first levels bs ms rest → Members fits first levels (bs ++ more) ms (rest ++ more)
  | .closed h => .closed (h.extend more)
  | .member hl hk hc hb hv h =>
    .member (hl.extend more) (hk.extend more) (hc.extend more) (hb.extend more) hv.extend h.extend

end

end Extend

/-! ### UTF-8 -/

def Utf8Before (bs rest : List UInt8) : Prop := ∃ cs : List Char, bs = encode cs ++ rest

namespace Utf8Before

theorem refl (bs : List UInt8) : Utf8Before bs bs := ⟨[], rfl⟩

theorem trans (h : Utf8Before bs cs) (h' : Utf8Before cs rest) : Utf8Before bs rest := by
  obtain ⟨w, rfl⟩ := h
  obtain ⟨u, rfl⟩ := h'
  exact ⟨w ++ u, by rw [encode_append, List.append_assoc]⟩

theorem byte {b : UInt8} (hb : b.toNat < 0x80) (rest : List UInt8) :
    Utf8Before (b :: rest) rest := by
  have hall : ∀ n < 0x80, utf8EncodeChar (Char.ofNat n) = [UInt8.ofNat n] := by decide
  refine ⟨[Char.ofNat b.toNat], ?_⟩
  rw [encode_cons, hall b.toNat hb, UInt8.ofNat_toNat]
  rfl

theorem bytes {w : List UInt8} (hw : ∀ b ∈ w, b.toNat < 0x80) (rest : List UInt8) :
    Utf8Before (w ++ rest) rest := by
  induction w with
  | nil => exact refl rest
  | cons b w ih =>
    exact (byte (hw b List.mem_cons_self) _).trans (ih fun c hc => hw c (List.mem_cons_of_mem b hc))

end Utf8Before

/-- White space is ASCII, and so UTF-8. -/
theorem Grammar.Blanks.utf8 (h : Blanks bs rest) : Utf8Before bs rest := by
  obtain ⟨w, hw, rfl⟩ := h
  refine .bytes (fun b hb => ?_) rest
  have hblank := hw b hb
  simp only [isBlank, Bool.or_eq_true, beq_iff_eq] at hblank
  rcases hblank with ((rfl | rfl) | rfl) | rfl <;> decide

theorem lt_of_digit {b : UInt8} (h : isDigit b = true) : b.toNat < 0x80 := by
  rw [isDigit, Bool.and_eq_true, decide_eq_true_eq, decide_eq_true_eq] at h
  exact Nat.lt_of_le_of_lt (UInt8.le_iff_toNat_le.1 h.2) (by decide)

theorem Grammar.Digits.utf8 {values : List Nat} (h : Digits bs values rest) :
    Utf8Before bs rest := by
  obtain ⟨w, -, hw, -, rfl⟩ := h
  exact .bytes (fun b hb => lt_of_digit (hw b hb)) rest

theorem Grammar.Fraction.utf8 {f : Option (List Nat)} (h : Fraction bs f rest) :
    Utf8Before bs rest := by
  cases h with
  | absent => exact .refl _
  | present h => exact (Utf8Before.byte (by decide) _).trans h.utf8

theorem Grammar.Sign.utf8 {negative : Bool} (h : Sign bs negative rest) : Utf8Before bs rest := by
  cases h with
  | absent => exact .refl _
  | plus => exact .byte (by decide) _
  | minus => exact .byte (by decide) _

theorem Grammar.Exponent.utf8 {e : Option Int} (h : Exponent bs e rest) : Utf8Before bs rest := by
  cases h with
  | absent => exact .refl _
  | @present b _ _ _ _ _ he hs hd =>
    have hletter : b.toNat < 0x80 := by rcases he with rfl | rfl <;> decide
    exact (Utf8Before.byte hletter _).trans (hs.utf8.trans hd.utf8)

theorem Grammar.Number.utf8 {x : Numeral} (h : Number bs x rest) : Utf8Before bs rest := by
  have hunsigned : ∀ {negative bs}, Unsigned negative bs x rest → Utf8Before bs rest := by
    intro negative bs h
    obtain ⟨hw, hf, he⟩ := h
    exact hw.1.utf8.trans (hf.utf8.trans he.utf8)
  cases h with
  | plain h => exact hunsigned h
  | minus h => exact (Utf8Before.byte (by decide) _).trans (hunsigned h)

theorem lt_of_hexOf? {b : UInt8} {n : Nat} (h : hexOf? b = some n) : b.toNat < 0x80 := by
  rw [hexOf?] at h
  split at h
  · next hb => exact lt_of_digit hb
  · split at h
    · next hb =>
      rw [Bool.and_eq_true, decide_eq_true_eq, decide_eq_true_eq] at hb
      exact Nat.lt_of_le_of_lt (UInt8.le_iff_toNat_le.1 hb.2) (by decide)
    · split at h
      · next hb =>
        rw [Bool.and_eq_true, decide_eq_true_eq, decide_eq_true_eq] at hb
        exact Nat.lt_of_le_of_lt (UInt8.le_iff_toNat_le.1 hb.2) (by decide)
      · cases h

theorem Grammar.FourHex.utf8 {n : Nat} (h : FourHex bs n rest) : Utf8Before bs rest := by
  obtain ⟨ha, hb, hc, hd⟩ := h
  exact (Utf8Before.byte (lt_of_hexOf? ha) _).trans <| (Utf8Before.byte (lt_of_hexOf? hb) _).trans <|
    (Utf8Before.byte (lt_of_hexOf? hc) _).trans <| .byte (lt_of_hexOf? hd) _

theorem lt_of_shortEscape? {b e : UInt8} (h : shortEscape? b = some e) : b.toNat < 0x80 := by
  rw [shortEscape?] at h
  split at h
  · next hb => rcases hb with rfl | rfl | rfl <;> decide
  · repeat'
      split at h
      · next hb =>
        rw [hb]
        decide
    cases h

theorem Grammar.Escape.utf8 {c : Char} (h : Escape bs c rest) : Utf8Before bs rest := by
  cases h with
  | short h => exact .byte (lt_of_shortEscape? h) _
  | unit h _ => exact (Utf8Before.byte (by decide) _).trans h.utf8
  | pair h _ h' _ =>
    exact (Utf8Before.byte (by decide) _).trans <| h.utf8.trans <|
      (Utf8Before.byte (by decide) _).trans <| (Utf8Before.byte (by decide) _).trans h'.utf8

/-- A string that can be read is UTF-8 up to its closing quote. -/
theorem Grammar.Letters.utf8 {s : List Char} (h : Letters bs s rest) : Utf8Before bs rest := by
  induction h with
  | closed => exact .byte (by decide) _
  | @plain bs rest c s _ _ _ _ ih =>
    have hchar : Utf8Before (utf8EncodeChar c ++ bs) bs :=
      ⟨[c], by rw [encode_cons, Text.encode_nil, List.append_nil]⟩
    exact hchar.trans ih
  | escaped he _ ih => exact (Utf8Before.byte (by decide) _).trans (he.utf8.trans ih)

theorem Grammar.Lead.utf8 (h : Lead first bs rest) : Utf8Before bs rest := by
  cases h with
  | first h => exact h.utf8
  | next h h' => exact h.utf8.trans ((Utf8Before.byte (by decide) _).trans h'.utf8)

/-- Literals are ASCII. -/
theorem utf8_literal {b : UInt8} {es : List UInt8}
    (h : ((b :: es).all fun c => c.toNat < 0x80) = true) (rest : List UInt8) :
    Utf8Before (b :: (es ++ rest)) rest :=
  .bytes (fun c hc => of_decide_eq_true (List.all_eq_true.1 h c hc)) rest

mutual

theorem Grammar.Value.utf8 {levels : Nat} {bs rest : List UInt8} {v : Json} :
    Value fits levels bs v rest → Utf8Before bs rest
  | .null => utf8_literal rfl _
  | .yes => utf8_literal rfl _
  | .no => utf8_literal rfl _
  | .number h _ => h.utf8
  | .text h => (Utf8Before.byte (by decide) _).trans h.utf8
  | .list h => (Utf8Before.byte (by decide) _).trans h.utf8
  | .object h => (Utf8Before.byte (by decide) _).trans h.utf8

theorem Grammar.Items.utf8 {first : Bool} {levels : Nat} {bs rest : List UInt8} {xs : List Json} :
    Items fits first levels bs xs rest → Utf8Before bs rest
  | .closed h => h.utf8.trans (.byte (by decide) _)
  | .item hl hv h => hl.utf8.trans (hv.utf8.trans h.utf8)

theorem Grammar.Members.utf8 {first : Bool} {levels : Nat} {bs rest : List UInt8}
    {ms : List (String × Json)} : Members fits first levels bs ms rest → Utf8Before bs rest
  | .closed h => h.utf8.trans (.byte (by decide) _)
  | .member hl hk hc hb hv h =>
    hl.utf8.trans <| (Utf8Before.byte (by decide) _).trans <| hk.utf8.trans <| hc.utf8.trans <|
      (Utf8Before.byte (by decide) _).trans <| hb.utf8.trans <| hv.utf8.trans h.utf8

end

/-- A text of the grammar is UTF-8. -/
theorem Grammar.Document.utf8 (h : Document fits bs v) : ∃ s : String, bs = Text.toUtf8 s := by
  obtain ⟨cs, ds, hb, hv, he⟩ := h
  obtain ⟨w, hw⟩ := (hb.utf8.trans hv.utf8).trans he.utf8
  exact ⟨String.ofList w, by rw [Text.toUtf8_ofList, hw, List.append_nil]⟩

/-! ### The end of a list or an object -/

def isNested : Json → Bool
  | .list _ | .object _ => true
  | _ => false

/-- A list or an object ends at its bracket, so nothing after it can prolong it. -/
theorem value_of_nested {fuel : Nat} (h : Value Numeral.Fits levels bs v rest)
    (hv : v.isNested = true) (hfuel : 2 * bs.length ≤ fuel) :
    value fuel levels bs = .ok (v, rest) := by
  -- `value_of_grammar` asks for a rest that prolongs no number; here the bracket ends the value
  cases h with
  | list h =>
    obtain ⟨n, rfl, hn⟩ := fuel_of_cons hfuel
    rw [value_openList]
    exact items_of_grammar n [] h rfl hn
  | object h =>
    obtain ⟨n, rfl, hn⟩ := fuel_of_cons hfuel
    rw [value_openObject]
    exact members_of_grammar n [] h rfl hn
  | @number _ _ _ x _ _ => rcases ofNumeral_cases x with ⟨n, hx⟩ | hx <;> rw [hx] at hv <;> cases hv
  | _ => cases hv

/-- Nothing but white space comes after a text that is a list or an object, if it is a text again
with what comes after it. -/
theorem blanks_after_document {w : Json} {more : List UInt8} (h : Document Numeral.Fits bs v)
    (hv : v.isNested = true) (hmore : Document Numeral.Fits (bs ++ more) w) :
    ∀ b ∈ more, isBlank b = true := by
  obtain ⟨cs, ds, hb, hvalue, -⟩ := h
  have hlength := (hb.extend more).length_le
  have hread : next maxLevels (bs ++ more) = .ok (v, ds ++ more) := by
    rw [next, stepsFor, value_of_blanks (hb.extend more)]
    exact value_of_nested (hvalue.extend more) hv (by omega)
  have hparse := parse_eq_ok.2 hmore
  rw [parse, hread] at hparse
  obtain ⟨_, hread, hparse⟩ := bind_eq_ok.1 hparse
  cases hread
  obtain ⟨_, hfinish, -⟩ := bind_eq_ok.1 hparse
  obtain ⟨u, hblank, hu⟩ := finish_eq_ok.1 hfinish
  rw [List.append_nil] at hu
  intro b hmem
  exact hblank b (hu ▸ List.mem_append_right ds hmem)

end AckRelay.Json
