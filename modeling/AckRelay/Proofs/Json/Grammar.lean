import AckRelay.Json.Value

namespace AckRelay.Json

namespace Grammar

def Blanks (bs rest : List UInt8) : Prop := ∃ w, (∀ b ∈ w, isBlank b = true) ∧ bs = w ++ rest

/-! ### Numbers -/

def Digits (bs : List UInt8) (values : List Nat) (rest : List UInt8) : Prop :=
  ∃ w, w ≠ [] ∧ (∀ b ∈ w, isDigit b = true) ∧ w.map digitOf = values ∧ bs = w ++ rest

def Whole (bs : List UInt8) (values : List Nat) (rest : List UInt8) : Prop :=
  Digits bs values rest ∧ (values.head? = some 0 → values.length = 1)

inductive Fraction : List UInt8 → Option (List Nat) → List UInt8 → Prop
  | absent {rest : List UInt8} : Fraction rest none rest
  | present {bs rest : List UInt8} {values : List Nat} (hd : Digits bs values rest) :
      Fraction (Ascii.point :: bs) (some values) rest

inductive Sign : List UInt8 → Bool → List UInt8 → Prop
  | absent {rest : List UInt8} : Sign rest false rest
  | plus {rest : List UInt8} : Sign (Ascii.plus :: rest) false rest
  | minus {rest : List UInt8} : Sign (Ascii.minus :: rest) true rest

inductive Exponent : List UInt8 → Option Int → List UInt8 → Prop
  | absent {rest : List UInt8} : Exponent rest none rest
  | present {e : UInt8} {bs cs rest : List UInt8} {negative : Bool} {values : List Nat}
      (he : e = 0x65 ∨ e = 0x45) (hs : Sign bs negative cs) (hd : Digits cs values rest) :
      Exponent (e :: bs)
        (some (if negative then -Int.ofNat (ofDigits values) else Int.ofNat (ofDigits values))) rest

inductive Unsigned (negative : Bool) : List UInt8 → Numeral → List UInt8 → Prop
  | mk {bs cs ds rest : List UInt8} {whole : List Nat} {fraction : Option (List Nat)}
      {exponent : Option Int} (hw : Whole bs whole cs) (hf : Fraction cs fraction ds)
      (he : Exponent ds exponent rest) :
      Unsigned negative bs ⟨negative, whole, fraction, exponent⟩ rest

inductive Number : List UInt8 → Numeral → List UInt8 → Prop
  | plain {bs rest : List UInt8} {x : Numeral} (h : Unsigned false bs x rest) : Number bs x rest
  | minus {bs rest : List UInt8} {x : Numeral} (h : Unsigned true bs x rest) :
      Number (Ascii.minus :: bs) x rest

/-! ### Strings -/

inductive FourHex : List UInt8 → Nat → List UInt8 → Prop
  | mk {a b c d : UInt8} {w x y z : Nat} {rest : List UInt8} (ha : hexOf? a = some w)
      (hb : hexOf? b = some x) (hc : hexOf? c = some y) (hd : hexOf? d = some z) :
      FourHex (a :: b :: c :: d :: rest) (((w * 16 + x) * 16 + y) * 16 + z) rest

inductive Escape : List UInt8 → Char → List UInt8 → Prop
  | short {b e : UInt8} {rest : List UInt8} (h : shortEscape? b = some e) :
      Escape (b :: rest) (Char.ofNat e.toNat) rest
  | unit {bs rest : List UInt8} {n : Nat} (h : FourHex bs n rest) (hn : n < 0xD800 ∨ 0xDFFF < n) :
      Escape (0x75 :: bs) (Char.ofNat n) rest
  | pair {bs cs rest : List UInt8} {n m : Nat} (h : FourHex bs n (Ascii.backslash :: 0x75 :: cs))
      (hn : 0xD800 ≤ n ∧ n ≤ 0xDBFF) (h' : FourHex cs m rest) (hm : 0xDC00 ≤ m ∧ m ≤ 0xDFFF) :
      Escape (0x75 :: bs) (Char.ofNat (0x10000 + (n - 0xD800) * 0x400 + (m - 0xDC00))) rest

/-- The rest of a string with its closing quote. Any character but a quote, a backslash and a
control below U+0020 may stand for itself, and any may be escaped. -/
inductive Letters : List UInt8 → List Char → List UInt8 → Prop
  | closed {rest : List UInt8} : Letters (Ascii.quote :: rest) [] rest
  | plain {bs rest : List UInt8} {c : Char} {s : List Char} (hq : c ≠ '"') (hb : c ≠ '\\')
      (hc : 0x20 ≤ c.toNat) (h : Letters bs s rest) :
      Letters (String.utf8EncodeChar c ++ bs) (c :: s) rest
  | escaped {bs cs rest : List UInt8} {c : Char} {s : List Char} (he : Escape bs c cs)
      (h : Letters cs s rest) : Letters (Ascii.backslash :: bs) (c :: s) rest

/-! ### Values -/

inductive Lead : Bool → List UInt8 → List UInt8 → Prop
  | first {bs rest : List UInt8} (h : Blanks bs rest) : Lead true bs rest
  | next {bs cs rest : List UInt8} (h : Blanks bs (Ascii.comma :: cs)) (h' : Blanks cs rest) :
      Lead false bs rest

mutual

inductive Value (fits : Numeral → Prop) : Nat → List UInt8 → Json → List UInt8 → Prop
  | null {levels : Nat} {rest : List UInt8} :
      Value fits levels (0x6E :: (nullTail ++ rest)) .null rest
  | yes {levels : Nat} {rest : List UInt8} :
      Value fits levels (0x74 :: (trueTail ++ rest)) (.bool true) rest
  | no {levels : Nat} {rest : List UInt8} :
      Value fits levels (0x66 :: (falseTail ++ rest)) (.bool false) rest
  | number {levels : Nat} {bs rest : List UInt8} {x : Numeral} (h : Number bs x rest)
      (hx : fits x) : Value fits levels bs (ofNumeral x) rest
  | text {levels : Nat} {bs rest : List UInt8} {s : String} (h : Letters bs s.toList rest) :
      Value fits levels (Ascii.quote :: bs) (.text s) rest
  | list {levels : Nat} {bs rest : List UInt8} {xs : List Json}
      (h : Items fits true levels bs xs rest) :
      Value fits (levels + 1) (Ascii.openList :: bs) (.list xs) rest
  | object {levels : Nat} {bs rest : List UInt8} {ms : List (String × Json)}
      (h : Members fits true levels bs ms rest) :
      Value fits (levels + 1) (Ascii.openObject :: bs) (.object ms) rest

inductive Items (fits : Numeral → Prop) :
    Bool → Nat → List UInt8 → List Json → List UInt8 → Prop
  | closed {first : Bool} {levels : Nat} {bs rest : List UInt8}
      (h : Blanks bs (Ascii.closeList :: rest)) : Items fits first levels bs [] rest
  | item {first : Bool} {levels : Nat} {bs cs ds rest : List UInt8} {v : Json} {xs : List Json}
      (hl : Lead first bs cs) (hv : Value fits levels cs v ds)
      (h : Items fits false levels ds xs rest) : Items fits first levels bs (v :: xs) rest

inductive Members (fits : Numeral → Prop) :
    Bool → Nat → List UInt8 → List (String × Json) → List UInt8 → Prop
  | closed {first : Bool} {levels : Nat} {bs rest : List UInt8}
      (h : Blanks bs (Ascii.closeObject :: rest)) : Members fits first levels bs [] rest
  | member {first : Bool} {levels : Nat} {bs cs ds es fs gs rest : List UInt8} {key : String}
      {v : Json} {ms : List (String × Json)} (hl : Lead first bs (Ascii.quote :: cs))
      (hk : Letters cs key.toList ds) (hc : Blanks ds (Ascii.colon :: es)) (hb : Blanks es fs)
      (hv : Value fits levels fs v gs) (h : Members fits false levels gs ms rest) :
      Members fits first levels bs ((key, v) :: ms) rest

end

def Document (fits : Numeral → Prop) (bs : List UInt8) (v : Json) : Prop :=
  ∃ cs ds, Blanks bs cs ∧ Value fits maxLevels cs v ds ∧ Blanks ds []

section Mono

variable {fits fits' : Numeral → Prop}

mutual

theorem Value.mono {levels : Nat} {bs rest : List UInt8} {v : Json}
    (hfits : ∀ x, fits x → fits' x) : Value fits levels bs v rest → Value fits' levels bs v rest
  | .null => .null
  | .yes => .yes
  | .no => .no
  | .number h hx => .number h (hfits _ hx)
  | .text h => .text h
  | .list h => .list (h.mono hfits)
  | .object h => .object (h.mono hfits)

theorem Items.mono {first : Bool} {levels : Nat} {bs rest : List UInt8} {xs : List Json}
    (hfits : ∀ x, fits x → fits' x) :
    Items fits first levels bs xs rest → Items fits' first levels bs xs rest
  | .closed h => .closed h
  | .item hl hv h => .item hl (hv.mono hfits) (h.mono hfits)

theorem Members.mono {first : Bool} {levels : Nat} {bs rest : List UInt8}
    {ms : List (String × Json)} (hfits : ∀ x, fits x → fits' x) :
    Members fits first levels bs ms rest → Members fits' first levels bs ms rest
  | .closed h => .closed h
  | .member hl hk hc hb hv h => .member hl hk hc hb (hv.mono hfits) (h.mono hfits)

end

theorem Document.mono {bs : List UInt8} {v : Json} (hfits : ∀ x, fits x → fits' x)
    (h : Document fits bs v) : Document fits' bs v := by
  obtain ⟨cs, ds, hb, hv, he⟩ := h
  exact ⟨cs, ds, hb, hv.mono hfits, he⟩

end Mono

end Grammar

end AckRelay.Json
