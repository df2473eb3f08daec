import AckRelay.Json.Render
import AckRelay.Proofs.Json.Values
import Mathlib.Tactic.SplitIfs

namespace AckRelay.Json

open Grammar
open Text (encode toUtf8)
open String (utf8EncodeChar)

variable {rest : List UInt8} {levels : Nat}

def Spelled (levels : Nat) (v : Json) : Prop :=
  ∀ rest, Value Numeral.Fits levels (toUtf8 v.render ++ rest) v rest

/-! ### Digits -/

theorem digit_bytes {c : Char} (h : c.isDigit = true) :
    utf8EncodeChar c = [UInt8.ofNat c.toNat] ∧ isDigit (UInt8.ofNat c.toNat) = true ∧
      digitOf (UInt8.ofNat c.toNat) = c.toNat - '0'.toNat := by
  have hbounds : 48 ≤ c.toNat ∧ c.toNat ≤ 57 := by
    simp only [Char.isDigit, Bool.and_eq_true, decide_eq_true_eq, ge_iff_le,
      UInt32.le_iff_toNat_le] at h
    exact h
  have hvalue : (UInt8.ofNat c.toNat).toNat = c.toNat := by
    rw [UInt8.toNat_ofNat']
    omega
  refine ⟨Text.encodeChar_eq_of_lt (by omega), ?_, ?_⟩
  · simp only [isDigit, Bool.and_eq_true, decide_eq_true_eq, UInt8.le_iff_toNat_le, hvalue]
    exact hbounds
  · rw [digitOf, hvalue]
    rfl

/-- The text of a number begins with zero only if that is all of it. -/
theorem head_toDigits (n : Nat) : n = 0 ∨ (Nat.toDigits 10 n).head? ≠ some '0' := by
  induction n using Nat.strongRecOn with
  | ind n ih =>
    rcases Nat.lt_or_ge n 10 with hlt | hge
    · rw [Nat.toDigits_of_lt_base hlt, List.head?_cons, ne_eq, Option.some.injEq,
        Nat.digitChar_eq_zero]
      exact Classical.em (n = 0)
    · refine Or.inr ?_
      obtain ⟨c, cs, hcs⟩ :=
        List.exists_cons_of_ne_nil (Nat.toDigits_ne_nil (n := n / 10) (b := 10))
      have hhead : (Nat.toDigits 10 n).head? = (Nat.toDigits 10 (n / 10)).head? := by
        rw [Nat.toDigits_of_base_le (by decide) hge, hcs]
        rfl
      rw [hhead]
      rcases ih (n / 10) (by omega) with hzero | hne
      · omega
      · exact hne

theorem encode_digits {cs : List Char} (h : ∀ c ∈ cs, c.isDigit = true) :
    encode cs = cs.map fun c => UInt8.ofNat c.toNat := by
  induction cs with
  | nil => rfl
  | cons c cs ih =>
    rw [Text.encode_cons, (digit_bytes (h c List.mem_cons_self)).1, List.map_cons,
      ih fun d hd => h d (List.mem_cons_of_mem _ hd)]
    rfl

def digitsOf (n : Nat) : List Nat := (Nat.toDigits 10 n).map fun c => c.toNat - '0'.toNat

/-- The digits of a number write that number. -/
theorem ofDigits_digitsOf (n : Nat) : ofDigits (digitsOf n) = n := by
  rw [ofDigits, digitsOf, List.foldl_map]
  exact Nat.ofDigitChars_ten_toDigits

theorem whole_digits (n : Nat) : Whole (encode (Nat.toDigits 10 n) ++ rest) (digitsOf n) rest := by
  have hdigits : ∀ c ∈ Nat.toDigits 10 n, c.isDigit = true := fun c hc =>
    Nat.isDigit_of_mem_toDigits (by decide) (by decide) hc
  rw [encode_digits hdigits]
  refine ⟨⟨_, ?_, ?_, ?_, rfl⟩, ?_⟩
  · simp
  · intro b hb
    obtain ⟨c, hc, rfl⟩ := List.mem_map.1 hb
    exact (digit_bytes (hdigits c hc)).2.1
  · rw [List.map_map, digitsOf]
    refine List.map_congr_left fun c hc => ?_
    exact (digit_bytes (hdigits c hc)).2.2
  · intro hhead
    rcases head_toDigits n with rfl | hne
    · rfl
    · rw [digitsOf, List.head?_map, Option.map_eq_some_iff] at hhead
      obtain ⟨c, hc, hzero⟩ := hhead
      have hdigit := hdigits c (List.mem_of_mem_head? hc)
      have h48 : '0'.toNat = 48 := rfl
      simp only [Char.isDigit, Bool.and_eq_true, decide_eq_true_eq, ge_iff_le,
        UInt32.le_iff_toNat_le] at hdigit
      have hc0 : c = '0' := by
        apply Char.toNat_inj.1
        have hlow : 48 ≤ c.toNat := hdigit.1
        omega
      exact absurd (hc0 ▸ hc) hne

theorem toUtf8_repr (n : Nat) : toUtf8 n.repr = encode (Nat.toDigits 10 n) := by
  rw [Text.toUtf8_eq_encode, Nat.toList_repr]

/-- A whole number is read back as it was written, but minus zero is none. -/
theorem integer?_digitsOf {negative : Bool} {n : Nat} (h : negative = true → n ≠ 0) :
    Numeral.integer? ⟨negative, digitsOf n, none, none⟩ =
      some (if negative then -Int.ofNat n else Int.ofNat n) := by
  simp only [Numeral.integer?, ofDigits_digitsOf, Option.isSome_none, Bool.or_self]
  cases negative with
  | false => rfl
  | true => simp [h rfl]

/-- A number of 64 bits fits, being far below the limit of doubles. -/
theorem fits_digitsOf {n : Nat} (negative : Bool) (h : n < UInt64.size) :
    Numeral.Fits ⟨negative, digitsOf n, none, none⟩ := by
  apply Numeral.fits_of_below _
  have hwritten : ofDigits (digitsOf n ++ Option.getD none []) = n := by
    rw [Option.getD_none, List.append_nil, ofDigits_digitsOf]
  have hlimit : UInt64.size < 2 ^ 1024 - 2 ^ 974 := by decide +kernel
  rw [Numeral.Below, hwritten]
  exact Nat.mul_lt_mul_of_pos_right (Nat.lt_trans h hlimit) Nat.one_pos

/-- An integer is spelled by its decimal text, if it has no more than 64 bits. -/
theorem spelled_integer {n : Int} (h : n.natAbs < UInt64.size) : Spelled levels (.integer n) := by
  intro rest
  cases n with
  | ofNat n =>
    have hnumber :
        Number (encode (Nat.toDigits 10 n) ++ rest) ⟨false, digitsOf n, none, none⟩ rest :=
      .plain (.mk (whole_digits n) .absent .absent)
    have htext : toUtf8 (render (.integer (Int.ofNat n))) = encode (Nat.toDigits 10 n) := by
      rw [render]
      exact toUtf8_repr n
    have hmeaning : ofNumeral ⟨false, digitsOf n, none, none⟩ = .integer (Int.ofNat n) := by
      rw [ofNumeral, integer?_digitsOf (fun h => by cases h)]
      rfl
    rw [htext, ← hmeaning]
    exact .number hnumber (fits_digitsOf false h)
  | negSucc n =>
    have hnumber : Number (Ascii.minus :: (encode (Nat.toDigits 10 (n + 1)) ++ rest))
        ⟨true, digitsOf (n + 1), none, none⟩ rest :=
      .minus (.mk (whole_digits (n + 1)) .absent .absent)
    have htext : toUtf8 (render (.integer (Int.negSucc n))) =
        Ascii.minus :: encode (Nat.toDigits 10 (n + 1)) := by
      rw [render]
      have hstring : toString (Int.negSucc n) = "-" ++ (n + 1).repr := rfl
      rw [hstring, Text.toUtf8_append, toUtf8_repr]
      rfl
    have hmeaning : ofNumeral ⟨true, digitsOf (n + 1), none, none⟩ = .integer (Int.negSucc n) := by
      rw [ofNumeral, integer?_digitsOf (fun _ => Nat.succ_ne_zero n)]
      rfl
    rw [htext, ← hmeaning]
    exact .number hnumber (fits_digitsOf true h)

/-! ### Strings -/

theorem hexOf?_hexDigit : ∀ n < 16, ∃ b, utf8EncodeChar (hexDigit n) = [b] ∧ hexOf? b = some n := by
  intro n hn
  refine ⟨UInt8.ofNat (hexDigit n).toNat, ?_, ?_⟩ <;> revert n <;> decide

/-- A control is escaped by its code. -/
theorem escape_control {c : Char} (hc : c.toNat < 0x20) (bs : List UInt8) :
    ∃ x y, utf8EncodeChar (hexDigit (c.toNat / 16)) = [x] ∧
      utf8EncodeChar (hexDigit (c.toNat % 16)) = [y] ∧
      Escape (0x75 :: 0x30 :: 0x30 :: x :: y :: bs) c bs := by
  obtain ⟨x, hx, hx'⟩ := hexOf?_hexDigit (c.toNat / 16) (by omega)
  obtain ⟨y, hy, hy'⟩ := hexOf?_hexDigit (c.toNat % 16) (by omega)
  have hhex : FourHex (0x30 :: 0x30 :: x :: y :: bs)
      (((0 * 16 + 0) * 16 + c.toNat / 16) * 16 + c.toNat % 16) bs := .mk rfl rfl hx' hy'
  have hn : ((0 * 16 + 0) * 16 + c.toNat / 16) * 16 + c.toNat % 16 = c.toNat := by omega
  rw [hn] at hhex
  have hescape := Escape.unit hhex (by omega)
  rw [Char.ofNat_toNat] at hescape
  exact ⟨x, y, hx, hy, hescape⟩

/-- A character in a string is read back as it was, escaped or not. -/
theorem letters_stringChar {bs : List UInt8} {s : List Char} (c : Char) (h : Letters bs s rest) :
    Letters (encode (stringChar c) ++ bs) (c :: s) rest := by
  have hshort : ∀ {b e : UInt8}, shortEscape? b = some e →
      Letters (Ascii.backslash :: b :: bs) (Char.ofNat e.toNat :: s) rest := fun he =>
    .escaped (.short he) h
  rw [stringChar]
  split_ifs with hq hb h8 ht hn hf hr hc
  · subst hq
    exact @hshort 0x22 0x22 rfl
  · subst hb
    exact @hshort 0x5C 0x5C rfl
  · subst h8
    exact @hshort 0x62 0x08 rfl
  · subst ht
    exact @hshort 0x74 0x09 rfl
  · subst hn
    exact @hshort 0x6E 0x0A rfl
  · subst hf
    exact @hshort 0x66 0x0C rfl
  · subst hr
    exact @hshort 0x72 0x0D rfl
  · obtain ⟨x, y, hx, hy, hescape⟩ := escape_control hc bs
    have hbytes : encode ['\\', 'u', '0', '0', hexDigit (c.toNat / 16), hexDigit (c.toNat % 16)] =
        [Ascii.backslash, 0x75, 0x30, 0x30, x, y] := by
      simp only [Text.encode_cons, Text.encode_nil, hx, hy]
      rfl
    rw [hbytes]
    exact .escaped hescape h
  · rw [Text.encode_cons, Text.encode_nil, List.append_nil]
    exact .plain hq hb (Nat.le_of_not_lt hc) h

theorem letters_flatMap (s : List Char) :
    Letters (encode (s.flatMap stringChar) ++ Ascii.quote :: rest) s rest := by
  induction s with
  | nil => exact .closed
  | cons c s ih =>
    rw [List.flatMap_cons, Text.encode_append, List.append_assoc]
    exact letters_stringChar c ih

theorem toUtf8_quote (s : String) :
    toUtf8 (quote s) = Ascii.quote :: (encode (s.toList.flatMap stringChar) ++ [Ascii.quote]) := by
  have hquote : toUtf8 "\"" = [Ascii.quote] := by decide
  rw [quote, Text.toUtf8_append, Text.toUtf8_append, hquote, Text.toUtf8_ofList]
  rfl

/-- A text that is written is in the grammar. -/
theorem spelled_text (s : String) : Spelled levels (.text s) := by
  intro rest
  rw [render, toUtf8_quote, List.cons_append, List.append_assoc]
  exact .text (letters_flatMap s.toList)

/-! ### Lists and objects -/

theorem toUtf8_comma : toUtf8 "," = [Ascii.comma] := by decide

theorem lead_comma (bs : List UInt8) : Lead false ([Ascii.comma] ++ bs) bs :=
  .next (blanks_refl (Ascii.comma :: bs)) (blanks_refl bs)

/-- The elements in turn: the first one after what leads to it, the others after a comma. -/
theorem items_render {first : Bool} {lead : List UInt8} (x : Json) (xs : List Json)
    (hl : ∀ bs, Lead first (lead ++ bs) bs) (h : ∀ y ∈ x :: xs, Spelled levels y) :
    Items Numeral.Fits first levels
      (lead ++ (toUtf8 (renderItems (x :: xs)) ++ Ascii.closeList :: rest)) (x :: xs) rest := by
  induction xs generalizing x first lead with
  | nil =>
    rw [renderItems]
    exact .item (hl _) (h x List.mem_cons_self _) (.closed (blanks_refl _))
  | cons y ys ih =>
    have hrest := ih y lead_comma fun z hz => h z (List.mem_cons_of_mem _ hz)
    rw [renderItems, Text.toUtf8_append, Text.toUtf8_append, toUtf8_comma, List.append_assoc,
      List.append_assoc]
    exact .item (hl _) (h x List.mem_cons_self _) hrest

/-- So is a list of values that are in it. -/
theorem spelled_list {xs : List Json} (h : ∀ x ∈ xs, Spelled levels x) :
    Spelled (levels + 1) (.list xs) := by
  intro rest
  have hopen : toUtf8 "[" = [Ascii.openList] := by decide
  have hclose : toUtf8 "]" = [Ascii.closeList] := by decide
  rw [render, Text.toUtf8_append, Text.toUtf8_append, hopen, hclose, List.append_assoc,
    List.append_assoc]
  apply Value.list
  cases xs with
  | nil => exact .closed (blanks_refl _)
  | cons x xs => exact items_render x xs (fun bs => .first (blanks_refl bs)) h

theorem members_render {first : Bool} {lead : List UInt8} (m : String × Json)
    (ms : List (String × Json)) (hl : ∀ bs, Lead first (lead ++ bs) bs)
    (h : ∀ k ∈ m :: ms, Spelled levels k.2) :
    Members Numeral.Fits first levels
      (lead ++ (toUtf8 (renderMembers (m :: ms)) ++ Ascii.closeObject :: rest)) (m :: ms) rest := by
  have hcolon : toUtf8 ":" = [Ascii.colon] := by decide
  induction ms generalizing m first lead with
  | nil =>
    obtain ⟨key, v⟩ := m
    simp only [renderMembers, Text.toUtf8_append, hcolon, toUtf8_quote, List.cons_append,
      List.append_assoc, List.nil_append]
    exact .member (hl _) (letters_flatMap key.toList) (blanks_refl _) (blanks_refl _)
      (h (key, v) List.mem_cons_self _) (.closed (blanks_refl _))
  | cons k ks ih =>
    obtain ⟨key, v⟩ := m
    have hrest := ih k lead_comma fun z hz => h z (List.mem_cons_of_mem _ hz)
    simp only [renderMembers, Text.toUtf8_append, hcolon, toUtf8_comma, toUtf8_quote,
      List.cons_append, List.append_assoc, List.nil_append] at hrest ⊢
    exact .member (hl _) (letters_flatMap key.toList) (blanks_refl _) (blanks_refl _)
      (h (key, v) List.mem_cons_self _) hrest

/-- So is an object of values that are in it. -/
theorem spelled_object {ms : List (String × Json)} (h : ∀ m ∈ ms, Spelled levels m.2) :
    Spelled (levels + 1) (.object ms) := by
  intro rest
  have hopen : toUtf8 "\x7b" = [Ascii.openObject] := by decide
  have hclose : toUtf8 "\x7d" = [Ascii.closeObject] := by decide
  rw [render, Text.toUtf8_append, Text.toUtf8_append, hopen, hclose, List.append_assoc,
    List.append_assoc]
  apply Value.object
  cases ms with
  | nil => exact .closed (blanks_refl _)
  | cons m ms => exact members_render m ms (fun bs => .first (blanks_refl bs)) h

/-- The text of a value that is spelled at the greatest depth is a document of it. -/
theorem document_of_spelled {v : Json} (h : Spelled maxLevels v) :
    Document Numeral.Fits (toUtf8 v.render) v := by
  have hv := h []
  rw [List.append_nil] at hv
  exact ⟨_, [], blanks_refl _, hv, blanks_refl _⟩

end AckRelay.Json
