import AckRelay.Proofs.Cut
import AckRelay.Text.Utf8

/-!
UTF-8 as a code: a text is one character after another, each of which shows where it ends, so that
bytes are read back as the characters that wrote them, strictly or with replacement. The code keeps
the order of texts (`toUtf8_lt_iff`).
-/

namespace AckRelay.Text

open String (utf8EncodeChar)

def encode (cs : List Char) : List UInt8 := cs.flatMap utf8EncodeChar

@[simp]
theorem encode_nil : encode [] = [] := rfl

@[simp]
theorem encode_cons (c : Char) (cs : List Char) :
    encode (c :: cs) = utf8EncodeChar c ++ encode cs :=
  List.flatMap_cons

@[simp]
theorem encode_append (cs ds : List Char) : encode (cs ++ ds) = encode cs ++ encode ds :=
  List.flatMap_append

theorem toByteArray_encode (cs : List Char) :
    (encode cs).toByteArray = (String.ofList cs).toByteArray := by
  rw [String.toByteArray_ofList]
  rfl

theorem toUtf8_ofList (cs : List Char) : toUtf8 (String.ofList cs) = encode cs := by
  rw [toUtf8, String.toUTF8_eq_toByteArray, ← toByteArray_encode, List.data_toByteArray]

theorem toUtf8_eq_encode (s : String) : toUtf8 s = encode s.toList := by
  rw [← toUtf8_ofList, String.ofList_toList]

@[simp]
theorem toUtf8_append (s t : String) : toUtf8 (s ++ t) = toUtf8 s ++ toUtf8 t := by
  rw [toUtf8_eq_encode, String.toList_append, encode_append, toUtf8_eq_encode, toUtf8_eq_encode]

theorem ofUtf8?_toUtf8 (s : String) : ofUtf8? (toUtf8 s) = some s := by
  have hbytes : (toUtf8 s).toByteArray = s.toByteArray := by
    rw [toUtf8_eq_encode, toByteArray_encode, String.ofList_toList]
  rw [ofUtf8?, hbytes, String.fromUTF8?, dif_pos s.isValidUTF8]
  rfl

theorem eq_toUtf8_of_ofUtf8? {bs : List UInt8} {s : String} (h : ofUtf8? bs = some s) :
    bs = toUtf8 s := by
  rw [ofUtf8?, String.fromUTF8?] at h
  split at h
  · cases h
    rw [toUtf8, String.toUTF8_eq_toByteArray, String.fromUTF8, List.data_toByteArray]
  · cases h

theorem ofUtf8?_encode (cs : List Char) : ofUtf8? (encode cs) = some (String.ofList cs) := by
  rw [← toUtf8_ofList, ofUtf8?_toUtf8]

/-- A character is one byte below 0x80, or a byte above all continuations and then continuations. -/
theorem encodeChar_cases (c : Char) :
    c.toNat < 0x80 ∧ utf8EncodeChar c = [UInt8.ofNat c.toNat] ∨
      0x80 ≤ c.toNat ∧
        ∃ a t, utf8EncodeChar c = a :: t ∧ 0xC0 ≤ a ∧ ∀ b ∈ t, isContinuation b = true := by
  have hv : c.val.toNat = c.toNat := rfl
  have hmax : c.toNat < 0x110000 := by
    have := c.valid
    simp only [UInt32.isValidChar, Nat.isValidChar] at this
    omega
  rw [utf8EncodeChar, hv]
  simp only [isContinuation, Bool.and_eq_true, decide_eq_true_eq, UInt8.le_iff_toNat_le]
  split
  · exact Or.inl ⟨by omega, rfl⟩
  · refine Or.inr ⟨by omega, ?_⟩
    split
    · refine ⟨_, _, rfl, ?_, ?_⟩ <;> simp <;> omega
    · split
      · refine ⟨_, _, rfl, ?_, ?_⟩ <;> simp <;> omega
      · refine ⟨_, _, rfl, ?_, ?_⟩ <;> simp <;> omega

theorem encodeChar_eq_of_lt {c : Char} (h : c.toNat < 0x80) :
    utf8EncodeChar c = [UInt8.ofNat c.toNat] := by
  rcases encodeChar_cases c with ⟨-, he⟩ | ⟨hle, -⟩
  · exact he
  · omega

/-- Every byte of a character is the character itself or at least 0x80. -/
theorem encodeChar_bytes (c : Char) :
    utf8EncodeChar c = [UInt8.ofNat c.toNat] ∧ c.toNat < 0x80 ∨
      ∀ b ∈ utf8EncodeChar c, 0x80 ≤ b := by
  rcases encodeChar_cases c with ⟨hlt, he⟩ | ⟨-, a, t, he, ha, ht⟩
  · exact Or.inl ⟨he, hlt⟩
  · refine Or.inr fun b hb => ?_
    rw [he] at hb
    rcases List.mem_cons.1 hb with rfl | hb
    · exact UInt8.le_trans (by decide) ha
    · have hcont := ht b hb
      rw [isContinuation, Bool.and_eq_true] at hcont
      exact of_decide_eq_true hcont.1

/-- A character begins with a byte that continues none, and goes on with bytes that do. -/
theorem encodeChar_split (c : Char) :
    ∃ a t, utf8EncodeChar c = a :: t ∧ isContinuation a = false ∧
      ∀ b ∈ t, isContinuation b = true := by
  rcases encodeChar_cases c with ⟨hlt, he⟩ | ⟨-, a, t, he, ha, ht⟩
  · refine ⟨_, [], he, ?_, fun b hb => by cases hb⟩
    have hsmall : (UInt8.ofNat c.toNat).toNat = c.toNat := by
      rw [UInt8.toNat_ofNat']
      omega
    rw [isContinuation, Bool.and_eq_false_iff]
    refine Or.inl (decide_eq_false ?_)
    rw [UInt8.le_iff_toNat_le, hsmall]
    exact Nat.not_le_of_lt hlt
  · refine ⟨a, t, he, ?_, ht⟩
    rw [isContinuation, Bool.and_eq_false_iff]
    refine Or.inr (decide_eq_false ?_)
    rw [UInt8.le_iff_toNat_le] at ha ⊢
    exact Nat.not_le_of_lt ha

theorem firstChar?_encodeChar (c : Char) (bs : List UInt8) :
    firstChar? (utf8EncodeChar c ++ bs) = some c := by
  have hlen : (utf8EncodeChar c).length ≤ 4 := by
    rw [String.length_utf8EncodeChar]
    exact Char.utf8Size_le_four c
  rw [firstChar?, List.take_append, List.take_of_length_le hlen, List.toByteArray_append]
  exact ByteArray.utf8DecodeChar?_utf8EncodeChar_append

/-- No character is the beginning of another one. -/
theorem encodeChar_append_inj {c d : Char} {xs ys : List UInt8}
    (h : utf8EncodeChar c ++ xs = utf8EncodeChar d ++ ys) : c = d ∧ xs = ys := by
  have hc := firstChar?_encodeChar c xs
  rw [h, firstChar?_encodeChar d ys] at hc
  cases hc
  exact ⟨rfl, List.append_cancel_left h⟩

/-- A character that comes first has bytes that come first, whatever follows them. -/
theorem encodeChar_append_lt {c d : Char} (h : c < d) (xs ys : List UInt8) :
    utf8EncodeChar c ++ xs < utf8EncodeChar d ++ ys := by
  have hlt : c.val.toNat < d.val.toNat := h
  have hmax : d.val.toNat < 0x110000 := by
    have := d.valid
    simp only [UInt32.isValidChar, Nat.isValidChar] at this
    omega
  rw [utf8EncodeChar, utf8EncodeChar]
  generalize c.val.toNat = m at *
  generalize d.val.toNat = n at *
  have hdigit : ∀ k, (k % 64 + 128) % 2 ^ 8 = k % 64 + 128 := by omega
  have hfirst : ∀ k, (k % 8 + 240) % 2 ^ 8 = k % 8 + 240 := by omega
  have hthird : ∀ k, k / 4096 = k / 64 / 64 := by omega
  have hfourth : ∀ k, k / 262144 = k / 64 / 64 / 64 := by omega
  repeat' split
  all_goals first
    | (exfalso; omega)
    | simp only [List.cons_append, List.nil_append, List.cons_lt_cons_iff, UInt8.lt_iff_toNat_lt,
        ← UInt8.toNat_inj, UInt8.toNat_ofNat', hdigit, hfirst, hthird, hfourth]
  all_goals omega

theorem encode_lt {cs ds : List Char} (h : cs < ds) : encode cs < encode ds := by
  induction cs generalizing ds with
  | nil =>
    cases ds with
    | nil => exact absurd h (List.lt_irrefl [])
    | cons d ds =>
      obtain ⟨a, t, he, -⟩ := encodeChar_split d
      rw [encode_nil, encode_cons, he]
      exact List.nil_lt_cons _ _
  | cons c cs ih =>
    cases ds with
    | nil => exact absurd h (List.not_lt_nil _)
    | cons d ds =>
      rw [encode_cons, encode_cons]
      rcases List.cons_lt_cons_iff.1 h with hcd | ⟨rfl, hs⟩
      · exact encodeChar_append_lt hcd _ _
      · exact List.append_left_lt (ih hs)

/-- The order of texts by code points is the order of their bytes. -/
theorem toUtf8_lt_iff (s t : String) : toUtf8 s < toUtf8 t ↔ s < t := by
  have hlt : ∀ {s t : String}, s < t → toUtf8 s < toUtf8 t := by
    intro s t h
    rw [toUtf8_eq_encode, toUtf8_eq_encode]
    exact encode_lt h
  refine ⟨fun h => ?_, hlt⟩
  by_cases hst : s < t
  · exact hst
  · by_cases hts : t < s
    · exact absurd h (List.lt_asymm (hlt hts))
    · have heq := String.le_antisymm (String.not_lt.1 hts) (String.not_lt.1 hst)
      rw [heq] at h
      exact absurd h (List.lt_irrefl _)

/-! ### Replacement -/

section

variable {bs : List UInt8} {c : Char}

theorem isContinuation_iff {b : UInt8} :
    isContinuation b = true ↔ 0x80 ≤ b.toNat ∧ b.toNat ≤ 0xBF := by
  simp only [isContinuation, Bool.and_eq_true, decide_eq_true_eq, UInt8.le_iff_toNat_le]
  rfl

/-- The second byte of a character continues it, and is not one that would make a shorter character,
a surrogate or a code point above U+10FFFF of it. -/
theorem isSecondOf_iff {a b : UInt8} :
    isSecondOf a b = true ↔ (0x80 ≤ b.toNat ∧ b.toNat ≤ 0xBF) ∧ (a.toNat = 0xE0 → 0xA0 ≤ b.toNat) ∧
      (a.toNat = 0xED → b.toNat ≤ 0x9F) ∧ (a.toNat = 0xF0 → 0x90 ≤ b.toNat) ∧
      (a.toNat = 0xF4 → b.toNat ≤ 0x8F) := by
  have hboth : ∀ x y : UInt8,
      (decide (x ≤ b) && decide (b ≤ y)) = true ↔ x.toNat ≤ b.toNat ∧ b.toNat ≤ y.toNat := by
    intro x y
    simp only [Bool.and_eq_true, decide_eq_true_eq, UInt8.le_iff_toNat_le]
  simp only [isSecondOf, isContinuation, ← UInt8.toNat_inj, UInt8.reduceToNat]
  repeat' split
  all_goals
    simp only [hboth, UInt8.reduceToNat]
    omega

/-- What a character of more than two bytes begins with shows that it is one. -/
theorem encodeChar_long (c : Char) :
    (utf8EncodeChar c).length ≤ 2 ∨
      (∃ a b x, utf8EncodeChar c = [a, b, x] ∧ (0xE0 ≤ a ∧ a ≤ 0xEF) ∧ isSecondOf a b = true) ∨
      ∃ a b x y, utf8EncodeChar c = [a, b, x, y] ∧ (0xF0 ≤ a ∧ a ≤ 0xF4) ∧ isSecondOf a b = true ∧
        isContinuation x = true := by
  have hv : c.val.toNat = c.toNat := rfl
  have hvalid : c.toNat < 0xD800 ∨ 0xDFFF < c.toNat ∧ c.toNat < 0x110000 := by
    have := c.valid
    simp only [UInt32.isValidChar, Nat.isValidChar] at this
    omega
  rw [utf8EncodeChar, hv]
  generalize c.toNat = n at *
  split
  · exact Or.inl (by simp)
  · split
    · exact Or.inl (by simp)
    · simp only [isSecondOf_iff, isContinuation_iff, UInt8.le_iff_toNat_le]
      split
      · refine Or.inr (Or.inl ⟨_, _, _, rfl, ?_⟩)
        simp only [UInt8.toNat_ofNat', UInt8.reduceToNat]
        omega
      · refine Or.inr (Or.inr ⟨_, _, _, _, rfl, ?_⟩)
        simp only [UInt8.toNat_ofNat', UInt8.reduceToNat]
        omega

/-- No character starts where one is torn. -/
theorem firstChar?_eq_none (h : bs <+: utf8EncodeChar c) (hne : bs ≠ utf8EncodeChar c) :
    firstChar? bs = none := by
  cases hfirst : firstChar? bs with
  | none => rfl
  | some d =>
    exfalso
    have hlen : bs.length ≤ 4 := by
      have hle := h.length_le
      rw [String.length_utf8EncodeChar] at hle
      exact Nat.le_trans hle c.utf8Size_le_four
    rw [firstChar?, List.take_of_length_le hlen] at hfirst
    obtain ⟨after, hbytes⟩ := ByteArray.exists_of_utf8DecodeChar?_eq_some hfirst
    have hbs : bs = utf8EncodeChar d ++ after.data.toList := by
      have hlist := congrArg (fun b : ByteArray => b.data.toList) hbytes
      simpa using hlist
    obtain ⟨more, hmore⟩ := h
    rw [hbs, List.append_assoc] at hmore
    have hinj : utf8EncodeChar d ++ (after.data.toList ++ more) = utf8EncodeChar c ++ [] := by
      rw [hmore, List.append_nil]
    obtain ⟨rfl, hnil⟩ := encodeChar_append_inj hinj
    rw [(List.append_eq_nil_iff.1 hnil).1, List.append_nil] at hbs
    exact hne hbs

/-- What there is of a torn character is dropped together. -/
theorem brokenLength_torn (h : bs <+: utf8EncodeChar c) (hne : bs ≠ utf8EncodeChar c)
    (hnil : bs ≠ []) : brokenLength bs = bs.length := by
  have hlt : bs.length < (utf8EncodeChar c).length := by
    refine Nat.lt_of_le_of_ne h.length_le fun hlength => hne ?_
    exact h.eq_of_length hlength
  rcases encodeChar_long c with hle | ⟨a, b, x, he, ha, hb⟩ | ⟨a, b, x, y, he, ha, hb, hx⟩
  · match bs with
    | [_] => rfl
    | _ :: _ :: _ =>
      simp only [List.length_cons] at hlt
      omega
  · rw [he] at h hlt
    match bs with
    | [_] => rfl
    | [_, _] =>
      simp only [List.cons_prefix_cons] at h
      obtain ⟨rfl, rfl, -⟩ := h
      simp [brokenLength, ha, hb]
    | _ :: _ :: _ :: _ =>
      simp only [List.length_cons, List.length_nil] at hlt
      omega
  · rw [he] at h hlt
    have hnot : ¬a ≤ 0xEF := UInt8.not_le.2 (UInt8.lt_of_lt_of_le (by decide) ha.1)
    match bs with
    | [_] => rfl
    | [_, _] =>
      simp only [List.cons_prefix_cons] at h
      obtain ⟨rfl, rfl, -⟩ := h
      simp [brokenLength, ha, hb, hnot]
    | [_, _, _] =>
      simp only [List.cons_prefix_cons] at h
      obtain ⟨rfl, rfl, rfl, -⟩ := h
      simp [brokenLength, ha, hb, hx, hnot]
    | _ :: _ :: _ :: _ :: _ =>
      simp only [List.length_cons, List.length_nil] at hlt
      omega

/-- Characters in front are read before anything else. -/
theorem lossyChars_append (cs : List Char) (bs : List UInt8) (fuel : Nat)
    (h : (encode cs ++ bs).length ≤ fuel) :
    ∃ left, bs.length ≤ left ∧ lossyChars fuel (encode cs ++ bs) = cs ++ lossyChars left bs := by
  induction cs generalizing fuel with
  | nil => exact ⟨fuel, h, rfl⟩
  | cons c cs ih =>
    obtain ⟨a, t, he, -⟩ := encodeChar_split c
    have hfirst := firstChar?_encodeChar c (encode cs ++ bs)
    have hsize := String.length_utf8EncodeChar c
    rw [encode_cons, List.append_assoc, List.length_append] at h
    rw [encode_cons, List.append_assoc]
    cases fuel with
    | zero =>
      rw [he, List.length_cons] at h
      omega
    | succ fuel =>
      have hdrop : (utf8EncodeChar c ++ (encode cs ++ bs)).drop c.utf8Size = encode cs ++ bs := by
        rw [← hsize, List.drop_left]
      rw [he, List.length_cons] at h
      obtain ⟨left, hleft, hrest⟩ := ih fuel (by omega)
      refine ⟨left, hleft, ?_⟩
      rw [he, List.cons_append] at hfirst hdrop ⊢
      rw [lossyChars, hfirst]
      simp only
      rw [hdrop, hrest]
      rfl

theorem lossyChars_encode (cs : List Char) (fuel : Nat) (h : (encode cs).length ≤ fuel) :
    lossyChars fuel (encode cs) = cs := by
  obtain ⟨left, -, hread⟩ := lossyChars_append cs [] fuel (by rwa [List.append_nil])
  have hnil : lossyChars left [] = [] := by cases left <;> rfl
  rwa [List.append_nil, hnil, List.append_nil] at hread

theorem lossy_toUtf8 (s : String) : lossy (toUtf8 s) = s := by
  rw [lossy, toUtf8_eq_encode, lossyChars_encode _ _ (Nat.le_refl _), String.ofList_toList]

theorem lossyChars_torn {fuel : Nat} (h : bs <+: utf8EncodeChar c) (hne : bs ≠ utf8EncodeChar c)
    (hnil : bs ≠ []) (hfuel : bs.length ≤ fuel) : lossyChars fuel bs = ['\uFFFD'] := by
  have hbroken := brokenLength_torn h hne hnil
  have hfirst := firstChar?_eq_none h hne
  match bs, fuel with
  | b :: bs, fuel + 1 =>
    rw [lossyChars, hfirst]
    simp only
    rw [hbroken, List.drop_length]
    cases fuel <;> rfl

/-- Of a text that is cut off the characters are read that are there in full, and one replacement in
place of the one that is torn. -/
theorem lossy_cut {cs whole : List Char} {tail : List UInt8}
    (h : Cut utf8EncodeChar cs bs whole tail) :
    lossy bs = String.ofList (whole ++ if tail = [] then [] else ['\uFFFD']) := by
  have hbs : bs = encode whole ++ tail := h.eq_append
  rw [lossy]
  congr 1
  by_cases htail : tail = []
  · rw [if_pos htail, List.append_nil, hbs, htail, List.append_nil,
      lossyChars_encode _ _ (Nat.le_refl _)]
  · obtain hnil | ⟨c, -, htorn, hne⟩ := h.torn
    · exact absurd hnil htail
    · obtain ⟨left, hleft, hread⟩ :=
        lossyChars_append whole tail _ (Nat.le_of_eq (congrArg List.length hbs.symm))
      rw [if_neg htail, ← lossyChars_torn htorn hne htail hleft, ← hread, ← hbs]

end

end AckRelay.Text
