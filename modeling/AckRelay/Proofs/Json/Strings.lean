import AckRelay.Proofs.Json.Tokens
import AckRelay.Proofs.Text.Utf8

/-!
Strings: the reader takes exactly the strings of the grammar. It collects bytes and checks them as
UTF-8 in the end, so the bytes have to be told apart into characters again (`letters_of_pieces`).
-/

namespace AckRelay.Json

open Grammar
open Text (encode isContinuation)
open String (utf8EncodeChar)

variable {bs cs rest : List UInt8}

/-! ### Escapes -/

theorem fourHex_eq_ok {n : Nat} : fourHex bs = .ok (n, rest) ↔ FourHex bs n rest := by
  constructor
  · intro h
    match bs, h with
    | a :: b :: c :: d :: bs, h =>
      rw [fourHex] at h
      split at h
      · next ha hb hc hd =>
        cases h
        exact .mk ha hb hc hd
      · cases h
  · rintro ⟨ha, hb, hc, hd⟩
    simp only [fourHex, ha, hb, hc, hd]

theorem encodeChar_of_short {b e : UInt8} (h : shortEscape? b = some e) :
    utf8EncodeChar (Char.ofNat e.toNat) = [e] := by
  rw [shortEscape?] at h
  split at h
  · next hb =>
    cases h
    rcases hb with rfl | rfl | rfl <;> rfl
  · repeat'
      split at h
      · cases h
        rfl
    cases h

theorem escape_of_codePoint {n : Nat} (h : codePoint bs = .ok (n, rest)) :
    Escape (0x75 :: bs) (Char.ofNat n) rest := by
  obtain ⟨⟨m, cs⟩, hm, h⟩ := bind_eq_ok.1 h
  rw [fourHex_eq_ok] at hm
  simp only at h
  split at h
  · cases h
  · next hlow =>
    split at h
    · next hhigh =>
      obtain ⟨ds, hd, h⟩ := bind_eq_ok.1 h
      obtain ⟨⟨k, es⟩, hk, h⟩ := bind_eq_ok.1 h
      rw [literal_eq_ok] at hd
      rw [fourHex_eq_ok] at hk
      rw [hd] at hm
      split at h
      · next hpair =>
        obtain ⟨rfl, rfl⟩ := Prod.mk.inj (Except.ok.inj h)
        exact .pair hm hhigh hk hpair
      · cases h
    · next hhigh =>
      cases h
      exact .unit hm (by omega)

/-- An escape that is read stands for one character, and gives the bytes of that. -/
theorem escape_of_ok {es : List UInt8} (h : escape bs = .ok (es, rest)) :
    ∃ c, Escape bs c rest ∧ es = utf8EncodeChar c := by
  cases bs with
  | nil => cases h
  | cons b bs =>
    rw [escape] at h
    split at h
    · next hb =>
      subst hb
      obtain ⟨⟨n, cs⟩, hn, h⟩ := bind_eq_ok.1 h
      cases h
      exact ⟨_, escape_of_codePoint hn, rfl⟩
    · split at h
      · next e he =>
        cases h
        exact ⟨_, .short he, (encodeChar_of_short he).symm⟩
      · cases h

/-- Every escape of the grammar is read. -/
theorem escape_of_grammar {c : Char} (h : Escape bs c rest) :
    escape bs = .ok (utf8EncodeChar c, rest) := by
  have hunit : ∀ {bs n}, codePoint bs = .ok (n, rest) →
      escape (0x75 :: bs) = .ok (utf8EncodeChar (Char.ofNat n), rest) := by
    intro bs n hn
    rw [escape, if_pos rfl]
    exact bind_eq_ok.2 ⟨(n, rest), hn, rfl⟩
  cases h with
  | @short b e rest h =>
    have hb : b ≠ 0x75 := by
      rintro rfl
      cases h
    rw [escape, if_neg hb, h, encodeChar_of_short h]
  | @unit bs rest n h hn =>
    refine hunit (bind_eq_ok.2 ⟨(n, rest), fourHex_eq_ok.2 h, ?_⟩)
    simp only
    rw [if_neg (by omega), if_neg (by omega)]
  | @pair bs cs rest n m h hn h' hm =>
    refine hunit (bind_eq_ok.2 ⟨_, fourHex_eq_ok.2 h, ?_⟩)
    simp only
    rw [if_neg (by omega), if_pos hn]
    refine bind_eq_ok.2 ⟨cs, literal_eq_ok.2 rfl, bind_eq_ok.2 ⟨(m, rest), fourHex_eq_ok.2 h', ?_⟩⟩
    exact if_pos hm

/-! ### Letters -/

inductive Pieces : List UInt8 → List UInt8 → List UInt8 → Prop
  | closed {rest : List UInt8} : Pieces (Ascii.quote :: rest) [] rest
  | raw {b : UInt8} {bs out rest : List UInt8} (hq : b ≠ Ascii.quote) (hb : b ≠ Ascii.backslash)
      (hc : ¬b < 0x20) (h : Pieces bs out rest) : Pieces (b :: bs) (b :: out) rest
  | escaped {bs cs out rest : List UInt8} {c : Char} (he : Escape bs c cs)
      (h : Pieces cs out rest) : Pieces (Ascii.backslash :: bs) (utf8EncodeChar c ++ out) rest

theorem pieces_of_ok {fuel : Nat} {read out : List UInt8}
    (h : stringBytes fuel read bs = .ok (out, rest)) :
    ∃ more, out = read.reverse ++ more ∧ Pieces bs more rest := by
  induction fuel generalizing read bs with
  | zero => cases bs <;> cases h
  | succ fuel ih =>
    cases bs with
    | nil => cases h
    | cons b bs =>
      rw [stringBytes] at h
      split at h
      · next hq =>
        cases h
        subst hq
        exact ⟨[], (List.append_nil _).symm, .closed⟩
      · next hq =>
        split at h
        · next hb =>
          subst hb
          split at h
          · next es cs he =>
            obtain ⟨c, hescape, rfl⟩ := escape_of_ok he
            obtain ⟨more, hout, hmore⟩ := ih h
            refine ⟨utf8EncodeChar c ++ more, ?_, .escaped hescape hmore⟩
            rw [hout, List.reverse_append, List.reverse_reverse, List.append_assoc]
          · cases h
        · next hb =>
          split at h
          · cases h
          · next hc =>
            obtain ⟨more, hout, hmore⟩ := ih h
            refine ⟨b :: more, ?_, .raw hq hb hc hmore⟩
            rw [hout, List.reverse_cons, List.append_assoc, List.singleton_append]

/-- Bytes that continue a character stand for themselves, since no escape begins with one. -/
theorem pieces_of_continuations {t out : List UInt8} (ht : ∀ b ∈ t, isContinuation b = true)
    (h : Pieces bs (t ++ out) rest) : ∃ cs, bs = t ++ cs ∧ Pieces cs out rest := by
  induction t generalizing bs with
  | nil => exact ⟨bs, rfl, h⟩
  | cons b t ih =>
    rw [List.cons_append] at h
    generalize hout : b :: (t ++ out) = bytes at h
    cases h with
    | closed => cases hout
    | raw hq hb hc h =>
      cases hout
      obtain ⟨cs, rfl, hcs⟩ := ih (fun a ha => ht a (List.mem_cons_of_mem _ ha)) h
      exact ⟨cs, rfl, hcs⟩
    | @escaped _ _ _ _ c _ _ =>
      obtain ⟨a, u, hc, ha, -⟩ := Text.encodeChar_split c
      rw [hc, List.cons_append] at hout
      have hcont := ht b List.mem_cons_self
      rw [(List.cons.inj hout).1, ha] at hcont
      cases hcont

/-- If the bytes of a string are UTF-8, they can be told apart into characters. -/
theorem letters_of_pieces {s : List Char} (h : Pieces bs (encode s) rest) : Letters bs s rest := by
  induction s generalizing bs with
  | nil =>
    generalize hout : encode [] = bytes at h
    cases h with
    | closed => exact .closed
    | raw hq hb hc h => cases hout
    | @escaped _ _ _ _ c _ _ =>
      obtain ⟨a, u, hc, -⟩ := Text.encodeChar_split c
      rw [hc] at hout
      cases hout
  | cons c s ih =>
    obtain ⟨a, t, hsplit, ha, ht⟩ := Text.encodeChar_split c
    generalize hout : encode (c :: s) = bytes at h
    rw [Text.encode_cons] at hout
    cases h with
    | closed =>
      rw [hsplit] at hout
      cases hout
    | escaped he h =>
      obtain ⟨rfl, rfl⟩ := Text.encodeChar_append_inj hout
      exact .escaped he (ih h)
    | @raw b bs _ _ hq hb hc h =>
      rw [hsplit] at hout
      cases hout
      obtain ⟨cs, rfl, hcs⟩ := pieces_of_continuations ht h
      have hletters : utf8EncodeChar c ++ cs = a :: (t ++ cs) := by rw [hsplit]; rfl
      rw [← hletters]
      refine .plain ?_ ?_ ?_ (ih hcs)
      · rintro rfl
        cases hsplit
        exact hq rfl
      · rintro rfl
        cases hsplit
        exact hb rfl
      · apply Nat.le_of_not_lt
        intro hlt
        rw [Text.encodeChar_eq_of_lt (Nat.lt_trans hlt (by decide))] at hsplit
        cases hsplit
        apply hc
        rw [UInt8.lt_iff_toNat_lt, UInt8.toNat_ofNat']
        exact Nat.lt_of_le_of_lt (Nat.mod_le _ _) hlt

theorem letters_of_ok {s : String} (h : string bs = .ok (s, rest)) : Letters bs s.toList rest := by
  obtain ⟨⟨read, cs⟩, hread, h⟩ := bind_eq_ok.1 h
  simp only at h
  split at h
  · next s' hs =>
    cases h
    obtain ⟨more, hmore, hpieces⟩ := pieces_of_ok hread
    rw [List.reverse_nil, List.nil_append] at hmore
    rw [← hmore, Text.eq_toUtf8_of_ofUtf8? hs, Text.toUtf8_eq_encode] at hpieces
    exact letters_of_pieces hpieces
  · cases h

def IsRaw (b : UInt8) : Prop := b ≠ Ascii.quote ∧ b ≠ Ascii.backslash ∧ ¬b < 0x20

theorem isRaw_of_encodeChar {c : Char} (hq : c ≠ '"') (hb : c ≠ '\\') (hc : 0x20 ≤ c.toNat) :
    ∀ b ∈ utf8EncodeChar c, IsRaw b := by
  intro b hmem
  rcases Text.encodeChar_bytes c with ⟨he, hlt⟩ | hhigh
  · rw [he, List.mem_singleton] at hmem
    have hval : b.toNat = c.toNat := by
      rw [hmem, UInt8.toNat_ofNat']
      omega
    have hchar : ∀ d : Char, c ≠ d → b.toNat ≠ d.toNat := by
      intro d hd heq
      exact hd (Char.toNat_inj.1 (hval.symm.trans heq))
    refine ⟨?_, ?_, ?_⟩
    · rintro rfl
      exact hchar '"' hq rfl
    · rintro rfl
      exact hchar '\\' hb rfl
    · rw [UInt8.lt_iff_toNat_lt, hval]
      exact Nat.not_lt_of_le hc
  · have hle := UInt8.le_iff_toNat_le.1 (hhigh b hmem)
    have h80 : (0x80 : UInt8).toNat = 128 := rfl
    refine ⟨?_, ?_, ?_⟩
    · rintro rfl
      exact absurd hle (by decide)
    · rintro rfl
      exact absurd hle (by decide)
    · rw [UInt8.lt_iff_toNat_lt]
      have h20 : (0x20 : UInt8).toNat = 32 := rfl
      omega

/-- Bytes that need no escape are read one by one. -/
theorem stringBytes_append {w : List UInt8} (hw : ∀ b ∈ w, IsRaw b) (fuel : Nat)
    (read bs : List UInt8) (hfuel : w.length ≤ fuel) :
    stringBytes fuel read (w ++ bs) = stringBytes (fuel - w.length) (w.reverse ++ read) bs := by
  induction w generalizing fuel read with
  | nil => rfl
  | cons b w ih =>
    obtain ⟨hq, hb, hc⟩ := hw b List.mem_cons_self
    cases fuel with
    | zero => cases hfuel
    | succ fuel =>
      rw [List.length_cons] at hfuel
      rw [List.cons_append, stringBytes, if_neg hq, if_neg hb, if_neg hc,
        ih (fun a ha => hw a (List.mem_cons_of_mem _ ha)) fuel (b :: read) (by omega)]
      rw [List.length_cons, Nat.add_sub_add_right, List.reverse_cons, List.append_assoc,
        List.singleton_append]

theorem Grammar.FourHex.length {n : Nat} (h : FourHex bs n rest) : bs.length = rest.length + 4 := by
  cases h
  rfl

theorem Grammar.Escape.length_lt {c : Char} (h : Escape bs c rest) : rest.length < bs.length := by
  cases h with
  | short h =>
    rw [List.length_cons]
    exact Nat.lt_succ_self _
  | unit h hn =>
    have hlen := h.length
    rw [List.length_cons]
    omega
  | pair h hn h' hm =>
    have hlen := h.length
    have hlen' := h'.length
    simp only [List.length_cons] at hlen ⊢
    omega

theorem Grammar.Letters.length_lt {s : List Char} (h : Letters bs s rest) :
    rest.length < bs.length := by
  induction h with
  | closed =>
    rw [List.length_cons]
    exact Nat.lt_succ_self _
  | plain _ _ _ _ ih =>
    rw [List.length_append]
    omega
  | escaped he _ ih =>
    have hlt := he.length_lt
    rw [List.length_cons]
    omega

/-- A string of the grammar is read as the bytes of its characters. -/
theorem stringBytes_of_letters {s : List Char} (h : Letters bs s rest) (fuel : Nat)
    (read : List UInt8) (hfuel : bs.length ≤ fuel) :
    stringBytes fuel read bs = .ok (read.reverse ++ encode s, rest) := by
  induction h generalizing fuel read with
  | closed =>
    cases fuel with
    | zero => cases hfuel
    | succ fuel =>
      rw [stringBytes, if_pos rfl, Text.encode_nil, List.append_nil]
  | @plain bs rest c s hq hb hc h ih =>
    rw [List.length_append] at hfuel
    rw [stringBytes_append (isRaw_of_encodeChar hq hb hc) _ _ _ (by omega), ih _ _ (by omega),
      List.reverse_append, List.reverse_reverse, Text.encode_cons, List.append_assoc]
  | @escaped bs cs rest c s he h ih =>
    have hlt := he.length_lt
    cases fuel with
    | zero => cases hfuel
    | succ fuel =>
      rw [List.length_cons] at hfuel
      rw [stringBytes, if_neg (by decide), if_pos rfl, escape_of_grammar he]
      simp only
      rw [ih _ _ (by omega), List.reverse_append, List.reverse_reverse, Text.encode_cons,
        List.append_assoc]

theorem string_of_letters {s : String} (h : Letters bs s.toList rest) :
    string bs = .ok (s, rest) := by
  refine bind_eq_ok.2 ⟨_, stringBytes_of_letters h bs.length [] (Nat.le_refl _), ?_⟩
  simp only [List.reverse_nil, List.nil_append, Text.ofUtf8?_encode, String.ofList_toList]

end AckRelay.Json
