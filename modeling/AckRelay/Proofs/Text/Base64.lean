import AckRelay.Text.Base64

namespace AckRelay.Text.Base64

theorem value?_digit : ∀ n < 64, value? (digit n) = some n := by decide

theorem digit_ne_padding : ∀ n < 64, digit n ≠ '=' := by decide

theorem oneByte?_digits (a : UInt8) :
    oneByte? (digit (a.toNat / 4)) (digit (a.toNat % 4 * 16)) = some [a] := by
  have ha := a.toNat_lt
  rw [oneByte?, value?_digit _ (by omega), value?_digit _ (by omega)]
  have hzero : a.toNat % 4 * 16 % 16 = 0 := by omega
  have hvalue : a.toNat / 4 * 4 + a.toNat % 4 * 16 / 16 = a.toNat := by omega
  simp only [Option.bind_eq_bind, Option.bind_some, hzero, ↓reduceIte, hvalue, UInt8.ofNat_toNat]

theorem twoBytes?_digits (a b : UInt8) :
    twoBytes? (digit ((a.toNat * 256 + b.toNat) / 1024))
      (digit ((a.toNat * 256 + b.toNat) / 16 % 64)) (digit ((a.toNat * 256 + b.toNat) % 16 * 4)) =
      some [a, b] := by
  have ha := a.toNat_lt
  have hb := b.toNat_lt
  rw [twoBytes?, value?_digit _ (by omega), value?_digit _ (by omega), value?_digit _ (by omega)]
  have hzero : (a.toNat * 256 + b.toNat) % 16 * 4 % 4 = 0 := by omega
  have hvalue : (a.toNat * 256 + b.toNat) / 1024 * 1024 + (a.toNat * 256 + b.toNat) / 16 % 64 * 16 +
      (a.toNat * 256 + b.toNat) % 16 * 4 / 4 = a.toNat * 256 + b.toNat := by omega
  have hfirst : (a.toNat * 256 + b.toNat) / 256 = a.toNat := by omega
  have hsecond : (a.toNat * 256 + b.toNat) % 256 = b.toNat := by omega
  simp only [Option.bind_eq_bind, Option.bind_some, hzero, ↓reduceIte, hvalue, hfirst, hsecond,
    UInt8.ofNat_toNat]

theorem sextets (n : Nat) :
    n / 262144 * 262144 + n / 4096 % 64 * 4096 + n / 64 % 64 * 64 + n % 64 = n := by
  omega

theorem threeBytes?_digits (a b c : UInt8) :
    threeBytes? (digit ((a.toNat * 65536 + b.toNat * 256 + c.toNat) / 262144))
      (digit ((a.toNat * 65536 + b.toNat * 256 + c.toNat) / 4096 % 64))
      (digit ((a.toNat * 65536 + b.toNat * 256 + c.toNat) / 64 % 64))
      (digit ((a.toNat * 65536 + b.toNat * 256 + c.toNat) % 64)) = some [a, b, c] := by
  have ha := a.toNat_lt
  have hb := b.toNat_lt
  have hc := c.toNat_lt
  generalize hn : a.toNat * 65536 + b.toNat * 256 + c.toNat = n
  have hx := value?_digit (n / 262144) (by omega)
  have hy := value?_digit (n / 4096 % 64) (by omega)
  have hz := value?_digit (n / 64 % 64) (by omega)
  have hw := value?_digit (n % 64) (by omega)
  have hfirst : n / 65536 = a.toNat := by omega
  have hsecond : n / 256 % 256 = b.toNat := by omega
  have hthird : n % 256 = c.toNat := by omega
  simp only [threeBytes?, hx, hy, hz, hw, Option.bind_eq_bind, Option.bind_some, sextets, hfirst,
    hsecond, hthird, UInt8.ofNat_toNat]

theorem decodeChars?_encodeChars (bs : List UInt8) : decodeChars? (encodeChars bs) = some bs := by
  induction bs using encodeChars.induct with
  | case1 => rfl
  | case2 a =>
    rw [encodeChars, decodeChars?]
    simp only [and_self, ↓reduceIte]
    exact oneByte?_digits a
  | case3 a b =>
    have hpadding : digit ((a.toNat * 256 + b.toNat) % 16 * 4) ≠ '=' :=
      digit_ne_padding _ (by omega)
    rw [encodeChars, decodeChars?]
    simp only [and_self, ↓reduceIte, hpadding]
    exact twoBytes?_digits a b
  | case4 a b c rest ih =>
    have hpadding : digit ((a.toNat * 65536 + b.toNat * 256 + c.toNat) % 64) ≠ '=' :=
      digit_ne_padding _ (by omega)
    rw [encodeChars, decodeChars?]
    simp only [hpadding, and_false, ↓reduceIte, threeBytes?_digits, ih]
    rfl

theorem decode?_encode (bs : List UInt8) : decode? (encode bs) = some bs := by
  rw [decode?, encode, String.toList_ofList, decodeChars?_encodeChars]

end AckRelay.Text.Base64
