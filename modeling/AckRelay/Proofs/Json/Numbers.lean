import AckRelay.Json.Number
import Mathlib.Tactic.Ring

namespace AckRelay.Json

/-! ### Rounding -/

/-- Rounding adds no more than a part in `2 ^ 52`. -/
theorem roundTo53Bits_le (n : Nat) : 2 ^ 52 * roundTo53Bits n ≤ (2 ^ 52 + 1) * n := by
  rw [roundTo53Bits]
  split
  · omega
  · next hextra =>
    have hn : n ≠ 0 := by
      rintro rfl
      exact hextra rfl
    have hunit : 2 ^ 52 * Nat.pow 2 (n.log2 + 1 - 53) ≤ n := by
      have hexponent : 52 + (n.log2 + 1 - 53) = n.log2 := by omega
      calc 2 ^ 52 * 2 ^ (n.log2 + 1 - 53) = 2 ^ n.log2 := by rw [← Nat.pow_add, hexponent]
        _ ≤ n := Nat.log2_self_le hn
    have hlow := Nat.div_mul_le_self n (Nat.pow 2 (n.log2 + 1 - 53))
    simp only
    split
    · rw [Nat.add_mul, Nat.one_mul]
      omega
    · omega

/-! ### Digits -/

def appended (n : Nat) (ds : List Nat) : Nat := ds.foldl (fun n d => 10 * n + d) n

theorem appended_append (n : Nat) (cs ds : List Nat) :
    appended n (cs ++ ds) = appended (appended n cs) ds := List.foldl_append

theorem mul_le_appended (n : Nat) (ds : List Nat) : n * 10 ^ ds.length ≤ appended n ds := by
  induction ds generalizing n with
  | nil => exact Nat.le_of_eq (Nat.mul_one n)
  | cons d ds ih =>
    calc n * 10 ^ (ds.length + 1) = 10 * n * 10 ^ ds.length := by ring
      _ ≤ (10 * n + d) * 10 ^ ds.length := Nat.mul_le_mul_right _ (Nat.le_add_right _ _)
      _ ≤ appended (10 * n + d) ds := ih _

/-- The digits that are appended are the first ones, and the next one would not have fitted. -/
theorem appendDigits_split (n : Nat) (ds : List Nat) : ∃ us vs, ds = us ++ vs ∧
    appendDigits n ds = (appended n us, vs.length) ∧ (us ≠ [] → appended n us < UInt64.size) ∧
    (vs ≠ [] → UInt64.size * 10 ^ (vs.length - 1) ≤ appended n ds) := by
  induction ds generalizing n with
  | nil => exact ⟨[], [], rfl, rfl, fun h => absurd rfl h, fun h => absurd rfl h⟩
  | cons d ds ih =>
    rw [appendDigits]
    split
    · next hlt =>
      obtain ⟨us, vs, hds, happend, hus, hvs⟩ := ih (10 * n + d)
      refine ⟨d :: us, vs, by rw [hds]; rfl, happend, fun _ => ?_, hvs⟩
      cases us with
      | nil => exact hlt
      | cons u us => exact hus (List.cons_ne_nil u us)
    · next hge =>
      refine ⟨[], d :: ds, rfl, rfl, fun h => absurd rfl h, fun _ => ?_⟩
      calc UInt64.size * 10 ^ ds.length ≤ (10 * n + d) * 10 ^ ds.length :=
            Nat.mul_le_mul_right _ (Nat.le_of_not_lt hge)
        _ ≤ appended (10 * n + d) ds := mul_le_appended _ _

namespace Numeral

def power (x : Numeral) : Int := x.exponent.getD 0 - Int.ofNat (x.fraction.getD []).length

/-- The number itself, and not what the reader computes for it, is below a bound. -/
def Below (bound : Nat) (x : Numeral) : Prop :=
  ofDigits (x.whole ++ x.fraction.getD []) * 10 ^ x.power.toNat < bound * 10 ^ (-x.power).toNat

instance (bound : Nat) (x : Numeral) : Decidable (x.Below bound) :=
  inferInstanceAs (Decidable (_ < _))

/-- The number is not too great for the reader. -/
def Fits (x : Numeral) : Prop := x.isHuge = false

/-- Digits of the fraction may fit the significand even where some of the whole part did not. -/
theorem significand_le {whole us vs us' : List Nat} (hwhole : whole = us ++ vs)
    (hus' : us' ≠ [] → appended (appended 0 us) us' < UInt64.size)
    (hvs : vs ≠ [] → UInt64.size * 10 ^ (vs.length - 1) ≤ appended 0 whole) :
    appended (appended 0 us) us' * 10 ^ vs.length ≤ appended (appended 0 whole) us' := by
  cases vs with
  | nil => rw [hwhole, List.append_nil, List.length_nil, Nat.pow_zero, Nat.mul_one]
  | cons v vs =>
    cases us' with
    | nil =>
      rw [hwhole, appended_append]
      exact mul_le_appended _ _
    | cons u us' =>
      have hsmall := hus' (List.cons_ne_nil u us')
      have hgreat := hvs (List.cons_ne_nil v vs)
      calc appended (appended 0 us) (u :: us') * 10 ^ (vs.length + 1)
          ≤ UInt64.size * 10 ^ (vs.length + 1) := Nat.mul_le_mul_right _ (Nat.le_of_lt hsmall)
        _ = UInt64.size * 10 ^ vs.length * 10 := by ring
        _ ≤ appended 0 whole * 10 := Nat.mul_le_mul_right _ hgreat
        _ ≤ appended 0 whole * 10 ^ (us'.length + 1) :=
          Nat.mul_le_mul_left _ (Nat.le_self_pow (Nat.succ_ne_zero _) 10)
        _ ≤ appended (appended 0 whole) (u :: us') := mul_le_appended _ (u :: us')

/-- Significand and power of the reader are no more than the number itself. -/
theorem scaled_le (x : Numeral) (hpower : 0 ≤ x.scaled.2) :
    x.scaled.1 * 10 ^ x.scaled.2.toNat * 10 ^ (-x.power).toNat ≤
      ofDigits (x.whole ++ x.fraction.getD []) * 10 ^ x.power.toNat := by
  obtain ⟨us, vs, hwhole, hn, -, hvs⟩ := appendDigits_split 0 x.whole
  obtain ⟨us', vs', hfraction, hs, hus', -⟩ :=
    appendDigits_split (appended 0 us) (x.fraction.getD [])
  have hscaled : x.scaled = (appended (appended 0 us) us',
      Int.ofNat vs.length - Int.ofNat ((x.fraction.getD []).length - vs'.length) +
        x.exponent.getD 0) := by
    simp only [scaled, hn, hs]
  have hlength : (x.fraction.getD []).length = us'.length + vs'.length := by
    rw [hfraction, List.length_append]
  have hwritten : ofDigits (x.whole ++ x.fraction.getD []) =
      appended (appended (appended 0 x.whole) us') vs' := by
    rw [← appended_append, ← appended_append, ← hfraction]
    rfl
  have hsignificand := significand_le hwhole hus' hvs
  have hpowers : x.scaled.2.toNat + (-x.power).toNat =
      x.power.toNat + (vs.length + vs'.length) := by
    rw [hscaled] at hpower ⊢
    simp only [power, hlength, Int.ofNat_eq_natCast] at hpower ⊢
    omega
  calc x.scaled.1 * 10 ^ x.scaled.2.toNat * 10 ^ (-x.power).toNat
      = x.scaled.1 * 10 ^ (x.scaled.2.toNat + (-x.power).toNat) := by ring
    _ = appended (appended 0 us) us' * 10 ^ vs.length * 10 ^ vs'.length * 10 ^ x.power.toNat := by
      rw [hpowers, hscaled]
      ring
    _ ≤ appended (appended 0 x.whole) us' * 10 ^ vs'.length * 10 ^ x.power.toNat :=
      Nat.mul_le_mul_right _ (Nat.mul_le_mul_right _ hsignificand)
    _ ≤ appended (appended (appended 0 x.whole) us') vs' * 10 ^ x.power.toNat :=
      Nat.mul_le_mul_right _ (mul_le_appended _ _)
    _ = ofDigits (x.whole ++ x.fraction.getD []) * 10 ^ x.power.toNat := by rw [hwritten]

theorem scaled_lt_of_below {x : Numeral} {bound : Nat} (h : x.Below bound)
    (hpower : 0 ≤ x.scaled.2) : x.scaled.1 * 10 ^ x.scaled.2.toNat < bound :=
  Nat.lt_of_mul_lt_mul_right (Nat.lt_of_le_of_lt (x.scaled_le hpower) h)

/-- Every number fits that is eight units in the last place or more below the limit of doubles. -/
theorem fits_of_below (x : Numeral) (h : x.Below (2 ^ 1024 - 2 ^ 974)) : x.Fits := by
  rw [Fits, Bool.eq_false_iff]
  intro hhuge
  simp only [isHuge, Bool.and_eq_true, Bool.or_eq_true, decide_eq_true_eq] at hhuge
  obtain ⟨⟨hzero, hpower⟩, hgreat⟩ := hhuge
  have hlt := scaled_lt_of_below h hpower
  generalize x.scaled.1 = s at hzero hgreat hlt
  generalize x.scaled.2 = p at hpower hgreat hlt
  rcases hgreat with hgreat | hgreat
  · have hpow : ∀ k : Nat, Int.ofNat k < p → 10 * 10 ^ k ≤ s * 10 ^ p.toNat := by
      intro k hk
      have hk' : k < p.toNat := Int.lt_toNat.2 hk
      calc 10 * 10 ^ k = 10 ^ (k + 1) := (Nat.pow_succ').symm
        _ ≤ 10 ^ p.toNat := Nat.pow_le_pow_right (by decide) hk'
        _ ≤ s * 10 ^ p.toNat := Nat.le_mul_of_pos_left _ (Nat.pos_of_ne_zero hzero)
    have hlimit : 2 ^ 1024 - 2 ^ 974 ≤ 10 * 10 ^ 308 := by decide +kernel
    exact Nat.lt_irrefl _ (Nat.lt_of_lt_of_le hlt (Nat.le_trans hlimit (hpow 308 hgreat)))
  · have hs := roundTo53Bits_le s
    have ht := roundTo53Bits_le (10 ^ p.toNat)
    have hlimit : (2 ^ 52 + 1) * (2 ^ 52 + 1) * (2 ^ 1024 - 2 ^ 974) ≤ 2 ^ 104 * leastHuge := by
      decide +kernel
    have hproduct : 2 ^ 104 * (roundTo53Bits s * roundTo53Bits (10 ^ p.toNat)) <
        2 ^ 104 * leastHuge :=
      calc 2 ^ 104 * (roundTo53Bits s * roundTo53Bits (10 ^ p.toNat))
          = 2 ^ 52 * roundTo53Bits s * (2 ^ 52 * roundTo53Bits (10 ^ p.toNat)) := by ring
        _ ≤ (2 ^ 52 + 1) * s * ((2 ^ 52 + 1) * 10 ^ p.toNat) := Nat.mul_le_mul hs ht
        _ = (2 ^ 52 + 1) * (2 ^ 52 + 1) * (s * 10 ^ p.toNat) := by ring
        _ < (2 ^ 52 + 1) * (2 ^ 52 + 1) * (2 ^ 1024 - 2 ^ 974) :=
          Nat.mul_lt_mul_of_pos_left hlt (by decide)
        _ ≤ 2 ^ 104 * leastHuge := hlimit
    exact Nat.lt_irrefl _ (Nat.lt_of_lt_of_le (Nat.lt_of_mul_lt_mul_left hproduct) hgreat)

end Numeral

end AckRelay.Json
