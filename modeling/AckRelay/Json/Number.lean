namespace AckRelay.Json

structure Numeral where
  negative : Bool
  whole : List Nat
  fraction : Option (List Nat)
  exponent : Option Int
  deriving DecidableEq, Repr

/-- The nearest number with at most 53 significant bits; a tie goes to the even one. -/
def roundTo53Bits (n : Nat) : Nat :=
  let extra := n.log2 + 1 - 53
  if extra = 0 then n
  else
    let unit := Nat.pow 2 extra
    let low := n / unit
    let left := n % unit
    if 2 * left > unit ∨ 2 * left = unit ∧ low % 2 = 1 then (low + 1) * unit else low * unit

def ofDigits (ds : List Nat) : Nat := ds.foldl (fun n d => 10 * n + d) 0

/-- Appends digits to a number as long as it stays below `2 ^ 64`; gives the number and how many
digits were left out. -/
def appendDigits (n : Nat) : List Nat → Nat × Nat
  | [] => (n, 0)
  | d :: ds => if 10 * n + d < UInt64.size then appendDigits (10 * n + d) ds else (n, ds.length + 1)

def leastHuge : Nat := Nat.pow 2 1024 - Nat.pow 2 970

namespace Numeral

/-- The number as a significand below `2 ^ 64` and a power of ten. Digits that do not fit the
significand only count through the power. -/
def scaled (x : Numeral) : Nat × Int :=
  let (whole, dropped) := appendDigits 0 x.whole
  let digits := x.fraction.getD []
  let (significand, left) := appendDigits whole digits
  (significand, Int.ofNat dropped - Int.ofNat (digits.length - left) + x.exponent.getD 0)

def isHuge (x : Numeral) : Bool :=
  let (significand, power) := x.scaled
  decide (significand ≠ 0) && decide (0 ≤ power) &&
    (decide (308 < power) ||
      decide (leastHuge ≤ roundTo53Bits significand * roundTo53Bits (Nat.pow 10 power.toNat)))

/-- The value of a number without point and exponent. Minus zero is no integer. -/
def integer? (x : Numeral) : Option Int :=
  if x.fraction.isSome || x.exponent.isSome then none
  else
    let n := ofDigits x.whole
    if x.negative then if n = 0 then none else some (-Int.ofNat n) else some (Int.ofNat n)

end Numeral

end AckRelay.Json
