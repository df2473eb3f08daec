import AckRelay.Text.LeadingInteger

namespace AckRelay.Text

inductive Binary64 where
  | undefined
  | infinite (negative : Bool)
  | finite (negative : Bool) (significand : Nat) (exponent : Int)
  deriving DecidableEq, Repr

/-- The nearest whole number to a fraction; a tie goes to the even one. -/
def roundDiv (num den : Nat) : Nat :=
  let low := num / den
  let left := num % den
  if 2 * left > den ∨ 2 * left = den ∧ low % 2 = 1 then low + 1 else low

def scale (base : Nat) (power : Int) (num den : Nat) : Nat × Nat :=
  (num * Nat.pow base power.toNat, den * Nat.pow base (-power).toNat)

def floorPower (base : Nat) (estimate : Int) (num den : Nat) : Int :=
  let (num, den) := scale base (-estimate) num den
  if den ≤ num then estimate else estimate - 1

namespace Binary64

/-- The double that is nearest to a fraction; a tie goes to the one with an even significand. -/
def nearest (negative : Bool) (num den : Nat) : Binary64 :=
  if num = 0 then .finite negative 0 0
  else
    let top := floorPower 2 (Int.ofNat num.log2 - Int.ofNat den.log2) num den
    let exponent := max (top - 52) (-1074)
    let (scaledNum, scaledDen) := scale 2 (-exponent) num den
    let significand := roundDiv scaledNum scaledDen
    if 1024 ≤ Int.ofNat significand.log2 + exponent then .infinite negative
    else .finite negative significand exponent

/-- The double of `n * base ^ power`, where `n` is written with so many digits. Powers that leave
the range by far are not computed. -/
def ofScaled (negative : Bool) (n digits base : Nat) (power : Int) : Binary64 :=
  if n = 0 ∨ power + 4 * Int.ofNat digits < -2000 then .finite negative 0 0
  else if 2000 < power then .infinite negative
  else
    let (num, den) := scale base power n 1
    nearest negative num den

/-- The exponent at the front, after its letter; zero if it has no digits. -/
def exponentOf (letter : Char) : List Char → Int
  | [] => 0
  | c :: cs =>
    if c.toLower = letter then
      let (negative, cs) := takeSign cs
      let n := Text.ofDigits 10 (takeDigits 10 cs).1
      if negative then -Int.ofNat n else Int.ofNat n
    else 0

def takeDecimal (base : Nat) (cs : List Char) : List Nat × List Nat × List Char :=
  match takeDigits base cs with
  | (whole, '.' :: rest) =>
    let (fraction, rest) := takeDigits base rest
    (whole, fraction, rest)
  | (whole, rest) => (whole, [], rest)

def unsigned? (negative : Bool) (cs : List Char) : Option Binary64 :=
  let decimal : Option Binary64 :=
    match takeDecimal 10 cs with
    | ([], [], _) => none
    | (whole, fraction, rest) =>
      let ds := whole ++ fraction
      some (ofScaled negative (Text.ofDigits 10 ds) ds.length 10
        (exponentOf 'e' rest - Int.ofNat fraction.length))
  match cs with
  | '0' :: 'x' :: rest | '0' :: 'X' :: rest =>
    match takeDecimal 16 rest with
    | ([], [], _) => decimal
    | (whole, fraction, rest) =>
      let ds := whole ++ fraction
      some (ofScaled negative (Text.ofDigits 16 ds) ds.length 2
        (exponentOf 'p' rest - 4 * Int.ofNat fraction.length))
  | _ => decimal

def leading? (cs : List Char) : Option Binary64 :=
  let (negative, cs) := takeSign (cs.dropWhile isAsciiBlank)
  let word := (cs.take 3).map Char.toLower
  if word = ['i', 'n', 'f'] then some (.infinite negative)
  else if word = ['n', 'a', 'n'] then some .undefined
  else unsigned? negative cs

def isBelow (bound : Int) : Binary64 → Bool
  | .undefined => false
  | .infinite negative => negative
  | .finite negative significand exponent =>
    let (num, den) := scale 2 exponent significand 1
    (if negative then -Int.ofNat num else Int.ofNat num) < bound * Int.ofNat den

def isAbove (bound : Int) : Binary64 → Bool
  | .undefined => false
  | .infinite negative => !negative
  | .finite negative significand exponent =>
    let (num, den) := scale 2 exponent significand 1
    bound * Int.ofNat den < (if negative then -Int.ofNat num else Int.ofNat num)

def sixDigits (num den : Nat) : List Char × Int :=
  let length (n : Nat) : Int := Int.ofNat (Nat.toDigits 10 n).length
  let top := floorPower 10 (length num - length den) num den
  let (scaledNum, scaledDen) := scale 10 (5 - top) num den
  let rounded := roundDiv scaledNum scaledDen
  if rounded = 1000000 then (Nat.toDigits 10 100000, top + 1) else (Nat.toDigits 10 rounded, top)

def pointed (whole fraction : List Char) : List Char :=
  match (fraction.reverse.dropWhile (· = '0')).reverse with
  | [] => whole
  | fraction => whole ++ '.' :: fraction

def exponentText (power : Int) : List Char :=
  let digits := Nat.toDigits 10 power.natAbs
  ['e', if power < 0 then '-' else '+'] ++ List.replicate (2 - digits.length) '0' ++ digits

def general (num den : Nat) : List Char :=
  let (digits, top) := sixDigits num den
  if 6 ≤ top ∨ top < -4 then pointed (digits.take 1) (digits.drop 1) ++ exponentText top
  else if top < 0 then pointed ['0'] (List.replicate (top.natAbs - 1) '0' ++ digits)
  else pointed (digits.take (top.toNat + 1)) (digits.drop (top.toNat + 1))

def text : Binary64 → String
  | .undefined => "nan"
  | .infinite negative => if negative then "-inf" else "inf"
  | .finite negative significand exponent =>
    let (num, den) := scale 2 exponent significand 1
    let digits := if num = 0 then ['0'] else general num den
    String.ofList (if negative then '-' :: digits else digits)

end Binary64

end AckRelay.Text
