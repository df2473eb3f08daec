namespace AckRelay.Text

def isAsciiBlank (c : Char) : Bool := c = ' ' || ('\t' ≤ c && c ≤ '\r')

def digitValue? (c : Char) : Option Nat :=
  if '0' ≤ c ∧ c ≤ '9' then some (c.toNat - '0'.toNat)
  else if 'a' ≤ c.toLower ∧ c.toLower ≤ 'z' then some (c.toLower.toNat - 'a'.toNat + 10)
  else none

def takeDigits (base : Nat) : List Char → List Nat × List Char
  | [] => ([], [])
  | c :: cs =>
    match (digitValue? c).filter (· < base) with
    | some d =>
      let (ds, rest) := takeDigits base cs
      (d :: ds, rest)
    | none => ([], c :: cs)

def ofDigits (base : Nat) (ds : List Nat) : Nat := ds.foldl (fun n d => base * n + d) 0

def takeSign : List Char → Bool × List Char
  | '-' :: cs => (true, cs)
  | '+' :: cs => (false, cs)
  | cs => (false, cs)

/-- The digits of a number without a sign, in the base that its front tells. Where no digit follows
`0x`, the number is the zero in front. -/
def magnitude? (cs : List Char) : Option Nat :=
  match cs with
  | '0' :: 'x' :: rest | '0' :: 'X' :: rest => some (ofDigits 16 (takeDigits 16 rest).1)
  | '0' :: rest => some (ofDigits 8 (takeDigits 8 rest).1)
  | cs =>
    match (takeDigits 10 cs).1 with
    | [] => none
    | ds => some (ofDigits 10 ds)

def leadingInteger? (cs : List Char) : Option Int :=
  let (negative, cs) := takeSign (cs.dropWhile isAsciiBlank)
  (magnitude? cs).map fun n => if negative then -Int.ofNat n else Int.ofNat n

def toWord (n : Int) : Int :=
  Int.bmod (max (-9223372036854775808) (min n 9223372036854775807)) 4294967296

end AckRelay.Text
