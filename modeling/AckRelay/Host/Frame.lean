namespace AckRelay.Frame

def maxLength : Nat := UInt32.size - 1

def lengthBytes (n : Nat) : List UInt8 :=
  [UInt8.ofNat (n / 16777216 % 256), UInt8.ofNat (n / 65536 % 256), UInt8.ofNat (n / 256 % 256),
    UInt8.ofNat (n % 256)]

def readLength? : List UInt8 → Option (Nat × List UInt8)
  | a :: b :: c :: d :: rest =>
    some (((a.toNat * 256 + b.toNat) * 256 + c.toNat) * 256 + d.toNat, rest)
  | _ => none

def encode (body : List UInt8) : List UInt8 := lengthBytes body.length ++ body

def next? (bs : List UInt8) : Option (List UInt8 × List UInt8) := do
  let (n, rest) ← readLength? bs
  if n ≤ rest.length then some (rest.take n, rest.drop n) else none

def splitUpTo : Nat → List UInt8 → List (List UInt8) × List UInt8
  | 0, bs => ([], bs)
  | fuel + 1, bs =>
    match next? bs with
    | none => ([], bs)
    | some (body, rest) =>
      let (bodies, left) := splitUpTo fuel rest
      (body :: bodies, left)

def split (bs : List UInt8) : List (List UInt8) × List UInt8 := splitUpTo bs.length bs

end AckRelay.Frame
