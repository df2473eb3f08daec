namespace AckRelay.SocketAddress

def digit? (base : Nat) (c : Char) : Option Nat :=
  let n := c.toNat
  let v :=
    if '0' ≤ c ∧ c ≤ '9' then n - 48
    else if 'a' ≤ c ∧ c ≤ 'f' then n - 87
    else if 'A' ≤ c ∧ c ≤ 'F' then n - 55
    else base
  if v < base then some v else none

def isDigit (base : Nat) (c : Char) : Bool := (digit? base c).isSome

/-- Reads a number of one digit or more, as long as it can be, and refuses one above `max`. Leading
zeros and the number of digits may be restricted. -/
def number (base max : Nat) (maxDigits : Option Nat) (leadingZeros : Bool) (cs : List Char) :
    Option (Nat × List Char) :=
  let ds := cs.takeWhile (isDigit base)
  let n := ds.foldl (fun n c => base * n + (digit? base c).getD 0) 0
  if ds = [] || maxDigits.any (· < ds.length) || max < n then none
  else if !leadingZeros && ds.head? = some '0' && ds.length ≠ 1 then none
  else some (n, cs.dropWhile (isDigit base))

def char (c : Char) : List Char → Option (List Char)
  | d :: cs => if d = c then some cs else none
  | [] => none

def octet (cs : List Char) : Option (Nat × List Char) :=
  number 10 (UInt8.size - 1) (some 3) false cs

def ipv4 (cs : List Char) : Option (List Char) := do
  let (_, cs) ← octet cs
  let (_, cs) ← octet (← char '.' cs)
  let (_, cs) ← octet (← char '.' cs)
  let (_, cs) ← octet (← char '.' cs)
  return cs

def group (cs : List Char) : Option (Nat × List Char) :=
  number 16 (UInt16.size - 1) (some 4) true cs

def afterColon (first : Bool) (cs : List Char) : Option (List Char) :=
  if first then some cs else char ':' cs

/-- Reads at most `room` groups, of which the last two may be written as an IPv4 address. Gives how
many they were, and whether they end in an IPv4 address. -/
def groups : Nat → Bool → List Char → Nat × Bool × List Char
  | 0, _, cs => (0, false, cs)
  | room + 1, first, cs =>
    match if room = 0 then none else (afterColon first cs).bind ipv4 with
    | some cs => (2, true, cs)
    | none =>
      match (afterColon first cs).bind group with
      | none => (0, false, cs)
      | some (_, cs) =>
        let (n, embedded, cs) := groups room false cs
        (n + 1, embedded, cs)

def ipv6 (cs : List Char) : Option (List Char) :=
  let (n, embedded, cs) := groups 8 true cs
  if n = 8 then some cs
  else if embedded then none
  else do
    let cs ← char ':' (← char ':' cs)
    return (groups (7 - n) true cs).2.2

def scope (cs : List Char) : Option (List Char) :=
  match cs with
  | '%' :: rest => (number 10 (UInt32.size - 1) none true rest).map Prod.snd
  | _ => some cs

def service (cs : List Char) : Option (List Char) := do
  let (_, cs) ← number 10 (UInt16.size - 1) none true (← char ':' cs)
  return cs

def bracketed (cs : List Char) : Option (List Char) := do
  char ']' (← scope (← ipv6 (← char '[' cs)))

def isValid (s : String) : Bool :=
  let cs := s.toList
  ((ipv4 cs).bind service == some []) || ((bracketed cs).bind service == some [])

end AckRelay.SocketAddress
