namespace AckRelay.Text

def digit? (c : Char) : Option Nat :=
  if '0' ≤ c ∧ c ≤ '9' then some (c.toNat - '0'.toNat) else none

def digits? : Nat → List Char → Option Nat
  | n, [] => some n
  | n, c :: cs => (digit? c).bind (fun d => digits? (10 * n + d) cs)

def readNat? (max : Nat) (s : String) : Option Nat :=
  let body :=
    match s.toList with
    | '+' :: cs => cs
    | cs => cs
  if body = [] then none
  else (digits? 0 body).filter (· ≤ max)

end AckRelay.Text
