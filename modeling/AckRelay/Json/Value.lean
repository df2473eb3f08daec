import AckRelay.Json.Token

/-!
JSON values, read from bytes. Lists and objects may be nested 127 deep, and every string and number
is checked, also where the value is of no use to the caller.
-/

namespace AckRelay

/-- A JSON value. Members keep their order, and keys may repeat. -/
inductive Json where
  | null
  | bool (b : Bool)
  | integer (n : Int)
  /-- A number with a point or an exponent, or minus zero. No message has use for its value. -/
  | real
  | text (s : String)
  | list (xs : List Json)
  | object (ms : List (String × Json))
  deriving Inhabited

namespace Json

def nullTail : List UInt8 := [0x75, 0x6C, 0x6C]
def trueTail : List UInt8 := [0x72, 0x75, 0x65]
def falseTail : List UInt8 := [0x61, 0x6C, 0x73, 0x65]

def ofNumeral (x : Numeral) : Json :=
  match x.integer? with
  | some n => .integer n
  | none => .real

def scalar (bs : List UInt8) : Except Fault (Json × List UInt8) :=
  match bs with
  | [] => .error .truncated
  | b :: rest =>
    if b = 0x6E then (literal nullTail rest).map (fun r => (.null, r))
    else if b = 0x74 then (literal trueTail rest).map (fun r => (.bool true, r))
    else if b = 0x66 then (literal falseTail rest).map (fun r => (.bool false, r))
    else if b = Ascii.minus ∨ isDigit b then (number bs).map (fun x => (ofNumeral x.1, x.2))
    else .error .malformed

mutual

/-- Reads a value after white space. `levels` is how deep it may be nested; `fuel` bounds the
steps. -/
def value : Nat → Nat → List UInt8 → Except Fault (Json × List UInt8)
  | 0, _, _ => .error .malformed
  | fuel + 1, levels, bs =>
    match skipBlank bs with
    | [] => .error .truncated
    | b :: rest =>
      -- a list or an object uses up a level, a scalar does not
      if b = Ascii.openList then
        if levels = 0 then .error .malformed else items fuel (levels - 1) [] rest
      else if b = Ascii.openObject then
        if levels = 0 then .error .malformed else members fuel (levels - 1) [] rest
      else if b = Ascii.quote then (string rest).map (fun x => (.text x.1, x.2))
      else scalar (b :: rest)

/-- Reads the elements of a list up to its end; those already read come last one first. -/
def items : Nat → Nat → List Json → List UInt8 → Except Fault (Json × List UInt8)
  | 0, _, _, _ => .error .malformed
  | fuel + 1, levels, read, bs =>
    match nextItem read.isEmpty bs with
    | .error f => .error f
    | .ok (.closed rest) => .ok (.list read.reverse, rest)
    | .ok (.more rest) =>
      match value fuel levels rest with
      | .error f => .error f
      | .ok (v, rest) => items fuel levels (v :: read) rest

/-- Reads the members of an object up to its end; those already read come last one first. -/
def members : Nat → Nat → List (String × Json) → List UInt8 → Except Fault (Json × List UInt8)
  | 0, _, _, _ => .error .malformed
  | fuel + 1, levels, read, bs =>
    match nextKey read.isEmpty bs with
    | .error f => .error f
    | .ok (.closed rest) => .ok (.object read.reverse, rest)
    | .ok (.more rest) =>
      match string rest with
      | .error f => .error f
      | .ok (key, rest) =>
        match colon rest with
        | .error f => .error f
        | .ok rest =>
          match value fuel levels rest with
          | .error f => .error f
          | .ok (v, rest) => members fuel levels ((key, v) :: read) rest

end

def maxLevels : Nat := 127

def stepsFor (bs : List UInt8) : Nat := 2 * bs.length + 2

def next (levels : Nat) (bs : List UInt8) : Except Fault (Json × List UInt8) :=
  value (stepsFor bs) levels bs

def finish (bs : List UInt8) : Except Fault Unit :=
  if skipBlank bs = [] then .ok () else .error .malformed

def parse (bs : List UInt8) : Except Fault Json := do
  let (v, rest) ← next maxLevels bs
  finish rest
  .ok v

def only? (key : String) (ms : List (String × Json)) : Option Json :=
  match ms.filter (fun m => m.1 = key) with
  | [m] => some m.2
  | _ => none

def asText? : Json → Option String
  | .text s => some s
  | _ => none

def asInt32? : Json → Option Int32
  | .integer n =>
    if Int32.minValue.toInt ≤ n ∧ n ≤ Int32.maxValue.toInt then some (Int32.ofInt n) else none
  | _ => none

def asInt64? : Json → Option Int64
  | .integer n =>
    if Int64.minValue.toInt ≤ n ∧ n ≤ Int64.maxValue.toInt then some (Int64.ofInt n) else none
  | _ => none

end Json

end AckRelay
