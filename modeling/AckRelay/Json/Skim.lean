import AckRelay.Json.Value

namespace AckRelay.Json

/-- Passes over a number. A number that is cut off is malformed. -/
def skimNumber (bs : List UInt8) : Except Fault (List UInt8) :=
  match numeral bs with
  | .ok (_, rest) => .ok rest
  | .error _ => .error .malformed

/-- Passes over the rest of a string; `fuel` bounds its characters. -/
def skimStringBytes : Nat → List UInt8 → Except Fault (List UInt8)
  | _, [] => .error .truncated
  | 0, _ => .error .malformed
  | fuel + 1, b :: bs =>
    if b = Ascii.quote then .ok bs
    else if b = Ascii.backslash then
      match bs with
      | [] => .error .truncated
      | e :: rest =>
        if e = 0x75 then
          match fourHex rest with
          | .ok (_, rest) => skimStringBytes fuel rest
          | .error f => .error f
        else if (shortEscape? e).isSome then skimStringBytes fuel rest
        else .error .malformed
    else if b < 0x20 then .error .malformed
    else skimStringBytes fuel bs

def skimString (bs : List UInt8) : Except Fault (List UInt8) :=
  skimStringBytes bs.length bs

def skimScalar (bs : List UInt8) : Except Fault (List UInt8) :=
  match bs with
  | [] => .error .truncated
  | b :: rest =>
    if b = 0x6E then literal nullTail rest
    else if b = 0x74 then literal trueTail rest
    else if b = 0x66 then literal falseTail rest
    else if b = Ascii.minus ∨ isDigit b then skimNumber bs
    else .error .malformed

inductive Open where
  | list
  | object
  deriving DecidableEq, Repr

mutual

/-- Passes over a value within the given open lists and objects, and on to the end of the
outermost one; `fuel` bounds the steps. -/
def skimValue : Nat → List Open → List UInt8 → Except Fault (List UInt8)
  | 0, _, _ => .error .malformed
  | fuel + 1, around, bs =>
    match skipBlank bs with
    | [] => .error .truncated
    | b :: rest =>
      if b = Ascii.openList then
        match nextItem true rest with
        | .error f => .error f
        | .ok (.closed rest) => skimAfter fuel around rest
        | .ok (.more rest) => skimValue fuel (.list :: around) rest
      else if b = Ascii.openObject then
        match nextKey true rest with
        | .error f => .error f
        | .ok (.closed rest) => skimAfter fuel around rest
        | .ok (.more rest) => skimMember fuel around rest
      else if b = Ascii.quote then
        match skimString rest with
        | .error f => .error f
        | .ok rest => skimAfter fuel around rest
      else
        match skimScalar (b :: rest) with
        | .error f => .error f
        | .ok rest => skimAfter fuel around rest

def skimMember : Nat → List Open → List UInt8 → Except Fault (List UInt8)
  | 0, _, _ => .error .malformed
  | fuel + 1, around, bs =>
    match skimString bs with
    | .error f => .error f
    | .ok rest =>
      match colon rest with
      | .error f => .error f
      | .ok rest => skimValue fuel (.object :: around) rest

def skimAfter : Nat → List Open → List UInt8 → Except Fault (List UInt8)
  | 0, _, _ => .error .malformed
  | _ + 1, [], bs => .ok bs
  | fuel + 1, .list :: around, bs =>
    match nextItem false bs with
    | .error f => .error f
    | .ok (.closed rest) => skimAfter fuel around rest
    | .ok (.more rest) => skimValue fuel (.list :: around) rest
  | fuel + 1, .object :: around, bs =>
    match nextKey false bs with
    | .error f => .error f
    | .ok (.closed rest) => skimAfter fuel around rest
    | .ok (.more rest) => skimMember fuel around rest

end

def skim (bs : List UInt8) : Except Fault (List UInt8) :=
  skimValue (3 * bs.length + 3) [] bs

end AckRelay.Json
