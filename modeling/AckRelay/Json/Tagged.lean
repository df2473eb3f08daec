import AckRelay.Json.Value

namespace AckRelay.Json

inductive Body where
  /-- The members of the object form, in order. -/
  | members (ms : List (String × Json))
  | items (xs : List Json)

def Body.fields? (names : List String) : Body → Option (List Json)
  | .members ms => names.mapM (fun name => only? name ms)
  | .items xs => if xs.length = names.length then some xs else none

def fields? (names : List String) : Json → Option (List Json)
  | .object ms => (Body.members ms).fields? names
  | .list xs => (Body.items xs).fields? names
  | _ => none

def tagKey : String := "type"

def tagged? : Json → Option (String × Body)
  | .object ms => do
    let tag ← (only? tagKey ms).bind asText?
    some (tag, .members ms)
  | .list (.text tag :: xs) => some (tag, .items xs)
  | _ => none

def wrongShape (bs : List UInt8) : Fault :=
  match skipBlank bs with
  | [] => .truncated
  | b :: rest =>
    if b = Ascii.openList ∨ b = Ascii.openObject then .mismatch
    else if b = Ascii.quote then
      match string rest with
      | .ok _ => .mismatch
      | .error f => f
    else
      match scalar (b :: rest) with
      | .ok _ => .mismatch
      | .error f => f

def readText (bs : List UInt8) : Except Fault (String × List UInt8) :=
  match skipBlank bs with
  | [] => .error .truncated
  | b :: rest => if b = Ascii.quote then string rest else .error (wrongShape bs)

def readInt32 (bs : List UInt8) : Except Fault (Int32 × List UInt8) :=
  match skipBlank bs with
  | [] => .error .truncated
  | b :: rest =>
    if b = Ascii.minus ∨ isDigit b then
      match number (b :: rest) with
      | .error f => .error f
      | .ok (x, rest) =>
        match asInt32? (ofNumeral x) with
        | some n => .ok (n, rest)
        | none => .error .mismatch
    else .error (wrongShape bs)

section

variable {α : Type} (known : String → Option α)

/-- Reads a tag. A tag that is not known is a mismatch. -/
def readTag (bs : List UInt8) : Except Fault (α × List UInt8) := do
  let (s, rest) ← readText bs
  match known s with
  | some a => .ok (a, rest)
  | none => .error .mismatch

/-- Reads the members of a tagged object up to its end. A second tag is refused at its key. -/
def taggedMembers (levels : Nat) :
    Nat → Bool → Option α → List (String × Json) → List UInt8 →
      Except Fault (α × Body × List UInt8)
  | 0, _, _, _, _ => .error .malformed
  | fuel + 1, first, tag, read, bs => do
    match ← nextKey first bs with
    | .closed rest =>
      match tag with
      | some a => .ok (a, .members read.reverse, rest)
      | none => .error .mismatch
    | .more rest =>
      let (key, rest) ← string rest
      if key = tagKey then
        if tag.isSome then .error .mismatch
        else
          let rest ← colon rest
          let (a, rest) ← readTag known rest
          taggedMembers levels fuel false (some a) read rest
      else
        let rest ← colon rest
        let (v, rest) ← next levels rest
        taggedMembers levels fuel false tag ((key, v) :: read) rest

def readTagged (bs : List UInt8) : Except Fault (α × Body × List UInt8) :=
  match skipBlank bs with
  | [] => .error .truncated
  | b :: rest =>
    if b = Ascii.openObject then
      taggedMembers known (maxLevels - 1) (rest.length + 1) true none [] rest
    else if b = Ascii.openList then do
      match ← nextItem true rest with
      | .closed _ => .error .mismatch
      | .more rest =>
        let (a, rest) ← readTag known rest
        match ← items (stepsFor rest) (maxLevels - 1) [.null] rest with
        | (.list (_ :: xs), rest) => .ok (a, .items xs, rest)
        | _ => .error .mismatch
    else .error (wrongShape bs)

def parseTagged {β : Type} (build : α → Body → Option β) (bs : List UInt8) : Except Fault β := do
  let (a, body, rest) ← readTagged known bs
  match build a body with
  | none => .error .mismatch
  | some b =>
    finish rest
    .ok b

end

end AckRelay.Json
