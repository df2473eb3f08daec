import AckRelay.Json.Number
import AckRelay.Text.Utf8

namespace AckRelay.Json

inductive Fault where
  | malformed
  | truncated
  | mismatch
  deriving DecidableEq, Repr

/-! ### Bytes with a meaning of their own -/

namespace Ascii

def quote : UInt8 := 0x22
def plus : UInt8 := 0x2B
def comma : UInt8 := 0x2C
def minus : UInt8 := 0x2D
def point : UInt8 := 0x2E
def zero : UInt8 := 0x30
def colon : UInt8 := 0x3A
def openList : UInt8 := 0x5B
def backslash : UInt8 := 0x5C
def closeList : UInt8 := 0x5D
def openObject : UInt8 := 0x7B
def closeObject : UInt8 := 0x7D

end Ascii

def isBlank (b : UInt8) : Bool := b == 0x20 || b == 0x09 || b == 0x0A || b == 0x0D

def skipBlank (bs : List UInt8) : List UInt8 := bs.dropWhile isBlank

def literal : List UInt8 → List UInt8 → Except Fault (List UInt8)
  | [], bs => .ok bs
  | _ :: _, [] => .error .truncated
  | e :: es, b :: bs => if b = e then literal es bs else .error .malformed

def colon (bs : List UInt8) : Except Fault (List UInt8) :=
  literal [Ascii.colon] (skipBlank bs)

/-! ### Numbers -/

def isDigit (b : UInt8) : Bool := 0x30 ≤ b && b ≤ 0x39

def digitOf (b : UInt8) : Nat := b.toNat - 0x30

def digits (bs : List UInt8) : List Nat × List UInt8 :=
  ((bs.takeWhile isDigit).map digitOf, bs.dropWhile isDigit)

def someDigits (bs : List UInt8) : Except Fault (List Nat × List UInt8) :=
  match bs with
  | [] => .error .truncated
  | b :: _ => if isDigit b then .ok (digits bs) else .error .malformed

def wholePart (bs : List UInt8) : Except Fault (List Nat × List UInt8) := do
  let (ds, rest) ← someDigits bs
  if ds.head? = some 0 ∧ ds.length ≠ 1 then .error .malformed else .ok (ds, rest)

def fractionPart (bs : List UInt8) : Except Fault (Option (List Nat) × List UInt8) :=
  match bs with
  | b :: rest =>
    if b = Ascii.point then do
      let (ds, rest) ← someDigits rest
      .ok (some ds, rest)
    else .ok (none, bs)
  | [] => .ok (none, [])

def exponentPart (bs : List UInt8) : Except Fault (Option Int × List UInt8) :=
  match bs with
  | b :: rest =>
    if b = 0x65 ∨ b = 0x45 then do
      let negative := rest.head? = some Ascii.minus
      let (ds, rest) ← someDigits
        (if negative ∨ rest.head? = some Ascii.plus then rest.drop 1 else rest)
      let n := Int.ofNat (ofDigits ds)
      .ok (some (if negative then -n else n), rest)
    else .ok (none, bs)
  | [] => .ok (none, [])

def numeral (bs : List UInt8) : Except Fault (Numeral × List UInt8) := do
  let negative := bs.head? = some Ascii.minus
  let (whole, rest) ← wholePart (if negative then bs.drop 1 else bs)
  let (fraction, rest) ← fractionPart rest
  let (exponent, rest) ← exponentPart rest
  .ok (⟨negative, whole, fraction, exponent⟩, rest)

def number (bs : List UInt8) : Except Fault (Numeral × List UInt8) := do
  let (x, rest) ← numeral bs
  if x.isHuge then .error .malformed else .ok (x, rest)

/-! ### Strings -/

def hexOf? (b : UInt8) : Option Nat :=
  if isDigit b then some (digitOf b)
  else if 0x61 ≤ b && b ≤ 0x66 then some (b.toNat - 0x61 + 10)
  else if 0x41 ≤ b && b ≤ 0x46 then some (b.toNat - 0x41 + 10)
  else none

def fourHex (bs : List UInt8) : Except Fault (Nat × List UInt8) :=
  match bs with
  | a :: b :: c :: d :: rest =>
    match hexOf? a, hexOf? b, hexOf? c, hexOf? d with
    | some w, some x, some y, some z => .ok (((w * 16 + x) * 16 + y) * 16 + z, rest)
    | _, _, _, _ => .error .malformed
  | _ => .error .truncated

def shortEscape? (b : UInt8) : Option UInt8 :=
  if b = Ascii.quote ∨ b = Ascii.backslash ∨ b = 0x2F then some b
  else if b = 0x62 then some 0x08
  else if b = 0x66 then some 0x0C
  else if b = 0x6E then some 0x0A
  else if b = 0x72 then some 0x0D
  else if b = 0x74 then some 0x09
  else none

def codePoint (bs : List UInt8) : Except Fault (Nat × List UInt8) := do
  let (n, rest) ← fourHex bs
  if 0xDC00 ≤ n ∧ n ≤ 0xDFFF then .error .malformed
  else if 0xD800 ≤ n ∧ n ≤ 0xDBFF then
    let rest ← literal [Ascii.backslash, 0x75] rest
    let (m, rest) ← fourHex rest
    if 0xDC00 ≤ m ∧ m ≤ 0xDFFF then
      .ok (0x10000 + (n - 0xD800) * 0x400 + (m - 0xDC00), rest)
    else .error .malformed
  else .ok (n, rest)

def escape (bs : List UInt8) : Except Fault (List UInt8 × List UInt8) :=
  match bs with
  | [] => .error .truncated
  | b :: rest =>
    if b = 0x75 then do
      let (n, rest) ← codePoint rest
      .ok (String.utf8EncodeChar (Char.ofNat n), rest)
    else
      match shortEscape? b with
      | some e => .ok ([e], rest)
      | none => .error .malformed

/-- Reads up to the closing quote. `read` holds the bytes of the string so far, last one first, and
`fuel` bounds the characters to come. -/
def stringBytes : Nat → List UInt8 → List UInt8 → Except Fault (List UInt8 × List UInt8)
  | _, _, [] => .error .truncated
  | 0, _, _ => .error .malformed
  | fuel + 1, read, b :: bs =>
    if b = Ascii.quote then .ok (read.reverse, bs)
    else if b = Ascii.backslash then
      match escape bs with
      | .ok (es, rest) => stringBytes fuel (es.reverse ++ read) rest
      | .error f => .error f
    else if b < 0x20 then .error .malformed
    else stringBytes fuel (b :: read) bs

def string (bs : List UInt8) : Except Fault (String × List UInt8) := do
  let (read, rest) ← stringBytes bs.length [] bs
  match Text.ofUtf8? read with
  | some s => .ok (s, rest)
  | none => .error .malformed

/-! ### Lists and objects -/

inductive Next where
  /-- It is closed; the bytes after it. -/
  | closed (rest : List UInt8)
  /-- There is one more element; the bytes that hold it. -/
  | more (rest : List UInt8)
  deriving DecidableEq, Repr

def nextItem (first : Bool) (bs : List UInt8) : Except Fault Next :=
  match skipBlank bs with
  | [] => .error .truncated
  | b :: rest =>
    if b = Ascii.closeList then .ok (.closed rest)
    else if first then .ok (.more (b :: rest))
    else if b = Ascii.comma then
      match skipBlank rest with
      | [] => .error .truncated
      | c :: rest =>
        if c = Ascii.closeList then .error .malformed else .ok (.more (c :: rest))
    else .error .malformed

def openKey (bs : List UInt8) : Except Fault Next := do
  let rest ← literal [Ascii.quote] (skipBlank bs)
  .ok (.more rest)

def nextKey (first : Bool) (bs : List UInt8) : Except Fault Next :=
  match skipBlank bs with
  | [] => .error .truncated
  | b :: rest =>
    if b = Ascii.closeObject then .ok (.closed rest)
    else if first then openKey (b :: rest)
    else if b = Ascii.comma then openKey rest
    else .error .malformed

end AckRelay.Json
