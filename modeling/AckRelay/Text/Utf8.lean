namespace AckRelay.Text

def ofUtf8? (bs : List UInt8) : Option String :=
  String.fromUTF8? bs.toByteArray

def toUtf8 (s : String) : List UInt8 :=
  s.toUTF8.data.toList

def isContinuation (b : UInt8) : Bool := 0x80 ≤ b && b ≤ 0xBF

def isSecondOf (a b : UInt8) : Bool :=
  if a = 0xE0 then 0xA0 ≤ b && b ≤ 0xBF
  else if a = 0xED then 0x80 ≤ b && b ≤ 0x9F
  else if a = 0xF0 then 0x90 ≤ b && b ≤ 0xBF
  else if a = 0xF4 then 0x80 ≤ b && b ≤ 0x8F
  else isContinuation b

def brokenLength : List UInt8 → Nat
  | a :: b :: rest =>
    if 0xE0 ≤ a && a ≤ 0xEF then
      if isSecondOf a b then 2 else 1
    else if 0xF0 ≤ a && a ≤ 0xF4 then
      if isSecondOf a b then
        match rest with
        | c :: _ => if isContinuation c then 3 else 2
        | [] => 2
      else 1
    else 1
  | _ => 1

def firstChar? (bs : List UInt8) : Option Char :=
  (bs.take 4).toByteArray.utf8DecodeChar? 0

/-- The characters, with U+FFFD for every part that is none; `fuel` bounds their number. -/
def lossyChars : Nat → List UInt8 → List Char
  | 0, _ => []
  | _, [] => []
  | fuel + 1, b :: bs =>
    match firstChar? (b :: bs) with
    | some c => c :: lossyChars fuel ((b :: bs).drop c.utf8Size)
    | none => '\uFFFD' :: lossyChars fuel ((b :: bs).drop (brokenLength (b :: bs)))

def lossy (bs : List UInt8) : String :=
  String.ofList (lossyChars bs.length bs)

end AckRelay.Text
