import AckRelay.Text.Decimal

namespace AckRelay

abbrev Environment := String → Option String

inductive LoadError where
  | missing (name : String)
  | unreadable (name : String)
  deriving DecidableEq, Repr

def LoadError.message : LoadError → String
  | .missing name => s!"Environment variable {name} is missing"
  | .unreadable name => s!"Failed to parse environment variable {name}"

namespace Environment

variable {α : Type}

def optional (env : Environment) (name : String) (read : String → Option α) :
    Except LoadError (Option α) :=
  match env name with
  | none => .ok none
  | some text =>
    match read text with
    | some a => .ok (some a)
    | none => .error (.unreadable name)

def required (env : Environment) (name : String) (read : String → Option α) :
    Except LoadError α := do
  match ← env.optional name read with
  | some a => .ok a
  | none => .error (.missing name)

def orDefault (env : Environment) (name : String) (read : String → Option α) (default : α) :
    Except LoadError α := do
  return (← env.optional name read).getD default

end Environment

namespace Setting

def text (s : String) : Option String := some s

def bool (s : String) : Option Bool :=
  if s = "true" then some true else if s = "false" then some false else none

def bindPort (s : String) : Option Nat := Text.readNat? (UInt16.size - 1) s

def count (s : String) : Option Nat := Text.readNat? (UInt64.size - 1) s

end Setting

end AckRelay
