import AckRelay.Text.Binary64
import AckRelay.Text.Blank

namespace AckRelay

namespace ClientProperty

structure Choice where
  name : String
  missing : Option String := none
  deriving DecidableEq, Repr

inductive TextRule where
  | any
  | single
  | version
  | among (names : List String)
  deriving DecidableEq, Repr

inductive Domain where
  | flag
  | number (least greatest : Int) (names : List (String × Int))
  | decimal (least greatest : Int)
  | choice (choices : List Choice)
  | selection (choices : List Choice)
  | text (rule : TextRule)
  | callback
  | hidden
  deriving DecidableEq, Repr

inductive Fault where
  | unknown
  | missing (reason : String)
  | missingChoice (value reason : String)
  | empty (kind : String)
  | noFlag
  | noNumber
  | outside (value : String) (least greatest : Int)
  | noChoice (value : String)
  /-- A text against the rule; the empty one counts as none at all. -/
  | unfit (value : Option String)
  | callback
  | hidden
  deriving DecidableEq, Repr

def Fault.message (name : String) : Fault → String
  | .unknown => s!"No such configuration property: \"{name}\""
  | .missing reason =>
    s!"Configuration property \"{name}\" not supported in this build: {reason}"
  | .missingChoice value reason =>
    s!"Unsupported value \"{value}\" for configuration property \"{name}\": {reason}"
  | .empty kind => s!"{kind} property \"{name}\" cannot be set to empty value"
  | .noFlag => s!"Expected bool value for \"{name}\": true or false"
  | .noNumber => s!"Invalid value for configuration property \"{name}\""
  | .outside value least greatest =>
    s!"Configuration property \"{name}\" value {value} is outside allowed range " ++
      s!"{least}..{greatest}\n"
  | .noChoice value => s!"Invalid value \"{value}\" for configuration property \"{name}\""
  | .unfit value =>
    s!"Invalid value for configuration property \"{name}\": " ++ value.getD "(null)"
  | .callback => s!"Property \"{name}\" must be set through dedicated .._set_..() function"
  | .hidden => s!"Internal property \"{name}\" not settable"

def flagNames : List String := ["true", "t", "1", "false", "f", "0"]

def boundFault? (least greatest n : Int) : Option Fault :=
  if least ≤ n ∧ n ≤ greatest then none else some (.outside (toString n) least greatest)

/-- What is wrong with a choice, if anything is. Small and capital letters count as the same. -/
def choiceFault? (choices : List Choice) (value : String) : Option Fault :=
  match choices.find? (fun c => c.name = value.toLower) with
  | some c => c.missing.map (.missingChoice value)
  | none => some (.noChoice value)

def trimFront (s : String) : List Char := s.toList.dropWhile Text.isAsciiBlank

/-- What is wrong with a part of a selection; a blank one selects nothing. -/
def partFault? (choices : List Choice) (part : List Char) : Option Fault :=
  match (Text.takeSign (part.dropWhile Text.isAsciiBlank)).2 with
  | [] => none
  | cs => choiceFault? choices (String.ofList cs)

def TextRule.admits (value : String) : TextRule → Bool
  | .any => true
  | .single => value.toList.all fun c => c ≠ ',' && c ≠ ' '
  | .version => ["0.7.", "0.6."].all fun v => !v.toList.isPrefixOf value.toList
  | .among names => names.contains value

def Domain.fault? (value : String) : Domain → Option Fault
  | .flag =>
    if value.isEmpty then some (.empty "Bool configuration")
    else if flagNames.contains value.toLower then none
    else some .noFlag
  | .number least greatest names =>
    if value.isEmpty then some (.empty "Integer configuration")
    else
      match Text.leadingInteger? value.toList, names.lookup value.toLower with
      | some n, _ => boundFault? least greatest (Text.toWord n)
      | none, some n => boundFault? least greatest n
      | none, none => some .noNumber
  | .decimal least greatest =>
    if value.isEmpty then some (.empty "Float configuration")
    else
      match Text.Binary64.leading? value.toList with
      | some x =>
        if x.isBelow least || x.isAbove greatest then some (.outside x.text least greatest)
        else none
      | none => some .noNumber
  | .choice choices =>
    if value.isEmpty then some (.empty "Configuration")
    else
      match trimFront value with
      | [] => none
      | cs => choiceFault? choices (String.ofList cs)
  | .selection choices =>
    if value.isEmpty then some (.empty "Configuration")
    else (Text.pieces value.toList).findSome? (partFault? choices)
  | .text .any => none
  | .text rule =>
    if value.isEmpty then some (.unfit none)
    else
      let trimmed := String.ofList (trimFront value)
      if rule.admits trimmed then none else some (.unfit (some trimmed))
  | .callback => some .callback
  | .hidden => some .hidden

end ClientProperty

structure ClientProperty where
  name : String
  domain : ClientProperty.Domain
  missing : Option String := none
  deriving DecidableEq, Repr

def ClientProperty.fault? (value : String) (p : ClientProperty) : Option Fault :=
  match p.missing with
  | some reason => some (.missing reason)
  | none => p.domain.fault? value

end AckRelay
