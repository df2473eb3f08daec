import AckRelay.Text.Blank

namespace AckRelay

structure Failure where
  context : String
  causes : List String
  deriving DecidableEq, Repr

namespace Failure

def indent (width : Nat) (text : String) : List Char :=
  text.toList.flatMap fun c => if c = '\n' then '\n' :: List.replicate width ' ' else [c]

def label (n : Nat) : List Char :=
  let digits := (toString n).toList
  List.replicate (5 - digits.length) ' ' ++ digits ++ [':', ' ']

def causeLines : List String → List (List Char)
  | [] => []
  | [cause] => [List.replicate 4 ' ' ++ indent 4 cause]
  | causes => causes.mapIdx fun i cause => label i ++ indent 7 cause

def report (f : Failure) : String :=
  let below :=
    if f.causes = [] then []
    else "\n\nCaused by:".toList ++ (causeLines f.causes).flatMap ('\n' :: ·)
  String.ofList (Text.trimRight (f.context.toList ++ below))

end Failure

end AckRelay
