import AckRelay.Text.Blank
import AckRelay.Text.Quoted

namespace AckRelay

abbrev Properties := List (String × String)

structure PropertyFault where
  pair : String
  deriving DecidableEq, Repr

def PropertyFault.message (f : PropertyFault) : String :=
  "invalid consumer property " ++ Text.quoted f.pair ++ ", expected key=value"

namespace Properties

def pair (cs : List Char) : Except PropertyFault (String × String) :=
  let key := Text.trim (cs.takeWhile (· ≠ '='))
  match cs.dropWhile (· ≠ '=') with
  | [] => .error ⟨String.ofList cs⟩
  | _ :: value =>
    if key = [] then .error ⟨String.ofList cs⟩
    else .ok (String.ofList key, String.ofList (Text.trim value))

def parse (s : String) : Except PropertyFault Properties :=
  (Text.items s).mapM pair

end Properties

end AckRelay
