import AckRelay.Text.Blank

namespace AckRelay.Topics

def parse? (s : String) : Option (List String) :=
  match Text.items s with
  | [] => none
  | topics => some (topics.map String.ofList)

end AckRelay.Topics
