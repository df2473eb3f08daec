import AckRelay.Host.Notification

namespace AckRelay

inductive NotifyError where
  | io (reason : String)
  | frameTooLarge (size : Nat)
  deriving DecidableEq, Repr

namespace NotifyError

def message : NotifyError → String
  | .io _ => "failed to write notification to host"
  | .frameTooLarge size => s!"notification of {size} bytes exceeds the frame size limit"

def causes : NotifyError → List String
  | .io reason => [reason]
  | .frameTooLarge _ => []

end NotifyError

def hostWentAway : String := "host went away"

/-- The way to the host. A call ends when the host has the notification. -/
class Notifier (ν : Type) where
  emit : Notification → EStateM NotifyError ν Unit

inductive Host where
  | listening
  | away
  deriving DecidableEq, Repr

instance : Notifier Host where
  emit _
    | .listening => .ok () .listening
    | .away => .error (.io hostWentAway) .away

structure Transcript (ν : Type) where
  through : ν
  /-- The notifications that reached the host, last one first. -/
  log : List Notification := []
  deriving Repr

namespace Transcript

def sent {ν : Type} (t : Transcript ν) : List Notification := t.log.reverse

def count {ν : Type} (t : Transcript ν) (kind : Notification.Kind) : Nat :=
  t.log.countP (fun n => n.kind = kind)

def records {ν : Type} (t : Transcript ν) : List Position :=
  t.sent.filterMap fun
    | .record r => some r.position
    | _ => none

end Transcript

instance {ν : Type} [Notifier ν] : Notifier (Transcript ν) where
  emit n t :=
    match Notifier.emit n t.through with
    | .ok () w => .ok () { through := w, log := n :: t.log }
    | .error e w => .error e { t with through := w }

end AckRelay
