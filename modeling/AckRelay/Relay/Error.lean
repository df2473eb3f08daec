import AckRelay.Broker.Error
import AckRelay.Host.Notifier

namespace AckRelay

/-- Why the relay stops. None of these is recovered from. -/
inductive RelayError where
  | protocolViolation (partition : Partition)
  | broker (source : BrokerError)
  | unknownCommand (raw : String)
  | notify (source : NotifyError)
  deriving DecidableEq, Repr

namespace RelayError

inductive Kind where
  | protocolViolation
  | broker
  | unknownCommand
  | notify
  deriving DecidableEq, Repr

def Kind.all : List Kind := [.protocolViolation, .broker, .unknownCommand, .notify]

def Kind.name : Kind → String
  | .protocolViolation => "protocol_violation"
  | .broker => "broker"
  | .unknownCommand => "unknown_command"
  | .notify => "notify"

def kind : RelayError → Kind
  | .protocolViolation _ => .protocolViolation
  | .broker _ => .broker
  | .unknownCommand _ => .unknownCommand
  | .notify _ => .notify

def message : RelayError → String
  | .protocolViolation p =>
    s!"protocol violation: acknowledgement for {p.display} with no pending records"
  | .broker _ => "broker communication failed"
  | .unknownCommand raw => s!"unknown command: {raw}"
  | .notify _ => "failed to notify host"

def causes : RelayError → List String
  | .broker source => source.message :: source.causes
  | .notify source => source.message :: source.causes
  | .protocolViolation _ | .unknownCommand _ => []

end RelayError

inductive Halt where
  | failed (e : RelayError)
  /-- A sum left its word. The program dies of that, and there is no error to report. -/
  | crashed
  deriving DecidableEq, Repr

end AckRelay
