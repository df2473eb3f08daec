import AckRelay.Broker.ClientProperty.Agreement
import AckRelay.Broker.Consumer
import AckRelay.Config.Settings
import AckRelay.Config.SocketAddress
import AckRelay.Host.FrameWriter
import AckRelay.Host.Intake
import AckRelay.Session.Failure

/-!
A session: the program from its environment to its end. The host sends frames and may close its
side; that and a signal mean to stop.
-/

namespace AckRelay

inductive Arrival where
  | bytes (chunk : List UInt8)
  | endOfInput
  | signal
  deriving DecidableEq, Repr

structure Session (κ : Type) where
  relay : Relay (Consumer κ) FrameWriter
  ending : Ending := .running
  intake : Option Intake

namespace Session

variable {κ : Type}

def configure (env : Environment) : Except Failure Settings :=
  match Settings.load env with
  | .ok settings => .ok settings
  | .error e => .error ⟨"Failed to load configuration from environment variables", [e.message]⟩

def checkAddress (settings : Settings) : Except Failure Unit :=
  if settings.exportsMetrics && !SocketAddress.isValid settings.bindAddress then
    .error ⟨"Invalid metrics bind address", ["invalid socket address syntax"]⟩
  else .ok ()

def createConsumer (settings : Settings) (client : κ) : Except Failure (Consumer κ) :=
  match ClientProperty.check settings.clientSettings.entries.reverse with
  | .ok () => .ok (.create client settings.operationTimeout settings.maxPollRecords)
  | .error e => .error ⟨"Failed to create Kafka consumer", e.message :: e.causes⟩

variable [GroupClient κ]

def begin (env : Environment) (client : κ) : Except Failure (Session κ) := do
  let settings ← configure env
  checkAddress settings
  let consumer ← createConsumer settings client
  let (ending, relay) := Relay.run [] (.create settings.relaySettings consumer {} 0)
  return { relay, ending, intake := some { limit := settings.maxCommandBytes } }

def commandsOf : Arrival → Option Intake → List Command × Option Intake
  | .signal, intake => ([.stop], intake)
  | _, none => ([], none)
  | .endOfInput, some intake => ([intake.finish], none)
  | .bytes chunk, some intake =>
    match intake.feed chunk with
    | (commands, some fault, _) => (commands ++ [Intake.refusal fault], none)
    | (commands, none, intake) => (commands, some intake)

def receive (arrival : Arrival) (s : Session κ) : Session κ :=
  let (commands, intake) := commandsOf arrival s.intake
  { s with intake, relay := s.relay.await { arrivals := commands } }

def step (elapsed : Nat) (s : Session κ) : Session κ :=
  match s.ending with
  | .running =>
    let (ending, relay) := Relay.resume [{ elapsed }] s.relay
    { s with ending, relay }
  | .stopped | .failed _ | .crashed => s

def isRunning (s : Session κ) : Bool := s.ending = .running

def output (s : Session κ) : List UInt8 := s.relay.desk.notifier.sink.contents

def failure? (s : Session κ) : Option Failure :=
  match s.ending with
  | .failed e => some ⟨"Poller stopped with an error", e.message :: e.causes⟩
  | .stopped | .crashed | .running => none

def takeOutput (s : Session κ) : List UInt8 × Session κ :=
  let writer := s.relay.desk.notifier
  let desk := { s.relay.desk with notifier := { writer with sink.written := [] } }
  (writer.sink.contents, { s with relay := { s.relay with desk } })

end Session

end AckRelay
