import AckRelay.Broker.ClientProperty.Table
import AckRelay.Broker.Error
import AckRelay.Text.Utf8

/-!
How properties have to agree with one another before a client is made with them. First each value is
looked at on its own, in the order in which the properties are set.
-/

namespace AckRelay.ClientProperty

def value? (settings : List (String × String)) (name : String) : Option String :=
  (settings.reverse.find? fun s => resolve s.1 = name).map (·.2)

def number (settings : List (String × String)) (name : String) (default : Int) : Int :=
  (((value? settings name).bind fun v => Text.leadingInteger? v.toList).map Text.toWord).getD
    default

/-- The text that a property has, or else its default; the empty text is none. -/
def text? (settings : List (String × String)) (name : String) (default : Option String) :
    Option String :=
  match value? settings name with
  | none => default
  | some value => if value.isEmpty then default else some (String.ofList (trimFront value))

def chosen (settings : List (String × String)) (name default : String) : String :=
  match (value? settings name).map trimFront with
  | none | some [] => default
  | some cs => (String.ofList cs).toLower

def keyStoreFault? (settings : List (String × String)) : Option String :=
  if (text? settings "ssl.keystore.location" none).isSome &&
      (text? settings "ssl.keystore.password" none).isNone then
    some "`ssl.keystore.password` is mandatory when `ssl.keystore.location` is set"
  else none

def fetchLimit (settings : List (String × String)) : Int :=
  match value? settings "fetch.max.bytes" with
  | some _ => number settings "fetch.max.bytes" 52428800
  | none =>
    max (min 52428800 (number settings "queued.max.messages.kbytes" 65536 * 1024))
      (number settings "message.max.bytes" 1000000)

def fetchFault? (settings : List (String × String)) : Option String :=
  if fetchLimit settings < number settings "message.max.bytes" 1000000 then
    some "`fetch.max.bytes` must be >= `message.max.bytes`"
  else none

def receiveFault? (settings : List (String × String)) : Option String :=
  match value? settings "receive.message.max.bytes" with
  | some _ =>
    if number settings "receive.message.max.bytes" 100000000 < fetchLimit settings + 512 then
      some "`receive.message.max.bytes` must be >= `fetch.max.bytes` + 512"
    else none
  | none => none

def ledByBroker : List (String × String) :=
  [("session.timeout.ms", ". It is defined broker side"),
    ("partition.assignment.strategy", ". Use `group.remote.assignor` instead"),
    ("group.protocol.type", ""), ("heartbeat.interval.ms", ". It is defined broker side")]

def groupFault? (settings : List (String × String)) : Option String :=
  if chosen settings "group.protocol" "classic" = "classic" then
    if number settings "max.poll.interval.ms" 300000 <
        number settings "session.timeout.ms" 45000 then
      some "`max.poll.interval.ms`must be >= `session.timeout.ms`"
    else none
  else
    (ledByBroker.find? fun p => (value? settings p.1).isSome).map fun (name, advice) =>
      s!"`{name}` is not supported for `group.protocol=consumer`{advice}"

def reconnectFault? (settings : List (String × String)) : Option String :=
  if number settings "reconnect.backoff.max.ms" 10000 <
      number settings "reconnect.backoff.ms" 100 then
    some "`reconnect.backoff.max.ms` must be >= `reconnect.max.ms`"
  else none

def strategies : List String := ["range", "roundrobin", "cooperative-sticky"]

/-- Only known strategies can be asked for. Blanks and commas in front of one do not count. -/
def strategyFault? (settings : List (String × String)) : Option String :=
  match text? settings "partition.assignment.strategy" none with
  | none => none
  | some value =>
    let wanted := (Text.pieces value.toList).map (·.dropWhile (· = ' '))
    ((wanted.map String.ofList).find? fun s => !s.isEmpty && !strategies.contains s).map
      ("Unsupported partition.assignment.strategy: " ++ ·)

def passwordFault? (settings : List (String × String)) : Option String :=
  if (text? settings "sasl.username" none).isSome &&
      (text? settings "sasl.password" none).isSome then none
  else some "sasl.username and sasl.password must be set"

def mechanismFault? (settings : List (String × String)) (mechanism : String) : Option String :=
  if mechanism = "GSSAPI" then
    some (s!"No provider for SASL mechanism {mechanism}: recompile librdkafka with libsasl2 or " ++
      "openssl support. Current build options: PLAIN SASL_SCRAM OAUTHBEARER")
  else if mechanism = "PLAIN" then passwordFault? settings
  else if "SCRAM-SHA-".toList.isPrefixOf mechanism.toList then
    (passwordFault? settings).or
      (if ["SCRAM-SHA-1", "SCRAM-SHA-256", "SCRAM-SHA-512"].contains mechanism then none
        else some s!"Unsupported hash function: {mechanism} (try SCRAM-SHA-512)")
  else if mechanism = "OAUTHBEARER" then none
  else some s!"Unsupported SASL mechanism: {mechanism}"

def loginFault? (settings : List (String × String)) : Option String :=
  if ["sasl_plaintext", "sasl_ssl"].contains (chosen settings "security.protocol" "plaintext") then
    mechanismFault? settings ((text? settings "sasl.mechanisms" none).getD "GSSAPI")
  else none

def queueFault? (settings : List (String × String)) : Option String :=
  if (text? settings "group.id" none).getD "" = "" then
    some "rdkafka consumer queue not available"
  else none

def rules : List (List (String × String) → Option String) :=
  [keyStoreFault?, fetchFault?, receiveFault?, groupFault?, reconnectFault?, strategyFault?,
    loginFault?, queueFault?]

def descriptionLimit : Nat := 511

/-- A description as far as the client keeps it; a character that is cut counts as broken. -/
def clip (description : String) : String :=
  Text.lossy ((Text.toUtf8 description).take descriptionLimit)

def clientFault? (settings : List (String × String)) : Option ClientError :=
  match settings.findSome? fun s => (refusal? s.1 s.2).map ((s, ·)) with
  | some ((name, value), description) => some (.config (clip description) name value)
  | none => (rules.findSome? (· settings)).map fun reason => .creation (clip reason)

def check (settings : List (String × String)) : Except BrokerError Unit :=
  match clientFault? settings with
  | some e => .error (.client "create_consumer" e)
  | none => .ok ()

end AckRelay.ClientProperty
