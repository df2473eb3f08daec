import AckRelay.Config.Properties

namespace AckRelay

/-- The values of properties. No key occurs twice. -/
structure ClientSettings where
  entries : List (String × String) := []
  deriving DecidableEq, Repr

structure KafkaSettings where
  hosts : String
  tls : Bool := false
  clientId : Option String := none
  offsetReset : String
  properties : Option Properties := none
  deriving DecidableEq, Repr

namespace ClientSettings

/-- The group of an anonymous consumer. The client wants one, but it never joins it. -/
def anonymousGroup : String := "kafka-poller-anonymous"

def set (c : ClientSettings) (key value : String) : ClientSettings :=
  ⟨(key, value) :: c.entries.filter (fun e => e.1 ≠ key)⟩

def get? (c : ClientSettings) (key : String) : Option String := c.entries.lookup key

def setAll (c : ClientSettings) (properties : Properties) : ClientSettings :=
  properties.foldl (fun c p => c.set p.1 p.2) c

def base (hosts group : String) : ClientSettings :=
  setAll {} [("bootstrap.servers", hosts), ("group.id", group),
    ("enable.auto.offset.store", "false"), ("enable.auto.commit", "false"),
    ("socket.timeout.ms", "10000")]

def grouped (hosts group : String) : ClientSettings :=
  (base hosts group).setAll [("session.timeout.ms", "60000"), ("heartbeat.interval.ms", "5000"),
    ("max.poll.interval.ms", "300000")]

def anonymous (hosts : String) : ClientSettings := base hosts anonymousGroup

/-- Turns encryption on. The certificates of the brokers are not verified. -/
def withTls (enabled : Bool) (c : ClientSettings) : ClientSettings :=
  if enabled then
    c.setAll [("security.protocol", "ssl"), ("enable.ssl.certificate.verification", "false")]
  else c

def withOffsetReset (policy : String) (c : ClientSettings) : ClientSettings :=
  c.set "auto.offset.reset" policy

def withClientId (id : Option String) (c : ClientSettings) : ClientSettings :=
  match id with
  | some id => c.set "client.id" id
  | none => c

def withProperties (properties : Properties) (c : ClientSettings) : ClientSettings :=
  c.setAll properties

def plain (kafka : KafkaSettings) (group : Option String) : ClientSettings :=
  (match group with
    | some group => grouped kafka.hosts group
    | none => anonymous kafka.hosts)
  |>.withOffsetReset kafka.offsetReset
  |>.withTls kafka.tls
  |>.withClientId kafka.clientId

def ofKafka (kafka : KafkaSettings) (group : Option String) : ClientSettings :=
  (plain kafka group).withProperties (kafka.properties.getD [])

end ClientSettings

end AckRelay
