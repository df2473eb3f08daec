import AckRelay.Config.ClientSettings
import AckRelay.Config.Environment
import AckRelay.Config.Topics
import AckRelay.Relay.Loop

namespace AckRelay

structure Settings where
  bindHost : String
  bindPort : Nat
  exportsMetrics : Bool
  kafka : KafkaSettings
  /-- The group as it is given; an empty one counts as none. -/
  givenGroup : Option String
  topics : List String
  /-- Times in milliseconds. -/
  pollInterval : Nat
  commitInterval : Nat
  operationTimeout : Nat
  maxPollRecords : Nat
  maxCommandBytes : Nat
  thresholds : Thresholds
  deriving DecidableEq, Repr

def Setting.properties (s : String) : Option Properties := (Properties.parse s).toOption

namespace KafkaSettings

def load (env : Environment) : Except LoadError KafkaSettings := do
  let hosts ← env.orDefault "KAFKA_HOSTS" Setting.text "localhost:9092"
  let tls ← env.orDefault "KAFKA_TLS" Setting.bool false
  let clientId ← env.optional "KAFKA_CLIENT_ID" Setting.text
  let offsetReset ← env.orDefault "KAFKA_CONSUMER_OFFSET_RESET" Setting.text "earliest"
  let properties ← env.optional "KAFKA_CONSUMER_PROPERTIES" Setting.properties
  return { hosts, tls, clientId, offsetReset, properties }

end KafkaSettings

namespace Thresholds

def load (env : Environment) : Except LoadError Thresholds := do
  let standard : Thresholds := {}
  let pauseMinMessages ←
    env.orDefault "BACKPRESSURE_PAUSE_MIN_MESSAGES" Setting.count standard.pauseMinMessages
  let pauseBytes ← env.orDefault "BACKPRESSURE_PAUSE_BYTES" Setting.count standard.pauseBytes
  let pauseMessages ←
    env.orDefault "BACKPRESSURE_PAUSE_MESSAGES" Setting.count standard.pauseMessages
  let resumeBytes ← env.orDefault "BACKPRESSURE_RESUME_BYTES" Setting.count standard.resumeBytes
  let resumeMessages ←
    env.orDefault "BACKPRESSURE_RESUME_MESSAGES" Setting.count standard.resumeMessages
  return { pauseMinMessages, pauseBytes, pauseMessages, resumeBytes, resumeMessages }

end Thresholds

namespace Settings

def load (env : Environment) : Except LoadError Settings := do
  let bindHost ← env.orDefault "BIND_HOST" Setting.text "0.0.0.0"
  let bindPort ← env.orDefault "BIND_PORT" Setting.bindPort 8080
  let exportsMetrics ← env.orDefault "EXPORT_PROMETHEUS" Setting.bool false
  let kafka ← KafkaSettings.load env
  let givenGroup ← env.optional "KAFKA_CONSUMER_GROUP" Setting.text
  let topics ← env.required "KAFKA_CONSUMER_TOPICS" Topics.parse?
  let pollInterval ← env.orDefault "POLL_INTERVAL_MS" Setting.count 10
  let commitInterval ← env.orDefault "COMMIT_INTERVAL_MS" Setting.count 5000
  let operationTimeout ← env.orDefault "KAFKA_OPERATION_TIMEOUT_MS" Setting.count 10000
  let maxPollRecords ← env.orDefault "MAX_POLL_RECORDS" Setting.count 500
  let maxCommandBytes ← env.orDefault "MAX_COMMAND_FRAME_BYTES" Setting.count 8388608
  let thresholds ← Thresholds.load env
  return {
    bindHost, bindPort, exportsMetrics, kafka, givenGroup, topics, pollInterval,
    commitInterval, operationTimeout, maxPollRecords, maxCommandBytes, thresholds }

def variableNames : List String :=
  ["BIND_HOST", "BIND_PORT", "EXPORT_PROMETHEUS", "KAFKA_HOSTS", "KAFKA_TLS", "KAFKA_CLIENT_ID",
    "KAFKA_CONSUMER_OFFSET_RESET", "KAFKA_CONSUMER_PROPERTIES", "KAFKA_CONSUMER_GROUP",
    "KAFKA_CONSUMER_TOPICS", "POLL_INTERVAL_MS", "COMMIT_INTERVAL_MS", "KAFKA_OPERATION_TIMEOUT_MS",
    "MAX_POLL_RECORDS", "MAX_COMMAND_FRAME_BYTES", "BACKPRESSURE_PAUSE_MIN_MESSAGES",
    "BACKPRESSURE_PAUSE_BYTES", "BACKPRESSURE_PAUSE_MESSAGES", "BACKPRESSURE_RESUME_BYTES",
    "BACKPRESSURE_RESUME_MESSAGES"]

def bindAddress (s : Settings) : String := s!"{s.bindHost}:{s.bindPort}"

def group (s : Settings) : Option String := s.givenGroup.filter (· ≠ "")

def clientSettings (s : Settings) : ClientSettings := .ofKafka s.kafka s.group

def relaySettings (s : Settings) : RelaySettings where
  topics := s.topics
  group := s.group
  pollTimeout := s.pollInterval
  commitInterval := s.commitInterval
  thresholds := s.thresholds

end Settings

end AckRelay
