namespace AckRelay

inductive ClientCode where
  | unknownTopicOrPartition
  | operationTimedOut
  | brokerTransportFailure
  | illegalGeneration
  | unknownPartition
  | noOffset
  | topicAuthorizationFailed
  | offsetMetadataTooLarge
  deriving DecidableEq, Repr

namespace ClientCode

def all : List ClientCode :=
  [.unknownTopicOrPartition, .operationTimedOut, .brokerTransportFailure, .illegalGeneration,
    .unknownPartition, .noOffset, .topicAuthorizationFailed, .offsetMetadataTooLarge]

def name : ClientCode → String
  | .unknownTopicOrPartition => "UnknownTopicOrPartition"
  | .operationTimedOut => "OperationTimedOut"
  | .brokerTransportFailure => "BrokerTransportFailure"
  | .illegalGeneration => "IllegalGeneration"
  | .unknownPartition => "UnknownPartition"
  | .noOffset => "NoOffset"
  | .topicAuthorizationFailed => "TopicAuthorizationFailed"
  | .offsetMetadataTooLarge => "OffsetMetadataTooLarge"

def description : ClientCode → String
  | .unknownTopicOrPartition => "Broker: Unknown topic or partition"
  | .operationTimedOut => "Local: Timed out"
  | .brokerTransportFailure => "Local: Broker transport failure"
  | .illegalGeneration => "Broker: Specified group generation id is not valid"
  | .unknownPartition => "Local: Unknown partition"
  | .noOffset => "Local: No offset stored"
  | .topicAuthorizationFailed => "Broker: Topic authorization failed"
  | .offsetMetadataTooLarge => "Broker: Offset metadata string too large"

def message (c : ClientCode) : String := s!"{c.name} ({c.description})"

def ofName? (s : String) : Option ClientCode := all.find? (fun c => c.name = s)

end ClientCode

inductive ClientError where
  | consumerCommit (code : ClientCode)
  | metadataFetch (code : ClientCode)
  | messageConsumption (code : ClientCode)
  | subscription (reason : String)
  | canceled
  | config (description key value : String)
  | creation (reason : String)
  deriving DecidableEq, Repr

namespace ClientError

def message : ClientError → String
  | .consumerCommit c => s!"Consumer commit error: {c.message}"
  | .metadataFetch c => s!"Meta data fetch error: {c.message}"
  | .messageConsumption c => s!"Message consumption error: {c.message}"
  | .subscription reason => s!"Subscription error: {reason}"
  | .canceled => "KafkaError (Client dropped)"
  | .config description key value => s!"Client config error: {description} {key} {value}"
  | .creation reason => s!"Client creation error: {reason}"

def causes : ClientError → List String
  | .consumerCommit c | .metadataFetch c | .messageConsumption c => [c.message]
  | .subscription _ | .canceled | .config _ _ _ | .creation _ => []

end ClientError

inductive Operation where
  | subscribe
  | partitionsFor
  | assign
  | endOffsets
  | assignment
  | pause
  | resume
  | commit
  | committed
  | poll
  | close
  deriving DecidableEq, Repr

namespace Operation

def all : List Operation :=
  [.subscribe, .partitionsFor, .assign, .endOffsets, .assignment, .pause, .resume, .commit,
    .committed, .poll, .close]

def name : Operation → String
  | .subscribe => "subscribe"
  | .partitionsFor => "partitions_for"
  | .assign => "assign"
  | .endOffsets => "end_offsets"
  | .assignment => "assignment"
  | .pause => "pause"
  | .resume => "resume"
  | .commit => "commit"
  | .committed => "committed"
  | .poll => "poll"
  | .close => "close"

def ofName? (s : String) : Option Operation := all.find? (fun o => o.name = s)

end Operation

/-- An error of the broker. None of them is retried. -/
inductive BrokerError where
  /-- The client failed; the tag tells at what. -/
  | client (operation : String) (source : ClientError)
  | unknownTopic (topic : String)
  | rejected (operation : String) (reason : String)
  deriving DecidableEq, Repr

namespace BrokerError

def operation : BrokerError → String
  | .client operation _ => operation
  | .unknownTopic _ => Operation.partitionsFor.name
  | .rejected operation _ => operation

def message : BrokerError → String
  | .client operation source => s!"kafka error during {operation}: {source.message}"
  | .unknownTopic topic => s!"no partition metadata found for topic {topic}"
  | .rejected operation reason => s!"broker rejected {operation}: {reason}"

def causes : BrokerError → List String
  | .client _ source => source.message :: source.causes
  | .unknownTopic _ | .rejected _ _ => []

end BrokerError

end AckRelay
