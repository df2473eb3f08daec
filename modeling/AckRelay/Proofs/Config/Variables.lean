import AckRelay.Proofs.Config.Environment
import AckRelay.Proofs.Config.Properties
import AckRelay.Proofs.Config.Topics

namespace AckRelay

inductive Variable.Kind where
  | text
  | flag
  | number (max : Nat)
  | properties
  | topics

namespace Variable.Kind

abbrev Value : Kind → Type
  | text => String
  | flag => Bool
  | number _ => Nat
  | properties => Properties
  | topics => List String

def read : (k : Kind) → String → Option k.Value
  | text => Setting.text
  | flag => Setting.bool
  | number max => Text.readNat? max
  | properties => Setting.properties
  | topics => Topics.parse?

def Accepts : Kind → String → Prop
  | text, _ => True
  | flag, s => s = "true" ∨ s = "false"
  | number max, s => ∃ n ≤ max, Text.Numeral n s
  | properties, s =>
    ∀ piece ∈ s.toList.splitOn ',', ¬Text.Blank piece → Properties.NamesKey piece
  | topics, s => ∃ piece ∈ s.toList.splitOn ',', ¬Text.Blank piece

def Says : (k : Kind) → String → k.Value → Prop
  | text, s, a => a = s
  | flag, s, a => s = if a then "true" else "false"
  | number max, s, n => Text.Numeral n s ∧ n ≤ max
  | properties, s, ps => Text.Written Properties.Spells ps s
  | topics, s, ts => ts ≠ [] ∧ Text.Written Topics.Spells ts s

variable {s : String}

theorem bool_eq_some_iff {a : Bool} :
    Setting.bool s = some a ↔ s = if a then "true" else "false" := by
  rw [Setting.bool]
  split
  · next h => cases a <;> simp [h]
  · next h => cases a <;> simp [h]

theorem properties_eq_some_iff {ps : Properties} :
    Setting.properties s = some ps ↔ Text.Written Properties.Spells ps s := by
  rw [← Properties.parse_eq_ok_iff, Setting.properties]
  cases Properties.parse s <;> simp [Except.toOption]

theorem read_eq_some_iff (k : Kind) (s : String) (a : k.Value) :
    k.read s = some a ↔ k.Says s a := by
  cases k with
  | text => exact Option.some_inj.trans eq_comm
  | flag => exact bool_eq_some_iff
  | number max => exact Text.readNat?_eq_some_iff
  | properties => exact properties_eq_some_iff
  | topics => exact Topics.parse?_eq_some_iff

theorem bool_isSome_iff : (Setting.bool s).isSome = true ↔ s = "true" ∨ s = "false" := by
  rw [Setting.bool]
  split
  · next h => simp [h]
  · next h =>
    rw [Option.isSome_ite]
    simp [h]

theorem readNat?_isSome_iff {max : Nat} :
    (Text.readNat? max s).isSome = true ↔ ∃ n ≤ max, Text.Numeral n s := by
  rw [Option.isSome_iff_exists]
  exact exists_congr fun n => Text.readNat?_eq_some_iff.trans and_comm

theorem properties_isSome_iff :
    (Setting.properties s).isSome = true ↔
      ∀ piece ∈ s.toList.splitOn ',', ¬Text.Blank piece → Properties.NamesKey piece := by
  rw [← Properties.exists_parse_iff, Setting.properties]
  cases Properties.parse s with
  | ok ps => exact ⟨fun _ => ⟨ps, rfl⟩, fun _ => rfl⟩
  | error e => exact ⟨nofun, nofun⟩

theorem topics_isSome_iff :
    (Topics.parse? s).isSome = true ↔ ∃ piece ∈ s.toList.splitOn ',', ¬Text.Blank piece := by
  rw [Option.isSome_iff_ne_none, ne_eq, Topics.parse?_eq_none_iff]
  push Not
  rfl

theorem isSome_read_iff (k : Kind) (s : String) : (k.read s).isSome = true ↔ k.Accepts s := by
  cases k with
  | text => exact iff_of_true rfl trivial
  | flag => exact bool_isSome_iff
  | number max => exact readNat?_isSome_iff
  | properties => exact properties_isSome_iff
  | topics => exact topics_isSome_iff

end Variable.Kind

structure Variable where
  name : String
  kind : Variable.Kind
  required : Bool
  unset : Option kind.Value
  setting : Settings → Option kind.Value

namespace Variable

def must (name : String) (kind : Kind) (setting : Settings → kind.Value) : Variable where
  name
  kind
  required := true
  unset := none
  setting s := some (setting s)

def may (name : String) (kind : Kind) (setting : Settings → Option kind.Value) : Variable where
  name
  kind
  required := false
  unset := none
  setting

def standard (name : String) (kind : Kind) (default : kind.Value)
    (setting : Settings → kind.Value) : Variable where
  name
  kind
  required := false
  unset := some default
  setting s := some (setting s)

variable {v : Variable} {env env' : Environment} {e : LoadError}

/-- The variable is set if it has to be, and what it says can be read. -/
def Fine (v : Variable) (env : Environment) : Prop :=
  match env v.name with
  | none => v.required = false
  | some text => v.kind.Accepts text

inductive Blamed (v : Variable) (env : Environment) : LoadError → Prop
  | missing : v.required = true → env v.name = none → Blamed v env (.missing v.name)
  | unreadable (text : String) :
    env v.name = some text → ¬v.kind.Accepts text → Blamed v env (.unreadable v.name)

/-- The variable gives the setting: what it says, or what is taken if it is not set. -/
def Gives (v : Variable) (env : Environment) (setting : Option v.kind.Value) : Prop :=
  match env v.name with
  | none => setting = v.unset
  | some text => ∃ a, setting = some a ∧ v.kind.Says text a

def given (v : Variable) (env : Environment) : Option v.kind.Value :=
  match env v.name with
  | none => v.unset
  | some text => v.kind.read text

def fault? (v : Variable) (env : Environment) : Option LoadError :=
  match env v.name with
  | none => if v.required then some (.missing v.name) else none
  | some text => if (v.kind.read text).isSome then none else some (.unreadable v.name)

theorem fault?_of_unset (h : env v.name = none) :
    v.fault? env = if v.required then some (.missing v.name) else none := by
  rw [fault?, h]

theorem fault?_of_set {text : String} (h : env v.name = some text) :
    v.fault? env = if (v.kind.read text).isSome then none else some (.unreadable v.name) := by
  rw [fault?, h]

theorem fault?_eq_none_iff : v.fault? env = none ↔ v.Fine env := by
  rw [fault?, Fine]
  cases env v.name with
  | none => simp
  | some text => simp [Kind.isSome_read_iff]

theorem fault?_eq_some_iff : v.fault? env = some e ↔ v.Blamed env e := by
  constructor
  · intro h
    rw [fault?] at h
    split at h
    · next hname =>
      split at h
      · next hrequired =>
        cases h
        exact .missing hrequired hname
      · cases h
    · next text hname =>
      split at h
      · cases h
      · next hread =>
        cases h
        have hrefused := mt (v.kind.isSome_read_iff text).2 hread
        exact .unreadable text hname hrefused
  · rintro (⟨hrequired, hname⟩ | ⟨text, hname, haccepts⟩)
    · simp only [fault?, hname, if_pos hrequired]
    · have hread := mt (v.kind.isSome_read_iff text).1 haccepts
      simp only [fault?, hname, if_neg hread]

theorem fine_iff :
    v.Fine env ↔ (v.required = true → env v.name ≠ none) ∧
      ∀ text, env v.name = some text → v.kind.Accepts text := by
  rw [Fine]
  cases env v.name with
  | none => simp
  | some text => simp

theorem given_of_unset (h : env v.name = none) : v.given env = v.unset := by
  rw [given, h]

theorem given_of_set {text : String} (h : env v.name = some text) :
    v.given env = v.kind.read text := by
  rw [given, h]

/-- A variable that can be read gives one setting. -/
theorem gives_iff {setting : Option v.kind.Value} (h : v.Fine env) :
    v.Gives env setting ↔ setting = v.given env := by
  rw [Fine] at h
  rw [Gives, given]
  cases hname : env v.name with
  | none => exact Iff.rfl
  | some text =>
    rw [hname] at h
    obtain ⟨a, ha⟩ := Option.isSome_iff_exists.1 ((v.kind.isSome_read_iff text).2 h)
    simp only [← Kind.read_eq_some_iff, ha, Option.some.injEq, exists_eq_right']

theorem given_of_optional (v : Variable) (hnone : v.unset = none) {o : Option v.kind.Value}
    (h : env.optional v.name v.kind.read = .ok o) : v.given env = o := by
  rcases Environment.optional_eq_ok.1 h with ⟨hunset, rfl⟩ | ⟨text, a, hset, hread, rfl⟩
  · rw [given_of_unset hunset, hnone]
  · rw [given_of_set hset, hread]

theorem given_of_orDefault (v : Variable) {default a : v.kind.Value}
    (hdefault : v.unset = some default)
    (h : env.orDefault v.name v.kind.read default = .ok a) : v.given env = some a := by
  rcases Environment.orDefault_eq_ok.1 h with ⟨hunset, rfl⟩ | ⟨text, hset, hread⟩
  · rw [given_of_unset hunset, hdefault]
  · rw [given_of_set hset, hread]

theorem given_of_required (v : Variable) {a : v.kind.Value}
    (h : env.required v.name v.kind.read = .ok a) : v.given env = some a := by
  obtain ⟨text, hset, hread⟩ := Environment.required_eq_ok.1 h
  rw [given_of_set hset, hread]

/-- A fault, if there is one, and a setting come from the text of their own variable alone. -/
theorem fault?_congr (h : env' v.name = env v.name) : v.fault? env' = v.fault? env := by
  rw [fault?, fault?, h]

theorem fine_congr (h : env' v.name = env v.name) : v.Fine env' ↔ v.Fine env := by
  rw [Fine, Fine, h]

theorem gives_congr {setting : Option v.kind.Value} (h : env' v.name = env v.name) :
    v.Gives env' setting ↔ v.Gives env setting := by
  rw [Gives, Gives, h]

theorem given_congr (h : env' v.name = env v.name) : v.given env' = v.given env := by
  rw [given, given, h]

end Variable

variable {env : Environment}

abbrev Variable.Kind.count : Variable.Kind := .number (UInt64.size - 1)

def KafkaSettings.sources : List Variable :=
  [.standard "KAFKA_HOSTS" .text "localhost:9092" fun s => s.kafka.hosts,
    .standard "KAFKA_TLS" .flag false fun s => s.kafka.tls,
    .may "KAFKA_CLIENT_ID" .text fun s => s.kafka.clientId,
    .standard "KAFKA_CONSUMER_OFFSET_RESET" .text "earliest" fun s => s.kafka.offsetReset,
    .may "KAFKA_CONSUMER_PROPERTIES" .properties fun s => s.kafka.properties]

def Thresholds.sources : List Variable :=
  [.standard "BACKPRESSURE_PAUSE_MIN_MESSAGES" .count (2 : Nat)
      fun s => s.thresholds.pauseMinMessages,
    .standard "BACKPRESSURE_PAUSE_BYTES" .count (1000000 : Nat) fun s => s.thresholds.pauseBytes,
    .standard "BACKPRESSURE_PAUSE_MESSAGES" .count (1000 : Nat)
      fun s => s.thresholds.pauseMessages,
    .standard "BACKPRESSURE_RESUME_BYTES" .count (500000 : Nat) fun s => s.thresholds.resumeBytes,
    .standard "BACKPRESSURE_RESUME_MESSAGES" .count (500 : Nat)
      fun s => s.thresholds.resumeMessages]

def Settings.sources : List Variable :=
  [.standard "BIND_HOST" .text "0.0.0.0" fun s => s.bindHost,
    .standard "BIND_PORT" (.number (UInt16.size - 1)) (8080 : Nat) fun s => s.bindPort,
    .standard "EXPORT_PROMETHEUS" .flag false fun s => s.exportsMetrics] ++
  (KafkaSettings.sources ++
  ([.may "KAFKA_CONSUMER_GROUP" .text fun s => s.givenGroup,
    .must "KAFKA_CONSUMER_TOPICS" .topics fun s => s.topics,
    .standard "POLL_INTERVAL_MS" .count (10 : Nat) fun s => s.pollInterval,
    .standard "COMMIT_INTERVAL_MS" .count (5000 : Nat) fun s => s.commitInterval,
    .standard "KAFKA_OPERATION_TIMEOUT_MS" .count (10000 : Nat) fun s => s.operationTimeout,
    .standard "MAX_POLL_RECORDS" .count (500 : Nat) fun s => s.maxPollRecords,
    .standard "MAX_COMMAND_FRAME_BYTES" .count (8388608 : Nat) fun s => s.maxCommandBytes] ++
  Thresholds.sources))

namespace Settings

theorem names_eq : sources.map Variable.name = variableNames := rfl

/-- A default is what some text of its variable would give. -/
theorem default_is_read :
    ∀ v ∈ sources, ∀ a, v.unset = some a → ∃ text, v.kind.read text = some a := by
  simp only [sources, KafkaSettings.sources, Thresholds.sources, List.forall_mem_append,
    List.forall_mem_cons]
  exact ⟨⟨fun a h => ⟨"0.0.0.0", h⟩, fun a h => ⟨"8080", h⟩, fun a h => ⟨"false", h⟩,
      List.forall_mem_nil _⟩,
    ⟨fun a h => ⟨"localhost:9092", h⟩, fun a h => ⟨"false", h⟩, nofun,
      fun a h => ⟨"earliest", h⟩, nofun, List.forall_mem_nil _⟩,
    ⟨nofun, nofun, fun a h => ⟨"10", h⟩, fun a h => ⟨"5000", h⟩, fun a h => ⟨"10000", h⟩,
      fun a h => ⟨"500", h⟩, fun a h => ⟨"8388608", h⟩, List.forall_mem_nil _⟩,
    fun a h => ⟨"2", h⟩, fun a h => ⟨"1000000", h⟩, fun a h => ⟨"1000", h⟩,
    fun a h => ⟨"500000", h⟩, fun a h => ⟨"500", h⟩, List.forall_mem_nil _⟩

/-- Only one variable has to be set. -/
theorem required_iff :
    ∀ v ∈ sources, v.required = true ↔ v.name = "KAFKA_CONSUMER_TOPICS" := by
  decide

theorem fine_all_iff :
    (∀ v ∈ sources, v.Fine env) ↔
      (∃ text, env "KAFKA_CONSUMER_TOPICS" = some text) ∧
        ∀ v ∈ sources, ∀ text, env v.name = some text → v.kind.Accepts text := by
  simp only [Variable.fine_iff]
  constructor
  · intro h
    have hmem : "KAFKA_CONSUMER_TOPICS" ∈ sources.map Variable.name := by decide
    obtain ⟨v, hv, hname⟩ := List.mem_map.1 hmem
    have hset := (h v hv).1 ((required_iff v hv).2 hname)
    rw [hname] at hset
    exact ⟨Option.ne_none_iff_exists'.1 hset, fun v hv => (h v hv).2⟩
  · rintro ⟨⟨text, htopics⟩, haccepts⟩ v hv
    refine ⟨fun hrequired hunset => ?_, haccepts v hv⟩
    rw [(required_iff v hv).1 hrequired, htopics] at hunset
    cases hunset

end Settings

end AckRelay
