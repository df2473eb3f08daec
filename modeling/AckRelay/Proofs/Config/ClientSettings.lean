import AckRelay.Config.Settings

namespace AckRelay

namespace ClientSettings

variable {c d : ClientSettings} {kafka : KafkaSettings} {group : Option String} {ps qs : Properties}
  {key value k : String}

theorem get?_set : (c.set key value).get? k = if k = key then some value else c.get? k := by
  have hothers (es : List (String × String)) (hk : k ≠ key) :
      (es.filter fun e => e.1 ≠ key).lookup k = es.lookup k := by
    induction es with
    | nil => rfl
    | cons e es ih =>
      rw [List.filter_cons]
      split
      · rw [List.lookup_cons, List.lookup_cons, ih]
      · next he =>
        have hkey : e.1 = key := Decidable.not_not.1 fun hne => he (decide_eq_true hne)
        rw [ih, List.lookup_cons, hkey, beq_eq_false_iff_ne.2 hk]
  rw [get?, set, List.lookup_cons]
  split
  · next hk => rw [if_pos (beq_iff_eq.1 hk)]
  · next hk =>
    have hne : k ≠ key := beq_eq_false_iff_ne.1 hk
    rw [if_neg hne, hothers c.entries hne, get?]

theorem setAll_append : c.setAll (ps ++ qs) = (c.setAll ps).setAll qs := List.foldl_append

/-- The last property of a key counts, and a key without one keeps its value. -/
theorem get?_setAll : (c.setAll ps).get? k = (ps.reverse.lookup k).or (c.get? k) := by
  induction ps generalizing c with
  | nil => rfl
  | cons p ps ih =>
    have hset : c.setAll (p :: ps) = (c.set p.1 p.2).setAll ps := rfl
    have hfirst : (c.set p.1 p.2).get? k = ([p].lookup k).or (c.get? k) := by
      rw [get?_set, List.lookup_cons, List.lookup_nil]
      by_cases hk : k = p.1
      · rw [if_pos hk, beq_iff_eq.2 hk]
        rfl
      · rw [if_neg hk, beq_eq_false_iff_ne.2 hk]
        rfl
    rw [hset, ih, hfirst, List.reverse_cons, List.lookup_append, Option.or_assoc]

def Distinct (c : ClientSettings) : Prop := (c.entries.map Prod.fst).Nodup

theorem Distinct.set (h : c.Distinct) : (c.set key value).Distinct := by
  rw [Distinct, ClientSettings.set, List.map_cons, List.nodup_cons]
  constructor
  · intro hmem
    obtain ⟨e, he, hkey⟩ := List.mem_map.1 hmem
    exact of_decide_eq_true (List.mem_filter.1 he).2 hkey
  · exact h.sublist (List.filter_sublist.map Prod.fst)

theorem Distinct.setAll (h : c.Distinct) : (c.setAll ps).Distinct := by
  induction ps generalizing c with
  | nil => exact h
  | cons p ps ih => exact ih h.set

/-- What is listed is what is found. -/
theorem Distinct.mem_iff (h : c.Distinct) : (key, value) ∈ c.entries ↔ c.get? key = some value := by
  rw [get?, List.lookup_eq_some_iff]
  constructor
  · intro hmem
    obtain ⟨before, after, heq⟩ := List.append_of_mem hmem
    refine ⟨before, after, heq, fun e he => bne_iff_ne.2 fun hkey => ?_⟩
    rw [Distinct, heq, List.map_append, List.nodup_append] at h
    exact h.2.2 e.1 (List.mem_map_of_mem he) key List.mem_cons_self hkey.symm
  · rintro ⟨before, after, heq, -⟩
    rw [heq]
    exact List.mem_append_right before List.mem_cons_self

def standing (kafka : KafkaSettings) (group : Option String) : Properties :=
  [("bootstrap.servers", kafka.hosts), ("group.id", group.getD anonymousGroup),
    ("enable.auto.offset.store", "false"), ("enable.auto.commit", "false"),
    ("socket.timeout.ms", "10000")] ++
  (if group.isSome then
    [("session.timeout.ms", "60000"), ("heartbeat.interval.ms", "5000"),
      ("max.poll.interval.ms", "300000")]
  else []) ++
  [("auto.offset.reset", kafka.offsetReset)] ++
  (if kafka.tls then
    [("security.protocol", "ssl"), ("enable.ssl.certificate.verification", "false")]
  else []) ++
  (kafka.clientId.map fun id => ("client.id", id)).toList

theorem plain_eq : plain kafka group = setAll {} (standing kafka group) := by
  obtain ⟨hosts, tls, clientId, offsetReset, properties⟩ := kafka
  cases group <;> cases tls <;> cases clientId <;> rfl

theorem ofKafka_eq (kafka : KafkaSettings) (group : Option String) :
    ofKafka kafka group = setAll {} (standing kafka group ++ kafka.properties.getD []) := by
  rw [setAll_append, ← plain_eq]
  rfl

/-- The client is given what is found for each key. -/
theorem mem_ofKafka_iff :
    (key, value) ∈ (ofKafka kafka group).entries ↔ (ofKafka kafka group).get? key = some value := by
  refine Distinct.mem_iff ?_
  rw [ofKafka_eq]
  exact Distinct.setAll List.nodup_nil

/-- From one client to the other only properties are set, and of those with the same key the last
one. -/
structure Overrides (ps : Properties) (c d : ClientSettings) : Prop where
  named : ∀ before key value after, ps = before ++ (key, value) :: after →
    (∀ p ∈ after, p.1 ≠ key) → d.get? key = some value
  others : ∀ key, (∀ p ∈ ps, p.1 ≠ key) → d.get? key = c.get? key

/-- What the relay sets in the client is as it is told, and it commits nothing on its own. -/
structure Follows (kafka : KafkaSettings) (group : Option String) (c : ClientSettings) : Prop where
  hosts : c.get? "bootstrap.servers" = some kafka.hosts
  group : c.get? "group.id" = some (group.getD anonymousGroup)
  offsetReset : c.get? "auto.offset.reset" = some kafka.offsetReset
  clientId : c.get? "client.id" = kafka.clientId
  tls : c.get? "security.protocol" = if kafka.tls then some "ssl" else none
  noCommit : c.get? "enable.auto.commit" = some "false"
  noStore : c.get? "enable.auto.offset.store" = some "false"

theorem lookup_reverse_of_others (h : ∀ p ∈ ps, p.1 ≠ key) : ps.reverse.lookup key = none := by
  rw [List.lookup_eq_none_iff]
  exact fun p hp => bne_iff_ne.2 (h p (List.mem_reverse.1 hp)).symm

theorem overrides_setAll (c : ClientSettings) (ps : Properties) : Overrides ps c (c.setAll ps) := by
  constructor
  · rintro before key value after rfl hafter
    rw [get?_setAll, List.reverse_append, List.reverse_cons, List.append_assoc,
      List.lookup_append, lookup_reverse_of_others hafter]
    simp
  · intro key hkey
    rw [get?_setAll, lookup_reverse_of_others hkey, Option.none_or]

theorem follows_plain (kafka : KafkaSettings) (group : Option String) :
    Follows kafka group (plain kafka group) := by
  have hget (key : String) :
      (plain kafka group).get? key = (standing kafka group).reverse.lookup key := by
    rw [plain_eq, get?_setAll]
    exact Option.or_none
  obtain ⟨hosts, tls, clientId, offsetReset, properties⟩ := kafka
  constructor
  all_goals
    rw [hget]
    cases group <;> cases tls <;> cases clientId <;> rfl

theorem ofKafka_of_no_properties (kafka : KafkaSettings) (group : Option String) :
    ofKafka { kafka with properties := none } group = plain kafka group := rfl

theorem overrides_ofKafka (kafka : KafkaSettings) (group : Option String) :
    Overrides (kafka.properties.getD []) (ofKafka { kafka with properties := none } group)
      (ofKafka kafka group) := by
  rw [ofKafka_of_no_properties]
  exact overrides_setAll (plain kafka group) (kafka.properties.getD [])

/-- The client consumes in the same group as the relay, or in none. -/
theorem get?_group (s : Settings) (h : ∀ p ∈ s.kafka.properties.getD [], p.1 ≠ "group.id") :
    s.clientSettings.get? "group.id" = some (s.relaySettings.group.getD anonymousGroup) := by
  have hgroup := (overrides_ofKafka s.kafka s.group).others "group.id" h
  rw [ofKafka_of_no_properties, (follows_plain s.kafka s.group).group] at hgroup
  exact hgroup

/-- Explicit properties win, the last one of a key over the others, and they change no other key.
Without them the client is as the relay is told, and unless they name a group it consumes in the
same group as the relay, or in the anonymous one. What is listed for the client is one value for
each key that has one. -/
theorem explicit_properties_win :
    (∀ kafka group,
      Overrides (kafka.properties.getD []) (ofKafka { kafka with properties := none } group)
        (ofKafka kafka group) ∧
      Follows kafka group (ofKafka { kafka with properties := none } group) ∧
      ∀ key value, (key, value) ∈ (ofKafka kafka group).entries ↔
        (ofKafka kafka group).get? key = some value) ∧
    ∀ s : Settings, (∀ p ∈ s.kafka.properties.getD [], p.1 ≠ "group.id") →
      (∀ group, s.relaySettings.group = some group →
        s.clientSettings.get? "group.id" = some group) ∧
      (s.relaySettings.group = none →
        s.clientSettings.get? "group.id" = some anonymousGroup) := by
  refine ⟨fun kafka group => ⟨overrides_ofKafka kafka group, follows_plain kafka group,
      fun key value => mem_ofKafka_iff⟩,
    fun s hs => ⟨fun group hgroup => ?_, fun hgroup => ?_⟩⟩
  · rw [get?_group s hs, hgroup]
    rfl
  · rw [get?_group s hs, hgroup]
    rfl

def tuned : Settings where
  bindHost := "0.0.0.0"
  bindPort := 8080
  exportsMetrics := false
  kafka := {
    hosts := "kafka:9092"
    tls := true
    offsetReset := "latest"
    properties := some [("socket.timeout.ms", "20000"), ("client.rack", "a"),
      ("socket.timeout.ms", "30000")] }
  givenGroup := some ""
  topics := ["events"]
  pollInterval := 10
  commitInterval := 5000
  operationTimeout := 10000
  maxPollRecords := 500
  maxCommandBytes := 8388608
  thresholds := {}

theorem explicit_properties_win_when_repeated :
    tuned.clientSettings.get? "socket.timeout.ms" = some "30000" ∧
      tuned.clientSettings.get? "security.protocol" = some "ssl" ∧
      tuned.clientSettings.get? "client.id" = none ∧
      tuned.clientSettings.get? "group.id" = some anonymousGroup := by
  obtain ⟨⟨hnamed, hothers⟩, hfollows, -⟩ := explicit_properties_win.1 tuned.kafka tuned.group
  refine ⟨?_, ?_, ?_, ?_⟩
  · exact hnamed [("socket.timeout.ms", "20000"), ("client.rack", "a")] _ "30000" [] rfl (by decide)
  · exact (hothers "security.protocol" (by decide)).trans hfollows.tls
  · exact (hothers "client.id" (by decide)).trans hfollows.clientId
  · exact (explicit_properties_win.2 tuned (by decide)).2 (by decide)

end ClientSettings

end AckRelay
