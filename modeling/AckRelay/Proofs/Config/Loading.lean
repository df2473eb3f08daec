import AckRelay.Proofs.Config.Variables

namespace AckRelay

variable {α β : Type} {env env' : Environment} {s s' : Settings} {name : String}
  {kind : Variable.Kind} {e : LoadError}

def Loads (env : Environment) (vs : List Variable) (x : Except LoadError α) : Prop :=
  ∀ e, x = .error e ↔ vs.findSome? (·.fault? env) = some e

namespace Loads

variable {v : Variable} {vs ws : List Variable} {x : Except LoadError α}
  {f : α → Except LoadError β}

theorem pure (a : α) : Loads env [] (.ok a) := fun _ => ⟨nofun, nofun⟩

theorem fine {a : α} (h : Loads env vs (.ok a)) : vs.findSome? (·.fault? env) = none :=
  Option.eq_none_iff_forall_ne_some.2 fun e he => by cases (h e).2 he

theorem exists_ok_iff (h : Loads env vs x) : (∃ a, x = .ok a) ↔ ∀ v ∈ vs, v.Fine env := by
  have hfine : (∀ v ∈ vs, v.Fine env) ↔ vs.findSome? (·.fault? env) = none := by
    simp only [List.findSome?_eq_none_iff, Variable.fault?_eq_none_iff]
  rw [hfine]
  cases x with
  | ok a => exact iff_of_true ⟨a, rfl⟩ h.fine
  | error e =>
    rw [(h e).1 rfl]
    exact ⟨nofun, nofun⟩

theorem append (hx : Loads env vs x) (hf : ∀ a, Loads env ws (f a)) :
    Loads env (vs ++ ws) (x >>= f) := by
  intro e
  rw [List.findSome?_append]
  cases x with
  | error e' =>
    rw [(hx e').1 rfl, Option.some_or]
    exact ⟨fun h => by cases h; rfl, fun h => by cases h; rfl⟩
  | ok a =>
    rw [hx.fine, Option.none_or]
    exact hf a e

theorem cons (hx : Loads env [v] x) (hf : ∀ a, Loads env vs (f a)) :
    Loads env (v :: vs) (x >>= f) := hx.append hf

/-- What is made of a result makes no difference. -/
theorem map (hx : Loads env vs x) (g : α → β) : Loads env vs (x >>= fun a => .ok (g a)) := by
  have h := hx.append fun a => Loads.pure (g a)
  rwa [List.append_nil] at h

theorem of_fault (h : ∀ e, x = .error e ↔ v.fault? env = some e) : Loads env [v] x := by
  intro e
  rw [h e, List.findSome?_cons, List.findSome?_nil]
  cases v.fault? env <;> rfl

end Loads

theorem loads_optional (v : Variable) (h : v.required = false) :
    Loads env [v] (env.optional v.name v.kind.read) := by
  refine .of_fault fun e => ?_
  rw [Environment.optional]
  cases hname : env v.name with
  | none => simp [Variable.fault?_of_unset hname, h]
  | some text =>
    rw [Variable.fault?_of_set hname]
    dsimp only
    cases v.kind.read text <;> simp

theorem loads_orDefault (v : Variable) (h : v.required = false) (default : v.kind.Value) :
    Loads env [v] (env.orDefault v.name v.kind.read default) :=
  (loads_optional v h).map fun o => o.getD default

theorem loads_required (v : Variable) (h : v.required = true) :
    Loads env [v] (env.required v.name v.kind.read) := by
  refine .of_fault fun e => ?_
  rw [Environment.required, Environment.optional]
  cases hname : env v.name with
  | none => simp [Variable.fault?_of_unset hname, h, bind, Except.bind]
  | some text =>
    rw [Variable.fault?_of_set hname]
    dsimp only
    cases v.kind.read text <;> simp [bind, Except.bind]

section Tables

variable {default : kind.Value} {setting : Settings → kind.Value}
  {maybe : Settings → Option kind.Value}

theorem loads_may : Loads env [.may name kind maybe] (env.optional name kind.read) :=
  loads_optional (.may name kind maybe) rfl

theorem loads_standard :
    Loads env [.standard name kind default setting] (env.orDefault name kind.read default) :=
  loads_orDefault (.standard name kind default setting) rfl default

theorem loads_must : Loads env [.must name kind setting] (env.required name kind.read) :=
  loads_required (.must name kind setting) rfl

theorem setting_may (h : env.optional name kind.read = .ok (maybe s)) :
    (Variable.may name kind maybe).setting s = (Variable.may name kind maybe).given env :=
  (Variable.given_of_optional (.may name kind maybe) rfl h).symm

theorem setting_standard (h : env.orDefault name kind.read default = .ok (setting s)) :
    (Variable.standard name kind default setting).setting s =
      (Variable.standard name kind default setting).given env :=
  (Variable.given_of_orDefault (.standard name kind default setting) rfl h).symm

theorem setting_must (h : env.required name kind.read = .ok (setting s)) :
    (Variable.must name kind setting).setting s = (Variable.must name kind setting).given env :=
  (Variable.given_of_required (.must name kind setting) h).symm

end Tables

theorem KafkaSettings.loads (env : Environment) :
    Loads env KafkaSettings.sources (KafkaSettings.load env) := by
  refine loads_standard.cons fun hosts => ?_
  refine loads_standard.cons fun tls => ?_
  refine loads_may.cons fun clientId => ?_
  refine loads_standard.cons fun offsetReset => ?_
  exact loads_may.map _

theorem Thresholds.loads (env : Environment) :
    Loads env Thresholds.sources (Thresholds.load env) := by
  refine loads_standard.cons fun pauseMinMessages => ?_
  refine loads_standard.cons fun pauseBytes => ?_
  refine loads_standard.cons fun pauseMessages => ?_
  refine loads_standard.cons fun resumeBytes => ?_
  exact loads_standard.map _

theorem Settings.loads (env : Environment) : Loads env Settings.sources (Settings.load env) := by
  refine loads_standard.cons fun bindHost => ?_
  refine loads_standard.cons fun bindPort => ?_
  refine loads_standard.cons fun exportsMetrics => ?_
  refine (KafkaSettings.loads env).append fun kafka => ?_
  refine loads_may.cons fun givenGroup => ?_
  refine loads_must.cons fun topics => ?_
  refine loads_standard.cons fun pollInterval => ?_
  refine loads_standard.cons fun commitInterval => ?_
  refine loads_standard.cons fun operationTimeout => ?_
  refine loads_standard.cons fun maxPollRecords => ?_
  refine loads_standard.cons fun maxCommandBytes => ?_
  exact (Thresholds.loads env).map _

theorem KafkaSettings.setting_of_load {kafka : KafkaSettings}
    (h : KafkaSettings.load env = .ok kafka) (hs : s.kafka = kafka) :
    ∀ v ∈ KafkaSettings.sources, v.setting s = v.given env := by
  obtain ⟨hosts, hhosts, h⟩ := Except.bind_eq_ok.1 h
  obtain ⟨tls, htls, h⟩ := Except.bind_eq_ok.1 h
  obtain ⟨clientId, hclientId, h⟩ := Except.bind_eq_ok.1 h
  obtain ⟨offsetReset, hoffsetReset, h⟩ := Except.bind_eq_ok.1 h
  obtain ⟨properties, hproperties, h⟩ := Except.bind_eq_ok.1 h
  obtain ⟨_, _, _, _, _, _, _, _, _, _, _, _⟩ := s
  cases hs
  cases h
  simp only [KafkaSettings.sources, List.forall_mem_cons]
  exact ⟨setting_standard hhosts, setting_standard htls, setting_may hclientId,
    setting_standard hoffsetReset, setting_may hproperties, List.forall_mem_nil _⟩

theorem Thresholds.setting_of_load {thresholds : Thresholds}
    (h : Thresholds.load env = .ok thresholds) (hs : s.thresholds = thresholds) :
    ∀ v ∈ Thresholds.sources, v.setting s = v.given env := by
  obtain ⟨pauseMinMessages, h₁, h⟩ := Except.bind_eq_ok.1 h
  obtain ⟨pauseBytes, h₂, h⟩ := Except.bind_eq_ok.1 h
  obtain ⟨pauseMessages, h₃, h⟩ := Except.bind_eq_ok.1 h
  obtain ⟨resumeBytes, h₄, h⟩ := Except.bind_eq_ok.1 h
  obtain ⟨resumeMessages, h₅, h⟩ := Except.bind_eq_ok.1 h
  obtain ⟨_, _, _, _, _, _, _, _, _, _, _, _⟩ := s
  cases hs
  cases h
  simp only [Thresholds.sources, List.forall_mem_cons]
  exact ⟨setting_standard h₁, setting_standard h₂, setting_standard h₃, setting_standard h₄,
    setting_standard h₅, List.forall_mem_nil _⟩

/-- Every setting is what its variable gives. -/
theorem Settings.setting_of_load (h : Settings.load env = .ok s) :
    ∀ v ∈ Settings.sources, v.setting s = v.given env := by
  obtain ⟨bindHost, hbindHost, h⟩ := Except.bind_eq_ok.1 h
  obtain ⟨bindPort, hbindPort, h⟩ := Except.bind_eq_ok.1 h
  obtain ⟨exportsMetrics, hexportsMetrics, h⟩ := Except.bind_eq_ok.1 h
  obtain ⟨kafka, hkafka, h⟩ := Except.bind_eq_ok.1 h
  obtain ⟨givenGroup, hgivenGroup, h⟩ := Except.bind_eq_ok.1 h
  obtain ⟨topics, htopics, h⟩ := Except.bind_eq_ok.1 h
  obtain ⟨pollInterval, hpollInterval, h⟩ := Except.bind_eq_ok.1 h
  obtain ⟨commitInterval, hcommitInterval, h⟩ := Except.bind_eq_ok.1 h
  obtain ⟨operationTimeout, hoperationTimeout, h⟩ := Except.bind_eq_ok.1 h
  obtain ⟨maxPollRecords, hmaxPollRecords, h⟩ := Except.bind_eq_ok.1 h
  obtain ⟨maxCommandBytes, hmaxCommandBytes, h⟩ := Except.bind_eq_ok.1 h
  obtain ⟨thresholds, hthresholds, h⟩ := Except.bind_eq_ok.1 h
  cases h
  simp only [Settings.sources, List.forall_mem_append, List.forall_mem_cons]
  exact ⟨⟨setting_standard hbindHost, setting_standard hbindPort,
      setting_standard hexportsMetrics, List.forall_mem_nil _⟩,
    KafkaSettings.setting_of_load hkafka rfl,
    ⟨setting_may hgivenGroup, setting_must htopics, setting_standard hpollInterval,
      setting_standard hcommitInterval, setting_standard hoperationTimeout,
      setting_standard hmaxPollRecords, setting_standard hmaxCommandBytes, List.forall_mem_nil _⟩,
    Thresholds.setting_of_load hthresholds rfl⟩

/-- The variables give all settings. -/
theorem Settings.eq_of_setting (h : ∀ v ∈ Settings.sources, v.setting s = v.setting s') :
    s = s' := by
  obtain ⟨_, _, _, ⟨_, _, _, _, _⟩, _, _, _, _, _, _, _, ⟨_, _, _, _, _⟩⟩ := s
  obtain ⟨_, _, _, ⟨_, _, _, _, _⟩, _, _, _, _, _, _, _, ⟨_, _, _, _, _⟩⟩ := s'
  simp only [Settings.sources, KafkaSettings.sources, Thresholds.sources,
    List.forall_mem_append, List.forall_mem_cons, Variable.standard, Variable.may, Variable.must,
    Option.some.injEq] at h
  obtain ⟨⟨rfl, rfl, rfl, -⟩, ⟨rfl, rfl, rfl, rfl, rfl, -⟩,
    ⟨rfl, rfl, rfl, rfl, rfl, rfl, rfl, -⟩, rfl, rfl, rfl, rfl, rfl, -⟩ := h
  rfl

namespace Settings

theorem exists_load_iff : (∃ s, load env = .ok s) ↔ ∀ v ∈ sources, v.Fine env :=
  (loads env).exists_ok_iff

theorem load_eq_ok_iff :
    load env = .ok s ↔ ∀ v ∈ sources, v.Fine env ∧ v.Gives env (v.setting s) := by
  have hgives (v : Variable) : v.Fine env ∧ v.Gives env (v.setting s) ↔
      v.Fine env ∧ v.setting s = v.given env := and_congr_right fun hfine => Variable.gives_iff hfine
  simp only [hgives]
  constructor
  · intro h v hv
    exact ⟨exists_load_iff.1 ⟨s, h⟩ v hv, setting_of_load h v hv⟩
  · intro h
    obtain ⟨s', h'⟩ := exists_load_iff.2 fun v hv => (h v hv).1
    have hsame : s = s' := eq_of_setting fun v hv => (h v hv).2.trans (setting_of_load h' v hv).symm
    rw [h', hsame]

theorem load_eq_error_iff :
    load env = .error e ↔ ∃ before v after, sources = before ++ v :: after ∧
      (∀ u ∈ before, u.Fine env) ∧ v.Blamed env e := by
  rw [loads env e, List.findSome?_eq_some_iff]
  simp only [Variable.fault?_eq_none_iff, Variable.fault?_eq_some_iff]
  refine exists₃_congr fun before v after => and_congr_right fun _ => and_comm

theorem firstFault_congr {vs : List Variable} (h : ∀ v ∈ vs, env' v.name = env v.name) :
    vs.findSome? (·.fault? env') = vs.findSome? (·.fault? env) := by
  induction vs with
  | nil => rfl
  | cons v vs ih =>
    obtain ⟨hv, hvs⟩ := List.forall_mem_cons.1 h
    rw [List.findSome?_cons, List.findSome?_cons, Variable.fault?_congr hv, ih hvs]

/-- A fault among the first variables makes the others count for nothing. -/
theorem load_eq_of_fault {before after : List Variable} (hsplit : sources = before ++ after)
    (hfault : ∃ v ∈ before, ¬v.Fine env) (h : ∀ v ∈ before, env' v.name = env v.name) :
    load env' = load env := by
  have hsame := firstFault_congr h
  have hsome : before.findSome? (·.fault? env) ≠ none := by
    obtain ⟨v, hv, hfine⟩ := hfault
    exact fun hnone =>
      hfine (Variable.fault?_eq_none_iff.1 (List.findSome?_eq_none_iff.1 hnone v hv))
  obtain ⟨e, he⟩ := Option.ne_none_iff_exists'.1 hsome
  have herror {env : Environment} (he : before.findSome? (·.fault? env) = some e) :
      load env = .error e := by
    rw [loads env e, hsplit, List.findSome?_append, he, Option.some_or]
  rw [herror he, herror (hsame.trans he)]

/-- Nothing else is read. -/
theorem load_congr (h : ∀ v ∈ sources, env' v.name = env v.name) : load env' = load env := by
  by_cases hfine : ∀ v ∈ sources, v.Fine env
  · obtain ⟨s, hs⟩ := exists_load_iff.2 hfine
    rw [hs, load_eq_ok_iff]
    intro v hv
    rw [Variable.fine_congr (h v hv), Variable.gives_congr (h v hv)]
    exact load_eq_ok_iff.1 hs v hv
  · push Not at hfine
    exact load_eq_of_fault (List.append_nil sources).symm hfine h

/-- Settings are loaded exactly if the topics are set and each variable that is set can be read.
Otherwise the first variable with a fault is told, and what comes after it does not matter. A
setting that is loaded is what its own variable gives, and no other variable matters to it. -/
theorem loading_tells_first_fault (env : Environment) :
    sources.map Variable.name = variableNames ∧
    ((∃ s, load env = .ok s) ↔
      (∃ text, env "KAFKA_CONSUMER_TOPICS" = some text) ∧
        ∀ v ∈ sources, ∀ text, env v.name = some text → v.kind.Accepts text) ∧
    (∀ e, load env = .error e ↔ ∃ before v after, sources = before ++ v :: after ∧
      (∀ u ∈ before, u.Fine env) ∧ v.Blamed env e) ∧
    (∀ s, load env = .ok s ↔ ∀ v ∈ sources, v.Fine env ∧ v.Gives env (v.setting s)) ∧
    (∀ env' before after, sources = before ++ after → (∃ v ∈ before, ¬v.Fine env) →
      (∀ v ∈ before, env' v.name = env v.name) → load env' = load env) ∧
    (∀ env', (∀ v ∈ sources, env' v.name = env v.name) → load env' = load env) ∧
    ∀ env' s s', load env = .ok s → load env' = .ok s' →
      ∀ v ∈ sources, env' v.name = env v.name → v.setting s' = v.setting s := by
  refine ⟨names_eq, exists_load_iff.trans fine_all_iff, fun e => load_eq_error_iff,
    fun s => load_eq_ok_iff, fun env' before after => load_eq_of_fault, fun env' => load_congr, ?_⟩
  intro env' s s' h h' v hv hname
  calc
    v.setting s' = v.given env' := setting_of_load h' v hv
    _ = v.given env := Variable.given_congr hname
    _ = v.setting s := (setting_of_load h v hv).symm

def twoFaults : Environment := fun name =>
  [("BIND_HOST", "localhost"), ("BIND_PORT", "70000"), ("HOME", "/")].lookup name

def otherFaults : Environment := fun name =>
  [("BIND_HOST", "localhost"), ("BIND_PORT", "70000"), ("KAFKA_CONSUMER_TOPICS", "events"),
    ("MAX_POLL_RECORDS", "-1")].lookup name

def noFault : Environment := fun name =>
  [("KAFKA_CONSUMER_TOPICS", "events, clicks"), ("MAX_POLL_RECORDS", "+020")].lookup name

theorem loading_tells_first_fault_of_two :
    (∃ before v after, sources = before ++ v :: after ∧ (∀ u ∈ before, u.Fine twoFaults) ∧
      v.Blamed twoFaults (.unreadable "BIND_PORT")) ∧
    load otherFaults = load twoFaults ∧
    ∃ s, load noFault = .ok s ∧ s.topics = ["events", "clicks"] ∧ s.maxPollRecords = 20 ∧
      s.commitInterval = 5000 ∧
      ∀ v ∈ sources, v.Fine noFault ∧ v.Gives noFault (v.setting s) := by
  have hload : load twoFaults = .error (.unreadable "BIND_PORT") := by decide
  obtain ⟨-, -, htold, -, hfront, -⟩ := loading_tells_first_fault twoFaults
  have hport : ∃ v ∈ sources.take 2, ¬v.Fine twoFaults :=
    ⟨sources[1], List.mem_cons_of_mem _ List.mem_cons_self, by
      rw [← Variable.fault?_eq_none_iff]
      decide⟩
  refine ⟨(htold _).1 hload, ?_, ?_⟩
  · exact hfront otherFaults _ _ (List.take_append_drop 2 sources).symm hport (by decide)
  · have hload : ∃ s, load noFault = .ok s ∧ s.topics = ["events", "clicks"] ∧
        s.maxPollRecords = 20 ∧ s.commitInterval = 5000 := ⟨_, rfl, rfl, rfl, rfl⟩
    obtain ⟨s, hs, htopics, hrecords, hinterval⟩ := hload
    obtain ⟨-, -, -, hok, -⟩ := loading_tells_first_fault noFault
    exact ⟨s, hs, htopics, hrecords, hinterval, (hok s).1 hs⟩

end Settings

end AckRelay
