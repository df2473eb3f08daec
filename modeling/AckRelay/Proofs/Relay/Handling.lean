import AckRelay.Proofs.Relay.Frame

namespace AckRelay

variable {β ν : Type}

structure Handling (β ν : Type) where
  before : Relay β ν
  command : Command

variable [Broker β] [Notifier ν] {r s : Relay β ν} {c : Command} {cs : List Command}
  {h : Handling β ν} {past later : List (Handling β ν)}

def Handling.Final (h : Handling β ν) : Prop :=
  h.command = .stop ∨ ∃ e s, Relay.obey h.command h.before = .error e s

namespace Relay

theorem flow_of_obey {flow : Flow} (h : obey c r = .ok flow s) :
    flow = if c = .stop then .stop else .goOn := by
  rw [obey_eq] at h
  cases c with
  | ack position =>
    obtain ⟨_, _, _, h⟩ := bind_eq_ok.1 h
    cases h
    rfl
  | committedOffsets =>
    obtain ⟨_, _, _, h⟩ := bind_eq_ok.1 h
    cases h
    rfl
  | stop =>
    obtain ⟨_, _, _, h⟩ := bind_eq_ok.1 h
    cases h
    rfl
  | unrecognized raw => cases h

theorem not_final_iff : ¬h.Final ↔ ∃ s, obey h.command h.before = .ok .goOn s := by
  constructor
  · intro hfinal
    obtain ⟨hstop, herror⟩ := not_or.1 hfinal
    cases ho : obey h.command h.before with
    | error e s => exact absurd ⟨e, s, ho⟩ herror
    | ok flow s =>
      have hflow := flow_of_obey ho
      rw [if_neg hstop] at hflow
      exact ⟨s, by rw [hflow]⟩
  · rintro ⟨s, ho⟩ (hstop | ⟨e, t, herror⟩)
    · have hflow := flow_of_obey ho
      rw [if_pos hstop] at hflow
      cases hflow
    · cases ho.symm.trans herror

def handlings : List Command → Relay β ν → List (Handling β ν)
  | [], _ => []
  | c :: cs, r =>
    ⟨r, c⟩ ::
      match obey c r with
      | .ok .goOn s => handlings cs s
      | .ok .stop _ | .error _ _ => []

/-- The first command ends the run and is obeyed as the only one, or the others follow. -/
theorem handlings_cons (c : Command) (cs : List Command) (r : Relay β ν) :
    ((⟨r, c⟩ : Handling β ν).Final ∧ handlings (c :: cs) r = [⟨r, c⟩] ∧
        obeyAll (c :: cs) r = obey c r) ∨
      ∃ s, ¬(⟨r, c⟩ : Handling β ν).Final ∧ obey c r = .ok .goOn s ∧
        handlings (c :: cs) r = ⟨r, c⟩ :: handlings cs s ∧
        obeyAll (c :: cs) r = obeyAll cs s := by
  rw [handlings, obeyAll, bind_apply]
  by_cases hfinal : (⟨r, c⟩ : Handling β ν).Final
  · refine Or.inl ⟨hfinal, ?_⟩
    cases ho : obey c r with
    | error e s => exact ⟨rfl, rfl⟩
    | ok flow s =>
      cases flow with
      | stop => exact ⟨rfl, rfl⟩
      | goOn => exact absurd hfinal (not_final_iff.2 ⟨s, ho⟩)
  · obtain ⟨s, ho⟩ := not_final_iff.1 hfinal
    rw [ho]
    exact Or.inr ⟨s, hfinal, rfl, rfl, rfl⟩

theorem command_handlings (cs : List Command) (r : Relay β ν) :
    (handlings cs r).map (·.command) <+: cs := by
  induction cs generalizing r with
  | nil => exact List.prefix_rfl
  | cons c cs ih =>
    rcases handlings_cons c cs r with ⟨-, hhs, -⟩ | ⟨s, -, -, hhs, -⟩
    · rw [hhs]
      exact List.cons_prefix_cons.2 ⟨rfl, List.nil_prefix⟩
    · rw [hhs]
      exact List.cons_prefix_cons.2 ⟨rfl, ih s⟩

/-- Only the last command that is handled may end the run. -/
theorem not_final_of_later (heq : handlings cs r = past ++ h :: later) (hlater : later ≠ []) :
    ¬h.Final := by
  induction cs generalizing r past with
  | nil => cases past <;> cases heq
  | cons c cs ih =>
    rcases handlings_cons c cs r with ⟨-, hhs, -⟩ | ⟨s, hgoes, -, hhs, -⟩
    · have hlength := congrArg List.length (hhs.symm.trans heq)
      have hpos := List.length_pos_iff.2 hlater
      simp only [List.length_append, List.length_cons, List.length_nil] at hlength
      omega
    · rw [hhs] at heq
      cases past with
      | nil =>
        obtain ⟨rfl, -⟩ := List.cons.inj heq
        exact hgoes
      | cons k past => exact ih (List.cons.inj heq).2

/-- Commands that ended nothing may also come before those of a turn. -/
theorem not_final_of_append {hs : List (Handling β ν)} (hgoes : ∀ h ∈ hs, ¬h.Final)
    (heq : hs ++ handlings cs r = past ++ h :: later) (hlater : later ≠ []) : ¬h.Final := by
  rcases List.append_eq_append_iff.1 heq with ⟨mid, -, hhere⟩ | ⟨mid, hbefore, hhere⟩
  · exact not_final_of_later hhere hlater
  · cases mid with
    | nil =>
      have hfirst : handlings cs r = [] ++ h :: later := hhere.symm
      exact not_final_of_later hfirst hlater
    | cons k mid =>
      obtain ⟨rfl, -⟩ := List.cons.inj hhere
      exact hgoes h (by rw [hbefore]; simp)

/-- If none of the commands before it ends the run, a command is handled. -/
theorem getElem?_handlings {i : Nat} (hi : i < cs.length)
    (hearlier : ∀ h ∈ (handlings cs r).take i, ¬h.Final) :
    (handlings cs r)[i]?.map (·.command) = cs[i]? := by
  induction cs generalizing r i with
  | nil => cases hi
  | cons c cs ih =>
    cases i with
    | zero => rw [handlings]; rfl
    | succ i =>
      rcases handlings_cons c cs r with ⟨hfinal, hhs, -⟩ | ⟨s, -, -, hhs, -⟩
      · rw [hhs] at hearlier
        exact absurd hfinal (hearlier _ List.mem_cons_self)
      · rw [hhs] at hearlier ⊢
        refine ih (Nat.lt_of_succ_lt_succ hi) fun h hh => hearlier h ?_
        exact List.mem_cons_of_mem _ hh

/-- A command that ends the run is the last that is obeyed. -/
theorem obeyAll_of_final (hh : h ∈ handlings cs r) (hfinal : h.Final) :
    obeyAll cs r = obey h.command h.before := by
  induction cs generalizing r with
  | nil => cases hh
  | cons c cs ih =>
    rcases handlings_cons c cs r with ⟨-, hhs, hobey⟩ | ⟨s, hgoes, -, hhs, hobey⟩
    · rw [hhs] at hh
      obtain rfl := List.mem_singleton.1 hh
      exact hobey
    · rw [hhs] at hh
      rcases List.mem_cons.1 hh with rfl | hh
      · exact absurd hfinal hgoes
      · exact hobey.trans (ih hh)

theorem obeyAll_of_not_final (hnone : ∀ h ∈ handlings cs r, ¬h.Final) :
    ∃ s, obeyAll cs r = .ok .goOn s := by
  induction cs generalizing r with
  | nil => exact ⟨r, rfl⟩
  | cons c cs ih =>
    rcases handlings_cons c cs r with ⟨hfinal, hhs, -⟩ | ⟨s, -, -, hhs, hobey⟩
    · rw [hhs] at hnone
      exact absurd hfinal (hnone _ List.mem_cons_self)
    · rw [hhs] at hnone
      obtain ⟨t, ht⟩ := ih (List.forall_mem_cons.1 hnone).2
      exact ⟨t, hobey.trans ht⟩

theorem command_handlings_of_not_final (hnone : ∀ h ∈ handlings cs r, ¬h.Final) :
    (handlings cs r).map (·.command) = cs := by
  refine (command_handlings cs r).eq_of_length_le (Nat.le_of_not_lt fun hshort => ?_)
  have hget := getElem?_handlings hshort fun h hh => hnone h (List.mem_of_mem_take hh)
  rw [← List.getElem?_map, List.getElem?_eq_none (Nat.le_refl _),
    List.getElem?_eq_getElem hshort] at hget
  cases hget

def countOf (k : Command.Kind) (hs : List (Handling β ν)) : Nat :=
  hs.countP fun h => h.command.kind = k

theorem applied_obeyAll [OnlyTells β] (cs : List Command) (r : Relay β ν) (k : Command.Kind) :
    (endState (obeyAll cs) r).desk.metrics.applied k =
      r.desk.metrics.applied k + countOf k (handlings cs r) := by
  induction cs generalizing r with
  | nil => rfl
  | cons c cs ih =>
    have hone := (applied_obey c r).2 k
    rcases handlings_cons c cs r with ⟨-, hhs, hobey⟩ | ⟨s, -, ho, hhs, hobey⟩
    · rw [endState_congr hobey, hone, hhs, countOf, List.countP_singleton]
      simp only [decide_eq_true_eq]
    · rw [endState_of_ok ho] at hone
      rw [endState_congr hobey, ih s, hone, hhs, countOf, countOf, List.countP_cons]
      simp only [decide_eq_true_eq]
      omega

/-- A turn counts the commands that it handles. -/
theorem applied_turn [OnlyTells β] (r : Relay β ν) (k : Command.Kind) :
    (endState turn r).desk.metrics.applied k =
      r.desk.metrics.applied k + countOf k (handlings r.queue { r with queue := [] }) := by
  have hobey := applied_obeyAll r.queue { r with queue := [] } k
  rw [endState] at hobey ⊢
  rw [turn_eq]
  cases ho : obeyAll r.queue { r with queue := [] } with
  | error e s => simpa only [ho] using hobey
  | ok flow s =>
    rw [ho] at hobey
    cases flow with
    | stop => exact hobey
    | goOn => exact ((minds_sameCommands.work.atEnd s).applied k).trans hobey

theorem turn_of_final (hh : h ∈ handlings r.queue { r with queue := [] }) (hfinal : h.Final) :
    turn r = obey h.command h.before := by
  rw [turn_eq, obeyAll_of_final hh hfinal]
  cases ho : obey h.command h.before with
  | error e s => rfl
  | ok flow s =>
    cases flow with
    | stop => rfl
    | goOn => exact absurd hfinal (not_final_iff.2 ⟨s, ho⟩)

theorem turn_of_not_final (hnone : ∀ h ∈ handlings r.queue { r with queue := [] }, ¬h.Final) :
    ∃ s, obeyAll r.queue { r with queue := [] } = .ok .goOn s ∧ turn r = work s := by
  obtain ⟨s, ho⟩ := obeyAll_of_not_final hnone
  exact ⟨s, ho, by rw [turn_eq, ho]⟩

omit [Broker β] [Notifier ν] in
theorem endOf_snd (op : EStateM Halt (Relay β ν) Flow) (r : Relay β ν) :
    (endOf (op r)).2 = endState op r := by
  rw [endState]
  cases op r with
  | error e s => rfl
  | ok flow s => cases flow <;> rfl

omit [Broker β] [Notifier ν] in
theorem sameCommands_settle (ended : Ending × Relay β ν) :
    SameCommands ended.2 (settle ended).2 := by
  obtain ⟨ending, r⟩ := ended
  cases ending with
  | failed e =>
    exact ⟨rfl, Metrics.countsNoCommand_add (fun _ hk => by cases hk) 1 r.desk.metrics⟩
  | stopped => exact ⟨rfl, fun _ => rfl⟩
  | crashed => exact ⟨rfl, fun _ => rfl⟩
  | running => exact ⟨rfl, fun _ => rfl⟩

theorem sameCommands_start [OnlyTells β] (r : Relay β ν) : SameCommands r (run [] r).2 := by
  have hstart := minds_sameCommands.start.atEnd r
  rw [endState] at hstart
  rw [run]
  cases ho : start r with
  | ok u s =>
    rw [ho] at hstart
    exact hstart.trans (sameCommands_settle (.running, s))
  | error e s =>
    rw [ho] at hstart
    exact hstart.trans (sameCommands_settle (e.ending, s))

section Turn

variable (t : Turn) (r : Relay β ν)

def handlingsOf (t : Turn) (r : Relay β ν) : List (Handling β ν) :=
  handlings (r.await t).queue { r.await t with queue := [] }

omit [Broker β] [Notifier ν] in
/-- An idle relay takes in the commands that have come, and nothing else. -/
theorem await_of_idle {r : Relay β ν} (hidle : r.queue = []) :
    (r.await t).queue = t.arrivals ∧
      { r.await t with queue := [] } = { r with now := r.now + t.elapsed } := by
  cases r
  cases hidle
  exact ⟨rfl, rfl⟩

theorem handlingsOf_of_idle {r : Relay β ν} (hidle : r.queue = []) :
    handlingsOf t r = handlings t.arrivals { r with now := r.now + t.elapsed } := by
  obtain ⟨hqueue, hrest⟩ := await_of_idle t hidle
  rw [handlingsOf, hqueue, hrest]

theorem resume_one : resume [t] r = settle (endOf (turn (r.await t))) := by
  rw [resume, turns]
  cases turn (r.await t) with
  | error e s => rfl
  | ok flow s => cases flow <;> rfl

theorem queue_resume [OnlyTells β] : (resume [t] r).2.queue = [] := by
  rw [resume_one, (sameCommands_settle _).queue, endOf_snd, queue_turn]

theorem applied_resume [OnlyTells β] (k : Command.Kind) :
    (resume [t] r).2.desk.metrics.applied k =
      r.desk.metrics.applied k + countOf k (handlingsOf t r) := by
  rw [resume_one, (sameCommands_settle _).applied, endOf_snd, applied_turn]
  rfl

variable {t r}

/-- A command that ends the run is the last that the turn does anything about. -/
theorem resume_of_final (hh : h ∈ handlingsOf t r) (hfinal : h.Final) :
    resume [t] r = settle (endOf (obey h.command h.before)) := by
  rw [resume_one, turn_of_final hh hfinal]

theorem resume_of_not_final (hnone : ∀ h ∈ handlingsOf t r, ¬h.Final) :
    ∃ s, obeyAll (r.await t).queue { r.await t with queue := [] } = .ok .goOn s ∧
      resume [t] r = settle (endOf (work s)) := by
  obtain ⟨s, ho, hturn⟩ := turn_of_not_final hnone
  exact ⟨s, ho, by rw [resume_one, hturn]⟩

theorem not_running_of_final (hh : h ∈ handlingsOf t r) (hfinal : h.Final) :
    (resume [t] r).1 ≠ .running := by
  rw [resume_of_final hh hfinal]
  intro hrun
  cases ho : obey h.command h.before with
  | error e s =>
    rw [ho] at hrun
    cases e <;> cases hrun
  | ok flow s =>
    rw [ho] at hrun
    cases flow with
    | stop => cases hrun
    | goOn => exact not_final_iff.2 ⟨s, ho⟩ hfinal

end Turn

end Relay

end AckRelay
