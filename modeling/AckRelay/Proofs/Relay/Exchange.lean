import AckRelay.Host.Channel
import AckRelay.Proofs.Relay.Handling

/-!
A relay and those who send it commands, interleaved in any way. Every command that is queued while
the relay runs is handled once and in order, up to the first that ends the run
(`commands_are_handled_once`).
-/

namespace AckRelay

variable {β ν : Type}

inductive SenderAct where
  | clone
  | send (i : Nat) (command : Command)
  | leave
  deriving DecidableEq

namespace Channel

def act : SenderAct → Channel → Channel
  | .clone, c => c.clone
  | .send i command, c => c.send i command
  | .leave, c => c.dropSenders

def admitted : SenderAct → Channel → List Command
  | .send i command, c => if i < c.senders ∧ c.queued.isSome then [command] else []
  | .clone, _ | .leave, _ => []

theorem queued_act (a : SenderAct) (c : Channel) :
    (c.act a).queued = c.queued.map (· ++ c.admitted a) := by
  have hsame : c.queued = c.queued.map (· ++ []) := by simp
  cases a with
  | clone =>
    refine Eq.trans ?_ hsame
    rw [act, clone]
    split <;> rfl
  | leave => exact hsame
  | send i command =>
    by_cases hi : i < c.senders
    · cases hq : c.queued <;> simp [act, send, admitted, hi, hq]
    · simp [act, send, admitted, hi]

/-- A command that was taken before does not matter to those who send more. -/
theorem act_tail {c : Channel} {command : Command} {rest : List Command}
    (hq : c.queued = some (command :: rest)) (a : SenderAct) :
    ({ c with queued := some rest } : Channel).act a =
      { c.act a with queued := some (rest ++ c.admitted a) } := by
  cases a with
  | clone =>
    rw [act, act, clone, clone, admitted, List.append_nil]
    split <;> rfl
  | leave => simp only [act, dropSenders, admitted, List.append_nil]
  | send i command =>
    by_cases hi : i < c.senders
    · simp [act, send, admitted, hi, hq]
    · simp [act, send, admitted, hi]

theorem admitted_tail {c : Channel} {command : Command} {rest : List Command}
    (hq : c.queued = some (command :: rest)) (a : SenderAct) :
    ({ c with queued := some rest } : Channel).admitted a = c.admitted a := by
  cases a with
  | clone => rfl
  | leave => rfl
  | send i command => simp [admitted, hq]

end Channel

structure Exchange (β ν : Type) where
  relay : Relay β ν
  channel : Channel := {}
  ending : Option Ending := none
  queued : List Command := []
  handled : List (Handling β ν) := []

inductive Event (β : Type) where
  | sender (a : SenderAct)
  | meanwhile (f : β → β)
  | start
  /-- A turn after some time. The senders go on while it takes the commands and after that. -/
  | turn (elapsed : Nat) (taking : List (List SenderAct)) (during : List SenderAct)
  | close

namespace Exchange

def IsOpen (e : Exchange β ν) : Prop := e.ending = none ∨ e.ending = some .running

def commands (e : Exchange β ν) : List Command := e.handled.map (·.command)

def sender (a : SenderAct) (e : Exchange β ν) : Exchange β ν :=
  { e with channel := e.channel.act a, queued := e.queued ++ e.channel.admitted a }

def senders (acts : List SenderAct) (e : Exchange β ν) : Exchange β ν :=
  acts.foldl (fun e a => e.sender a) e

/-- Takes the commands one by one until there is none, after what the senders do before each; and
all that are there, once the senders do nothing more. -/
def take : List (List SenderAct) → Exchange β ν → List Command × Exchange β ν
  | [], e => (e.channel.drain.1.getD [], { e with channel := e.channel.drain.2 })
  | acts :: taking, e =>
    let e := e.senders acts
    match e.channel.queued with
    | some (command :: rest) =>
      let (taken, e) := take taking { e with channel := { e.channel with queued := some rest } }
      (command :: taken, e)
    | some [] | none => ([], e)

variable [Broker β] [Notifier ν]

def start (e : Exchange β ν) : Exchange β ν :=
  let (ending, relay) := Relay.run [] e.relay
  { e with relay, ending := some ending }

def turn (elapsed : Nat) (taking : List (List SenderAct)) (e : Exchange β ν) : Exchange β ν :=
  let (arrivals, e) := e.take taking
  let t : Turn := { elapsed, arrivals }
  let (ending, relay) := Relay.resume [t] e.relay
  { e with relay, ending := some ending, handled := e.handled ++ Relay.handlingsOf t e.relay }

def perform (event : Event β) (e : Exchange β ν) : Exchange β ν :=
  match event, e.ending with
  | .sender a, _ => e.sender a
  | .meanwhile f, _ => { e with relay := { e.relay with broker := f e.relay.broker } }
  | .start, none => e.start
  | .turn elapsed taking during, some .running => (e.turn elapsed taking).senders during
  | .close, some .stopped | .close, some (.failed _) => { e with channel := e.channel.close }
  | _, _ => e

def after (events : List (Event β)) (e : Exchange β ν) : Exchange β ν :=
  events.foldl (fun e event => e.perform event) e

structure Sound (e : Exchange β ν) : Prop where
  queue : e.relay.queue = []
  taken : e.commands <+: e.queued
  waiting : e.IsOpen → ∃ waiting, e.channel.queued = some waiting ∧ e.queued = e.commands ++ waiting
  goesOn : e.IsOpen → ∀ h ∈ e.handled, ¬h.Final
  goesPast : ∀ past h later, e.handled = past ++ h :: later → later ≠ [] → ¬h.Final
  counted : ∀ k, e.relay.desk.metrics.applied k = Relay.countOf k e.handled

variable {e : Exchange β ν}

theorem Sound.sender (he : e.Sound) (a : SenderAct) : (e.sender a).Sound where
  queue := he.queue
  taken := he.taken.trans (List.prefix_append e.queued _)
  waiting hopen := by
    obtain ⟨waiting, hchannel, hqueued⟩ := he.waiting hopen
    refine ⟨waiting ++ e.channel.admitted a, ?_, ?_⟩
    · exact (Channel.queued_act a e.channel).trans (by rw [hchannel]; rfl)
    · show e.queued ++ e.channel.admitted a = e.commands ++ (waiting ++ e.channel.admitted a)
      rw [hqueued, List.append_assoc]
  goesOn := he.goesOn
  goesPast := he.goesPast
  counted := he.counted

theorem Sound.senders (he : e.Sound) (acts : List SenderAct) : (e.senders acts).Sound := by
  induction acts generalizing e with
  | nil => exact he
  | cons a acts ih => exact ih (he.sender a)

section Senders

omit [Broker β] [Notifier ν]

/-- Senders only add to what is queued. -/
theorem kept_senders (acts : List SenderAct) (e : Exchange β ν) :
    (e.senders acts).relay = e.relay ∧ (e.senders acts).ending = e.ending ∧
      (e.senders acts).handled = e.handled ∧ e.queued <+: (e.senders acts).queued := by
  induction acts generalizing e with
  | nil => exact ⟨rfl, rfl, rfl, List.prefix_rfl⟩
  | cons a acts ih =>
    obtain ⟨hrelay, hending, hhandled, hqueued⟩ := ih (e.sender a)
    exact ⟨hrelay, hending, hhandled, (List.prefix_append e.queued _).trans hqueued⟩

theorem senders_tail {command : Command} {rest : List Command}
    (hq : e.channel.queued = some (command :: rest)) (acts : List SenderAct) :
    ∃ more, (e.senders acts).channel.queued = some (command :: (rest ++ more)) ∧
      ({ e with channel := { e.channel with queued := some rest } } : Exchange β ν).senders acts =
        { e.senders acts with
          channel := { (e.senders acts).channel with queued := some (rest ++ more) } } := by
  induction acts generalizing e rest with
  | nil => exact ⟨[], by rw [List.append_nil]; exact hq, by rw [List.append_nil]; rfl⟩
  | cons a acts ih =>
    have hnext : (e.sender a).channel.queued = some (command :: (rest ++ e.channel.admitted a)) :=
      (Channel.queued_act a e.channel).trans (by rw [hq]; rfl)
    obtain ⟨more, hqueued, htail⟩ := ih hnext
    refine ⟨e.channel.admitted a ++ more, ?_, ?_⟩
    · rw [← List.append_assoc]
      exact hqueued
    · rw [← List.append_assoc]
      refine Eq.trans (congrArg (Exchange.senders acts) ?_) htail
      simp only [sender, Channel.act_tail hq, Channel.admitted_tail hq]

theorem take_of_queued {taken : List Command} (hq : e.channel.queued = some taken) :
    e.take [] = (taken, { e with channel := { e.channel with queued := some [] } }) := by
  simp only [take, Channel.drain, hq, Option.getD_some, Option.map_some]

theorem take_of_empty (hq : e.channel.queued.getD [] = []) : e.take [] = ([], e) := by
  obtain ⟨r, ⟨n, queued⟩, ending, sent, handled⟩ := e
  cases queued with
  | none => rfl
  | some waiting =>
    cases hq
    rfl

/-- It makes no difference that the senders go on while the commands are taken. What they do until
there is none left might as well come before. -/
theorem take_eq (taking : List (List SenderAct)) (e : Exchange β ν) :
    ∃ before, e.take taking = (e.senders before).take [] := by
  induction taking generalizing e with
  | nil => exact ⟨[], rfl⟩
  | cons acts taking ih =>
    rw [take]
    cases hq : (e.senders acts).channel.queued with
    | none => exact ⟨acts, (take_of_empty (by rw [hq]; rfl)).symm⟩
    | some waiting =>
      cases waiting with
      | nil => exact ⟨acts, (take_of_empty (by rw [hq]; rfl)).symm⟩
      | cons command rest =>
        obtain ⟨before, hbefore⟩ := ih
          { e.senders acts with
            channel := { (e.senders acts).channel with queued := some rest } }
        obtain ⟨more, hmore, htail⟩ := senders_tail hq before
        have hall : e.senders (acts ++ before) = (e.senders acts).senders before := by
          rw [senders, senders, senders, List.foldl_append]
        refine ⟨acts ++ before, ?_⟩
        rw [htail, take_of_queued rfl] at hbefore
        simp only [hbefore, hall, take_of_queued hmore]

end Senders

/-- What a turn does, if it is given these commands. -/
theorem turn_of_waiting {waiting : List Command} (hq : e.channel.queued = some waiting)
    (elapsed : Nat) :
    e.turn elapsed [] =
      { e with
        relay := (Relay.resume [{ elapsed, arrivals := waiting }] e.relay).2
        channel := { e.channel with queued := some [] }
        ending := some (Relay.resume [{ elapsed, arrivals := waiting }] e.relay).1
        handled := e.handled ++ Relay.handlingsOf { elapsed, arrivals := waiting } e.relay } := by
  simp only [turn, take_of_queued hq]

theorem commands_turn {waiting : List Command} (hq : e.channel.queued = some waiting)
    (elapsed : Nat) :
    (e.turn elapsed []).commands =
      e.commands ++
        (Relay.handlingsOf { elapsed, arrivals := waiting } e.relay).map (·.command) := by
  rw [turn_of_waiting hq, commands, commands, List.map_append]

theorem turn_eq (elapsed : Nat) (taking : List (List SenderAct)) (e : Exchange β ν) :
    ∃ before, e.turn elapsed taking = (e.senders before).turn elapsed [] := by
  obtain ⟨before, htake⟩ := take_eq taking e
  exact ⟨before, by rw [turn, turn, htake]⟩

theorem Sound.quiet_turn [OnlyTells β] (he : e.Sound) (hrun : e.ending = some .running)
    (elapsed : Nat) : (e.turn elapsed []).Sound := by
  obtain ⟨waiting, hq, hqueued⟩ := he.waiting (Or.inr hrun)
  have hgoes := he.goesOn (Or.inr hrun)
  have hturn := turn_of_waiting hq elapsed
  have hcommands := commands_turn hq elapsed
  -- had one of the commands ended the run, the turn would have ended it too
  have hnone (hopen : (e.turn elapsed []).IsOpen) :
      ∀ h ∈ Relay.handlingsOf { elapsed, arrivals := waiting } e.relay, ¬h.Final := by
    intro h hh hfinal
    rw [hturn] at hopen
    rcases hopen with hopen | hopen
    · cases hopen
    · exact Relay.not_running_of_final hh hfinal (Option.some.inj hopen)
  have hkept : (e.turn elapsed []).queued = e.commands ++ waiting := by
    rw [hturn]
    exact hqueued
  rw [Relay.handlingsOf_of_idle _ he.queue] at hnone hcommands
  constructor
  case queue =>
    rw [hturn]
    exact Relay.queue_resume _ e.relay
  case taken =>
    rw [hcommands, hkept]
    exact (List.prefix_append_right_inj e.commands).2 (Relay.command_handlings _ _)
  case waiting =>
    intro hopen
    refine ⟨[], by rw [hturn], ?_⟩
    rw [hcommands, hkept, Relay.command_handlings_of_not_final (hnone hopen), List.append_nil]
  case goesOn =>
    intro hopen h hh
    rw [hturn, Relay.handlingsOf_of_idle _ he.queue] at hh
    exact (List.mem_append.1 hh).elim (hgoes h) (hnone hopen h)
  case goesPast =>
    intro past h later heq hlater
    rw [hturn] at heq
    exact Relay.not_final_of_append hgoes heq hlater
  case counted =>
    intro k
    rw [hturn]
    show (Relay.resume _ e.relay).2.desk.metrics.applied k = _
    rw [Relay.applied_resume, he.counted, Relay.countOf, Relay.countOf, Relay.countOf,
      List.countP_append]

theorem Sound.turn [OnlyTells β] (he : e.Sound) (hrun : e.ending = some .running) (elapsed : Nat)
    (taking : List (List SenderAct)) : (e.turn elapsed taking).Sound := by
  obtain ⟨before, hturn⟩ := turn_eq elapsed taking e
  have hstill : (e.senders before).ending = some .running :=
    (kept_senders before e).2.1.trans hrun
  rw [hturn]
  exact (he.senders before).quiet_turn hstill elapsed

theorem Sound.start [OnlyTells β] (he : e.Sound) (hnone : e.ending = none) : e.start.Sound :=
  have hstart := Relay.sameCommands_start e.relay
  have hopen : e.IsOpen := Or.inl hnone
  ⟨hstart.queue.trans he.queue, he.taken, fun _ => he.waiting hopen, fun _ => he.goesOn hopen,
    he.goesPast, fun k => (hstart.applied k).trans (he.counted k)⟩

theorem Sound.close (he : e.Sound) (hover : ¬e.IsOpen) :
    ({ e with channel := e.channel.close } : Exchange β ν).Sound :=
  ⟨he.queue, he.taken, fun hopen => absurd hopen hover, he.goesOn, he.goesPast, he.counted⟩

theorem Sound.perform [OnlyTells β] (he : e.Sound) (event : Event β) :
    (e.perform event).Sound := by
  unfold Exchange.perform
  split
  next a => exact he.sender a
  next f => exact ⟨he.queue, he.taken, he.waiting, he.goesOn, he.goesPast, he.counted⟩
  next hnone => exact he.start hnone
  next elapsed taking during hrun => exact (he.turn hrun elapsed taking).senders during
  next hstopped => exact he.close (by simp [IsOpen, hstopped])
  next hfailed => exact he.close (by simp [IsOpen, hfailed])
  next => exact he

theorem Sound.after [OnlyTells β] (he : e.Sound) (events : List (Event β)) :
    (e.after events).Sound := by
  induction events generalizing e with
  | nil => exact he
  | cons event events ih => exact ih (he.perform event)

def opened (settings : RelaySettings) (b : β) (notifier : ν) (now : Nat) : Exchange β ν :=
  { relay := .create settings b notifier now }

theorem sound_opened (settings : RelaySettings) (b : β) (notifier : ν) (now : Nat) :
    (opened settings b notifier now).Sound where
  queue := rfl
  taken := List.prefix_rfl
  waiting _ := ⟨[], rfl, rfl⟩
  goesOn _ h hh := by cases hh
  goesPast past h later heq _ := by cases past <;> cases heq
  counted _ := rfl

def CameTo (x : EStateM.Result Halt (Relay β ν) Flow) (e : Exchange β ν) : Prop :=
  ∃ ending, Relay.settle (Relay.endOf x) = (ending, e.relay) ∧ e.ending = some ending

/-- What comes of a turn in which the relay obeys the commands that were taken. -/
structure Handles (e next : Exchange β ν) (r : Relay β ν) (taken : List Command) : Prop where
  handled : next.handled = e.handled ++ Relay.handlings taken r
  reached : ∀ i < taken.length, (∀ h ∈ (Relay.handlings taken r).take i, ¬h.Final) →
    (Relay.handlings taken r)[i]?.map (·.command) = taken[i]?
  works : (∀ h ∈ Relay.handlings taken r, ¬h.Final) →
    ∃ s, Relay.obeyAll taken r = .ok .goOn s ∧ next.CameTo (Relay.work s)
  ends : ∀ h ∈ Relay.handlings taken r, h.Final → next.CameTo (Relay.obey h.command h.before)

theorem perform_turn (hrun : e.ending = some .running) (elapsed : Nat)
    (taking : List (List SenderAct)) (during : List SenderAct) :
    e.perform (.turn elapsed taking during) = (e.turn elapsed taking).senders during := by
  simp only [perform, hrun]

/-- A turn takes at least what waits before it. -/
theorem Sound.handles_turn (he : e.Sound) (hrun : e.ending = some .running) (elapsed : Nat)
    (taking : List (List SenderAct)) (during : List SenderAct) :
    let next := e.perform (.turn elapsed taking during)
    ∃ waiting taken, e.queued = e.commands ++ waiting ∧ waiting <+: taken ∧
      e.commands ++ taken <+: next.queued ∧
      Handles e next { e.relay with now := e.relay.now + elapsed } taken := by
  intro next
  obtain ⟨before, hturn⟩ := turn_eq elapsed taking e
  have hnext : next = ((e.senders before).turn elapsed []).senders during :=
    (perform_turn hrun elapsed taking during).trans (congrArg _ hturn)
  obtain ⟨hsame, hstill, hsofar, hmore⟩ := kept_senders before e
  have hcommands : (e.senders before).commands = e.commands := by rw [commands, commands, hsofar]
  obtain ⟨waiting, -, hwaiting⟩ := he.waiting (Or.inr hrun)
  obtain ⟨taken, hq, htaken⟩ := (he.senders before).waiting (Or.inr (hstill.trans hrun))
  obtain ⟨hrelay, hending, hhandled, hqueued⟩ :=
    kept_senders during ((e.senders before).turn elapsed [])
  rw [← hnext, turn_of_waiting hq, hsame, hsofar] at hrelay hending hhandled hqueued
  let t : Turn := { elapsed, arrivals := taken }
  have hidle : Relay.handlingsOf t e.relay = Relay.handlings taken _ :=
    Relay.handlingsOf_of_idle t he.queue
  have hcame {x} (hx : Relay.resume [t] e.relay = Relay.settle (Relay.endOf x)) :
      next.CameTo x := ⟨_, by rw [← hx, hrelay], hending⟩
  refine ⟨waiting, taken, hwaiting, ?_, hcommands ▸ htaken ▸ hqueued, ?_⟩
  · rw [hwaiting, htaken, hcommands] at hmore
    exact (List.prefix_append_right_inj e.commands).1 hmore
  constructor
  case handled => exact hhandled.trans (congrArg _ hidle)
  case reached => exact fun i hi hearlier => Relay.getElem?_handlings hi hearlier
  case works =>
    intro hnone
    obtain ⟨s, ho, hresume⟩ := Relay.resume_of_not_final (hidle ▸ hnone)
    obtain ⟨hqueue, hrest⟩ := Relay.await_of_idle t he.queue
    rw [hqueue, hrest] at ho
    exact ⟨s, ho, hcame hresume⟩
  case ends => exact fun h hh hfinal => hcame (Relay.resume_of_final (hidle ▸ hh) hfinal)

/-- Of the commands that were queued, the relay handles the first ones, each once and in order. It
goes past none that stops it or fails, and counts all that it handles. A turn comes to every command
that waited before it, unless one before ends the run, and goes on to its other work only after all
of them. -/
theorem commands_are_handled_once [OnlyTells β] (settings : RelaySettings) (b : β) (notifier : ν)
    (now : Nat) (events : List (Event β)) (elapsed : Nat) (taking : List (List SenderAct))
    (during : List SenderAct) :
    let e := (opened settings b notifier now).after events
    e.handled.map (·.command) <+: e.queued ∧
      (∀ past h k later, e.handled = past ++ h :: k :: later →
        h.command ≠ .stop ∧ ∃ flow s, Relay.obey h.command h.before = .ok flow s) ∧
      (∀ k, e.relay.desk.metrics.applied k = e.handled.countP fun h => h.command.kind = k) ∧
      (e.ending = some .running →
        let next := e.perform (.turn elapsed taking during)
        ∃ waiting taken, e.queued = e.handled.map (·.command) ++ waiting ∧ waiting <+: taken ∧
          e.handled.map (·.command) ++ taken <+: next.queued ∧
          Handles e next { e.relay with now := e.relay.now + elapsed } taken) := by
  intro e
  have he : e.Sound := (sound_opened settings b notifier now).after events
  refine ⟨he.taken, fun past h k later heq => ?_, he.counted,
    fun hrun => he.handles_turn hrun elapsed taking during⟩
  have hfinal := he.goesPast past h (k :: later) heq (List.cons_ne_nil k later)
  obtain ⟨s, ho⟩ := Relay.not_final_iff.1 hfinal
  exact ⟨fun hstop => hfinal (Or.inl hstop), .goOn, s, ho⟩

def interruption : List (Event ScriptedBroker) :=
  [.sender .clone, .sender (.send 0 .committedOffsets), .start, .sender (.send 1 .stop)]

def interrupted : Exchange ScriptedBroker Host :=
  after interruption (opened ⟨["t"], some "g", 0, 1000, {}⟩ {} Host.listening 0)

/-- The other sender comes too late, though its command is taken with the rest. -/
theorem command_behind_stop_is_not_handled :
    let next := interrupted.perform (.turn 5 [[], [.send 0 .committedOffsets]] [.send 1 .stop])
    interrupted.ending = some .running ∧
      next.queued = [.committedOffsets, .stop, .committedOffsets, .stop] ∧
      next.handled.map (·.command) = [.committedOffsets, .stop] ∧
      ∃ taken r, [.committedOffsets, .stop] <+: taken ∧ Handles interrupted next r taken := by
  have hrun : interrupted.ending = some .running := by decide +kernel
  have hnone : interrupted.handled.map (·.command) = [] := by decide +kernel
  have hsent : interrupted.queued = [.committedOffsets, .stop] := by decide +kernel
  have hhandled := commands_are_handled_once ⟨["t"], some "g", 0, 1000, {}⟩ ({} : ScriptedBroker)
    Host.listening 0 interruption 5 [[], [.send 0 .committedOffsets]] [.send 1 .stop]
  obtain ⟨waiting, taken, hwaiting, htaken, -, hturn⟩ := hhandled.2.2.2 hrun
  obtain rfl : interrupted.queued = waiting := hwaiting.trans (congrArg (· ++ waiting) hnone)
  exact ⟨hrun, by decide +kernel, by decide +kernel, taken, _, hsent ▸ htaken, hturn⟩

end Exchange

end AckRelay
