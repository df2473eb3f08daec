import AckRelay.Proofs.Broker.Scripted
import AckRelay.Proofs.Notifier
import AckRelay.Relay.Loop

namespace AckRelay

def Halt.Blameless (h : Halt) : Prop := ∃ e, h = .failed e ∧ ∀ p, e ≠ .protocolViolation p

theorem Halt.blameless_broker (e : BrokerError) : (Halt.failed (.broker e)).Blameless :=
  ⟨.broker e, rfl, fun _ hp => by cases hp⟩

theorem Halt.blameless_notify (e : NotifyError) : (Halt.failed (.notify e)).Blameless :=
  ⟨.notify e, rfl, fun _ hp => by cases hp⟩

/-- A failure of the broker or of the writer is not a crash. -/
theorem Halt.Blameless.ne_crashed {h : Halt} (hb : h.Blameless) : h ≠ .crashed := by
  obtain ⟨e, rfl, -⟩ := hb
  intro hcrashed
  cases hcrashed

def Mode.held? : Mode → Option Offsets
  | .grouped batch => some batch.pending
  | .anonymous _ => none

namespace Relay

variable {ν α : Type} {r s t : Relay ScriptedBroker ν}

section Any

variable {β : Type}

@[simp]
theorem measure_apply (f : Metrics → Metrics) (r : Relay β ν) :
    measure f r = .ok () { r with desk := { r.desk with metrics := f r.desk.metrics } } := rfl

/-- What the broker refuses ends the relay with the error of the broker. -/
theorem ask_apply (op : EStateM BrokerError β α) (r : Relay β ν) :
    ask op r =
      match op r.broker with
      | .ok a b => .ok a { r with broker := b }
      | .error e b => .error (.failed (.broker e)) { r with broker := b } := by
  rw [ask]
  cases op r.broker <;> rfl

/-- What an operation of the broker does to the broker, the relay that asks for it does to its own.
-/
theorem ends_ask {R : Relay β ν → Relay β ν → Prop} {E : Relay β ν → Halt → Relay β ν → Prop}
    {op : EStateM BrokerError β α}
    (hr : ∀ r a b, op r.broker = .ok a b → R r { r with broker := b })
    (he : ∀ r e b, op r.broker = .error e b → E r (.failed (.broker e)) { r with broker := b }) :
    Ends R E (ask op) := by
  constructor
  · intro r a s hs
    rw [ask_apply] at hs
    cases ho : op r.broker with
    | ok b c =>
      rw [ho] at hs
      cases hs
      exact hr r _ _ ho
    | error e c =>
      rw [ho] at hs
      cases hs
  · intro r e s hs
    rw [ask_apply] at hs
    cases ho : op r.broker with
    | ok b c =>
      rw [ho] at hs
      cases hs
    | error e c =>
      rw [ho] at hs
      cases hs
      exact he r _ _ ho

/-- A notification that cannot be written ends the relay, with the writer as the attempt left it. -/
theorem tell_apply [Notifier ν] (n : Notification) (r : Relay β ν) :
    tell n r =
      match Notifier.emit n r.desk.notifier with
      | .ok () w => .ok () { r with desk := { r.desk with notifier := w } }
      | .error e w => .error (.failed (.notify e)) { r with desk := { r.desk with notifier := w } } := by
  rw [tell, Desk.tell]
  cases Notifier.emit n r.desk.notifier <;> rfl

theorem endState_tell [Notifier ν] (n : Notification) (r : Relay β ν) :
    endState (tell n) r =
      { r with
        desk := { r.desk with notifier := endState (Notifier.emit n) r.desk.notifier } } := by
  simp only [endState, tell_apply]
  cases Notifier.emit n r.desk.notifier <;> rfl

/-- Tracking a record fails only where its size does not fit into the sum. -/
theorem track_apply (record : Record) (r : Relay β ν) :
    track record r =
      match r.desk.flow.deliver? record.partition record.size with
      | some flow => .ok () (r.setFlow flow)
      | none => .error .crashed r := by
  simp only [track, bind_apply, get_apply]
  cases r.desk.flow.deliver? record.partition record.size <;> rfl

/-- Tracking a record changes flow control, or nothing if the relay dies of it. -/
theorem ends_track {R : Relay β ν → Relay β ν → Prop} {E : Relay β ν → Halt → Relay β ν → Prop}
    {record : Record} (hr : ∀ r flow, R r (r.setFlow flow)) (he : ∀ r, E r .crashed r) :
    Ends R E (track record) := by
  constructor
  · intro r u s h
    rw [track_apply] at h
    cases hf : r.desk.flow.deliver? record.partition record.size <;> rw [hf] at h <;> cases h
    exact hr r _
  · intro r e s h
    rw [track_apply] at h
    cases hf : r.desk.flow.deliver? record.partition record.size <;> rw [hf] at h <;> cases h
    exact he r

theorem track_eq_ok {record : Record} {u : Unit} {r s : Relay β ν} (h : track record r = .ok u s) :
    ∃ flow, r.desk.flow.deliver? record.partition record.size = some flow ∧
      s = r.setFlow flow := by
  rw [track_apply] at h
  cases hf : r.desk.flow.deliver? record.partition record.size <;> rw [hf] at h <;> cases h
  exact ⟨_, rfl, rfl⟩

end Any

def Uncommitted (r s : Relay ScriptedBroker ν) : Prop :=
  s.broker.commitCalls = r.broker.commitCalls

def Harmless (r : Relay ScriptedBroker ν) (e : Halt) (s : Relay ScriptedBroker ν) : Prop :=
  Uncommitted r s ∧ e.Blameless

abbrev Silent (op : EStateM Halt (Relay ScriptedBroker ν) α) : Prop :=
  Ends Uncommitted Harmless op

/-- To commit nothing is kept from one operation to the next. -/
theorem chains_uncommitted : Chains (Uncommitted (ν := ν)) Harmless where
  refl _ := rfl
  trans hs ht := ht.trans hs
  error hs he := ⟨he.1.trans hs, he.2⟩

theorem chains_noCommit :
    Chains (Uncommitted (ν := ν)) (fun r (_ : Halt) s => Uncommitted r s) :=
  ⟨chains_uncommitted.refl, chains_uncommitted.trans, chains_uncommitted.trans⟩

/-- A request that changes nothing in the log but its own note is silent. -/
theorem silent_change {call : Call} (hcall : call.commit? = none)
    {f : ScriptedBroker → ScriptedBroker} (hf : ∀ b, (f b).commitCalls = b.commitCalls) :
    Silent (ask (do ScriptedBroker.note call; modify f) :
      EStateM Halt (Relay ScriptedBroker ν) Unit) := by
  refine ends_ask (fun r _ c ho => ?_) (fun r e c ho => ?_)
  · rcases ScriptedBroker.change_cases call f r.broker with hb | ⟨e, hb⟩ <;> rw [hb] at ho <;>
      cases ho
    simp [Uncommitted, hf, hcall]
  · rcases ScriptedBroker.change_cases call f r.broker with hb | ⟨e', hb⟩ <;> rw [hb] at ho <;>
      cases ho
    exact ⟨by simp [Uncommitted, hcall], Halt.blameless_broker _⟩

/-- A change of the broker that succeeds has been noted and done. -/
theorem change_eq_ok {call : Call} {f : ScriptedBroker → ScriptedBroker} {u : Unit}
    (h : ask (do ScriptedBroker.note call; modify f) r = .ok u s) :
    s = { r with broker := f (r.broker.noted call) } := by
  rw [ask_apply] at h
  rcases ScriptedBroker.change_cases call f r.broker with hb | ⟨e, hb⟩ <;> rw [hb] at h <;> cases h
  rfl

theorem chains_still :
    Chains (fun r s : Relay ScriptedBroker ν => ScriptedBroker.Still r.broker s.broker)
      (fun r (_ : Halt) s => ScriptedBroker.Still r.broker s.broker) :=
  ⟨fun _ => ⟨rfl, rfl, rfl⟩, ScriptedBroker.Still.trans, ScriptedBroker.Still.trans⟩

theorem still_ask {op : EStateM BrokerError ScriptedBroker α} (h : ScriptedBroker.StaysStill op) :
    Ends (fun r s : Relay ScriptedBroker ν => ScriptedBroker.Still r.broker s.broker)
      (fun r _ s => ScriptedBroker.Still r.broker s.broker) (ask op) :=
  ends_ask (fun _ _ _ ho => h.ok ho) (fun _ _ _ ho => h.error ho)

variable [Notifier ν]

structure Quiet (r s : Relay ScriptedBroker ν) : Prop where
  queue : s.queue = r.queue
  held : s.desk.mode.held? = r.desk.mode.held?
  flow : s.desk.flow = r.desk.flow
  assignment : s.broker.assignment = r.broker.assignment
  paused : s.broker.paused = r.broker.paused
  commitCalls : s.broker.commitCalls = r.broker.commitCalls
  told : HearsNoRecords r.desk.notifier s.desk.notifier

namespace Quiet

theorem refl (r : Relay ScriptedBroker ν) : Quiet r r :=
  ⟨rfl, rfl, rfl, rfl, rfl, rfl, .refl _⟩

theorem trans (hs : Quiet r s) (ht : Quiet s t) : Quiet r t := by
  exact ⟨ht.queue.trans hs.queue, ht.held.trans hs.held, ht.flow.trans hs.flow,
    ht.assignment.trans hs.assignment, ht.paused.trans hs.paused,
    ht.commitCalls.trans hs.commitCalls, hs.told.trans ht.told⟩

theorem of_phase (r : Relay ScriptedBroker ν) (phase : Phase) : Quiet r { r with phase } :=
  ⟨rfl, rfl, rfl, rfl, rfl, rfl, .refl _⟩

theorem chains : Chains (Quiet (ν := ν)) Harmless where
  refl := refl
  trans := trans
  error hs he := ⟨he.1.trans hs.commitCalls, he.2⟩

end Quiet

abbrev Calm (op : EStateM Halt (Relay ScriptedBroker ν) α) : Prop := Ends Quiet Harmless op

theorem Calm.silent {op : EStateM Halt (Relay ScriptedBroker ν) α} (h : Calm op) :
    Silent op :=
  h.mono (fun hq => hq.commitCalls) id

theorem calm_ask {op : EStateM BrokerError ScriptedBroker α} (h : ScriptedBroker.StaysStill op) :
    Calm (ask op : EStateM Halt (Relay ScriptedBroker ν) α) := by
  refine ends_ask (fun r a b ho => ?_) (fun r e b ho => ?_)
  · have hb := h.ok ho
    exact ⟨rfl, rfl, rfl, hb.assignment, hb.paused, hb.commitCalls, .refl _⟩
  · exact ⟨(h.error ho).commitCalls, Halt.blameless_broker e⟩

theorem calm_measure (f : Metrics → Metrics) :
    Calm (measure f : EStateM Halt (Relay ScriptedBroker ν) Unit) :=
  Ends.modify fun _ => ⟨rfl, rfl, rfl, rfl, rfl, rfl, .refl _⟩

theorem silent_tell (n : Notification) :
    Silent (tell n : EStateM Halt (Relay ScriptedBroker ν) Unit) := by
  constructor
  · intro r a s hs
    rw [tell_apply] at hs
    cases he : Notifier.emit n r.desk.notifier <;> rw [he] at hs <;> cases hs
    rfl
  · intro r e s hs
    rw [tell_apply] at hs
    cases he : Notifier.emit n r.desk.notifier <;> rw [he] at hs <;> cases hs
    exact ⟨rfl, Halt.blameless_notify _⟩

/-- A notification that is told has been taken by the notifier. -/
theorem tell_eq_ok {n : Notification} {u : Unit} (h : tell n r = .ok u s) :
    ∃ w, Takes [n] r.desk.notifier w ∧ s = { r with desk := { r.desk with notifier := w } } := by
  rw [tell_apply] at h
  cases he : Notifier.emit n r.desk.notifier with
  | ok _ w =>
    rw [he] at h
    cases h
    exact ⟨w, .one he, rfl⟩
  | error e w =>
    rw [he] at h
    cases h

theorem calm_tell {n : Notification} (hn : n.isOfRecords = false) :
    Calm (tell n : EStateM Halt (Relay ScriptedBroker ν) Unit) := by
  refine ⟨fun hs => ?_, (silent_tell n).error⟩
  obtain ⟨w, hw, rfl⟩ := tell_eq_ok hs
  exact ⟨rfl, rfl, rfl, rfl, rfl, rfl, .one hw hn⟩

end Relay

end AckRelay
