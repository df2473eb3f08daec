import AckRelay.Proofs.Relay.Commands
import AckRelay.Proofs.Relay.Life
import AckRelay.Proofs.Relay.Polls

namespace AckRelay.Relay

variable {ν : Type} [Notifier ν] {r s : Relay ScriptedBroker ν} {a : Act}

inductive Step (r s : Relay ScriptedBroker ν) : Act → Prop
  | started (hheld : r.desk.mode.held?.isSome = true) (hq : Quiet r s) : Step r s .start
  | assumed (hheld : r.desk.mode.held? = none) (ha : Assumed r s) : Step r s .start
  | passed (t : Round) (hq : Quiet r s) : Step r s (.await t)
  | reported (hq : Quiet r s) : Step r s (.obey .committedOffsets)
  | ignored (pos : Position) (hi : r.ignores pos.partition = true) (hq : Quiet r s) :
      Step r s (.obey (.ack pos))
  | acknowledged (pos : Position) (hi : r.ignores pos.partition = false) (ha : Acked pos r s) :
      Step r s (.obey (.ack pos))
  | balanced (hb : Balanced r s) : Step r s .balance
  | idled (hq : Quiet r s) : Step r s .flush
  | committed (offsets : Offsets) (hc : Committed offsets r s) : Step r s .flush
  | received (hr : Received r s) : Step r s .receive

theorem quiet_pass (t : Round) (r : Relay ScriptedBroker ν) : Quiet r (pass t r) :=
  ⟨rfl, rfl, rfl, rfl, rfl, rfl, .refl _⟩

theorem step_of_perform (h : perform a r = .ok .goOn s) : Step r s a := by
  cases a with
  | start =>
    have hs := ok_of_bind_pure h
    cases hm : r.desk.mode with
    | grouped batch => exact .started (by rw [hm]; rfl) (quiet_start hm hs)
    | anonymous catchUp => exact .assumed (by rw [hm]; rfl) (assumed_start hm hs)
  | await t =>
    have hs := ok_of_bind_pure h
    cases hs
    exact .passed t (quiet_pass t r)
  | obey c =>
    rcases obey_eq_goOn h with ⟨rfl, hq⟩ | ⟨pos, rfl, hp⟩
    · exact .reported hq
    · split at hp
      · next hi => exact .ignored pos hi hp
      · next hi => exact .acknowledged pos (Bool.not_eq_true _ ▸ hi) hp
  | balance => exact .balanced (balanced_of_ok (ok_of_bind_pure h))
  | flush =>
    rcases flush_eq_ok (ok_of_bind_pure h) with ⟨hq, -⟩ | ⟨offsets, hc⟩
    · exact .idled hq
    · exact .committed offsets hc
  | receive => exact .received (received_of_ok (ok_of_bind_pure h))

def Calls (r s : Relay ScriptedBroker ν) : Act → Prop
  | .flush => Flushes false r s
  | .obey .stop => Flushes true r s
  | .receive => HandsOver r s
  | .start | .await _ | .obey (.ack _) | .obey .committedOffsets | .obey (.unrecognized _)
  | .balance => Uncommitted r s

omit [Notifier ν] in
theorem Calls.cases (h : Calls r s a) :
    Uncommitted r s ∨ (∃ forced, Flushes forced r s) ∨ HandsOver r s := by
  cases a with
  | flush => exact Or.inr (Or.inl ⟨false, h⟩)
  | receive => exact Or.inr (Or.inr h)
  | start => exact Or.inl h
  | await t => exact Or.inl h
  | balance => exact Or.inl h
  | obey c =>
    cases c with
    | stop => exact Or.inr (Or.inl ⟨true, h⟩)
    | ack pos => exact Or.inl h
    | committedOffsets => exact Or.inl h
    | unrecognized raw => exact Or.inl h

theorem calls_perform (a : Act) (r : Relay ScriptedBroker ν) : Calls r (endState (perform a) r) a := by
  cases a with
  | start =>
    have hs : endState (perform .start) r = endState start r := endState_bind_pure start Flow.goOn r
    rw [hs]
    exact (silent_start.mono id And.left).atEnd r
  | await t => rfl
  | obey c =>
    have h := calls_obey c r
    cases c with
    | ack pos => exact h
    | committedOffsets => exact h
    | stop => exact h
    | unrecognized raw => exact h
  | balance =>
    have hs : endState (perform .balance) r = endState balance r :=
      endState_bind_pure balance Flow.goOn r
    rw [hs]
    exact (silent_balance.mono id And.left).atEnd r
  | flush =>
    have hs : endState (perform .flush) r = endState (flush false) r :=
      endState_bind_pure (flush false) Flow.goOn r
    rw [hs]
    exact flushes_flush false r
  | receive =>
    have hs : endState (perform .receive) r = endState receive r :=
      endState_bind_pure receive Flow.goOn r
    rw [hs]
    exact handsOver_receive r

/-- Only an acknowledgement that finds nothing to release is blamed on the host, and only a poll can
bring so much that the relay dies of it. -/
theorem blame_of_perform {e : Halt} (h : perform a r = .error e s) :
    e.Blameless ∨ (e = .crashed ∧ a = .receive ∧ r.Overflows) ∨
      ∃ pos, a = .obey (.ack pos) ∧ e = .failed (.protocolViolation pos.partition) ∧
        r.ignores pos.partition = false ∧ r.desk.flow.acknowledge? pos.partition = none := by
  cases a with
  | start => exact Or.inl (silent_start.error (error_of_bind_pure h)).2
  | await t => cases error_of_bind_pure h
  | obey c =>
    rcases obey_eq_error h with he | ⟨pos, rfl, he⟩
    · exact Or.inl he
    · exact Or.inr (Or.inr ⟨pos, rfl, he⟩)
  | balance => exact Or.inl (silent_balance.error (error_of_bind_pure h)).2
  | flush => exact Or.inl (flush_eq_error (error_of_bind_pure h)).2
  | receive =>
    rcases receive_eq_error (error_of_bind_pure h) with he | ⟨he, hover⟩
    · exact Or.inl he
    · exact Or.inr (Or.inl ⟨he, rfl, hover⟩)

section Run

theorem Step.queue (h : Step r s a) : s.queue = r.queue := by
  cases h with
  | started _ hq => exact hq.queue
  | assumed _ ha => exact ha.queue
  | passed _ hq => exact hq.queue
  | reported hq => exact hq.queue
  | ignored _ _ hq => exact hq.queue
  | acknowledged _ _ ha => exact ha.queue
  | balanced hb => exact hb.queue
  | idled hq => exact hq.queue
  | committed _ hc => exact hc.queue
  | received hr => exact hr.queue

theorem queue_of_live {as : List Act} (h : live as r = (.running, s)) : s.queue = r.queue := by
  induction as generalizing r with
  | nil =>
    cases h
    rfl
  | cons a as ih =>
    rw [live] at h
    cases hp : perform a r with
    | error e t =>
      rw [hp] at h
      cases e <;> cases h
    | ok flow t =>
      rw [hp] at h
      cases flow with
      | stop => cases h
      | goOn => exact (ih h).trans (step_of_perform hp).queue

theorem turns_eq_live (ts : List Turn) (r : Relay ScriptedBroker ν) (hq : r.queue = []) :
    turns ts r = live ((ts.map Round.ofTurn).flatMap Round.acts) r := by
  -- by induction on the turns; each leaves the queue empty for the next
  induction ts generalizing r with
  | nil => rfl
  | cons t ts ih =>
    have hacts := live_acts t r hq
    rw [List.map_cons, List.flatMap_cons, live_append, hacts, turns]
    cases ht : turn (r.await t) with
    | error e s => cases e <;> rfl
    | ok flow s =>
      cases flow with
      | stop => rfl
      | goOn =>
        rw [ht] at hacts
        exact ih s ((queue_of_live hacts).trans hq)

/-- A run is a life of the same turns. -/
theorem run_eq_live (ts : List Turn) (r : Relay ScriptedBroker ν) (hq : r.queue = []) :
    run ts r = settle (live (lifeOf (ts.map Round.ofTurn)) r) := by
  rw [run, lifeOf, live, perform, bind_apply]
  cases hs : start r with
  | error e s => rfl
  | ok u s =>
    have hstart : perform .start r = .ok .goOn s := by rw [perform, bind_apply, hs]; rfl
    have hqueue := (step_of_perform hstart).queue.trans hq
    exact congrArg settle (turns_eq_live ts s hqueue)

end Run

end AckRelay.Relay
