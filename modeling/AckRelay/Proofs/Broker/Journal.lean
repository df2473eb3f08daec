import AckRelay.Broker.Consumer
import AckRelay.Proofs.Outcome

/-!
A client that keeps a journal of its polls and of the rebalances that it has to complete. A consumer
with a journal does what it does without one, whatever the client is, and the journal tells in which
order: here for one poll of the client (`pollClient_journaled`), for one rebalance
(`dispatch_journaled`) and for all that are pending (`dispatched_all`).
-/

namespace AckRelay

variable {κ σ τ ε α : Type}

inductive JournalEntry where
  | polled (wait : Nat) (outcome : Polled) (raised : List RebalanceEvent)
  | told (change : Rebalance)
  | completed (event : RebalanceEvent)
  deriving DecidableEq, Repr

structure Journaled (κ : Type) where
  client : κ
  /-- What has happened, oldest first. -/
  journal : List JournalEntry
  deriving DecidableEq

namespace Journaled

def lift (op : EStateM ClientError κ α) : EStateM ClientError (Journaled κ) α := fun c =>
  match op c.client with
  | .ok a client => .ok a { c with client }
  | .error e client => .error e { c with client }

variable [Rebalancing κ]

def complete (event : RebalanceEvent) : EStateM ClientError (Journaled κ) Unit := fun c =>
  lift (Rebalancing.complete event) { c with journal := c.journal ++ [.completed event] }

def poll (timeout : Nat) (c : Journaled κ) : Polled × List RebalanceEvent × Journaled κ :=
  let (outcome, raised, client) := Client.poll timeout c.client
  (outcome, raised, ⟨client, c.journal ++ [.polled timeout outcome raised]⟩)

instance : Rebalancing (Journaled κ) where
  subscribe topics := lift (Client.subscribe topics)
  unsubscribe c := { c with client := Client.unsubscribe c.client }
  assign ps := lift (Client.assign ps)
  unassign := lift Client.unassign
  assignment := lift Client.assignment
  pause ps := lift (Client.pause ps)
  resume ps := lift (Client.resume ps)
  store positions := lift (Client.store positions)
  stored timeout ps := lift (Client.stored timeout ps)
  endOffset timeout p := lift (Client.endOffset timeout p)
  metadata timeout topic := lift (Client.metadata timeout topic)
  poll := poll
  complete := complete

end Journaled

def inState (f : σ → τ) : EStateM.Result ε σ α → EStateM.Result ε τ α
  | .ok a s => .ok a (f s)
  | .error e s => .error e (f s)

theorem endState_inState {op : EStateM ε σ α} {op' : EStateM ε τ α} {f : σ → τ} {s : σ} {t : τ}
    (h : op' t = inState f (op s)) : endState op' t = f (endState op s) := by
  rw [endState, endState, h]
  cases op s <;> rfl

namespace Consumer

def withJournal (journal : List JournalEntry) (c : Consumer κ) : Consumer (Journaled κ) :=
  { c with client := ⟨c.client, journal⟩ }

def plain (c : Consumer (Journaled κ)) : Consumer κ := { c with client := c.client.client }

def journaledAt (journal : List JournalEntry) (w : Consumer κ × σ) : Consumer (Journaled κ) × σ :=
  (w.1.withJournal journal, w.2)

end Consumer

def afterCommits {β : Type} (commit : Committer β) (commits : List Offsets) (b : β) : β :=
  commits.foldl (fun b offsets => endState (commit offsets) b) b

namespace Listener

variable [Rebalancing κ]

/-- The listener beside a journal, in which it writes what it is told. -/
def journaled (l : Listener (Consumer κ) σ ε) : Listener (Consumer (Journaled κ)) σ ε where
  notify _ change := fun (c, s) =>
    inState (Consumer.journaledAt (c.client.journal ++ [.told change]))
      (l.notify Consumer.commit change (c.plain, s))
  refuse := l.refuse

/-- Whatever it is told and whether or not it fails, all that a listener does with the consumer is
to commit, as often as it likes. -/
def OnlyCommits (l : Listener (Consumer κ) σ ε) : Prop :=
  ∀ change c s, ∃ commits,
    (endState (l.notify Consumer.commit change) (c, s)).1 = afterCommits Consumer.commit commits c

end Listener

namespace Consumer

section Ask

variable (tag : String) (op : EStateM ClientError κ α) (c : Consumer κ) (j : List JournalEntry)

/-- A request to the client leaves no mark in the journal. -/
theorem ask_journaled :
    ask tag (Journaled.lift op) (c.withJournal j) = inState (withJournal j) (ask tag op c) := by
  rw [ask, ask, Journaled.lift, withJournal]
  cases op c.client <;> rfl

end Ask

def OnlyClient (c d : Consumer κ) : Prop := ∃ client, d = { c with client }

namespace OnlyClient

variable {c d e : Consumer κ}

theorem refl (c : Consumer κ) : OnlyClient c c := ⟨c.client, rfl⟩

theorem trans (hd : OnlyClient c d) (he : OnlyClient d e) : OnlyClient c e := by
  obtain ⟨_, rfl⟩ := hd
  obtain ⟨client, rfl⟩ := he
  exact ⟨client, rfl⟩

theorem closing (h : OnlyClient c d) : d.closing = c.closing := by
  obtain ⟨_, rfl⟩ := h
  rfl

theorem ask (tag : String) (op : EStateM ClientError κ α) (c : Consumer κ) :
    OnlyClient c (endState (Consumer.ask tag op) c) := by
  rw [endState, Consumer.ask]
  cases op c.client with
  | ok a client => exact ⟨client, rfl⟩
  | error e client => exact ⟨client, rfl⟩

theorem foldl {f : Consumer κ → α → Consumer κ} (hf : ∀ c a, OnlyClient c (f c a)) (as : List α)
    (c : Consumer κ) : OnlyClient c (as.foldl f c) := by
  induction as generalizing c with
  | nil => exact refl c
  | cons a as ih => exact (hf c a).trans (ih (f c a))

variable [Rebalancing κ]

/-- A commit may change the client, whether it is refused or not. -/
theorem commit (offsets : Offsets) (c : Consumer κ) :
    OnlyClient c (endState (Consumer.commit offsets) c) := by
  rw [endState, Consumer.commit]
  cases successors? offsets.entries with
  | ok positions => exact ask _ _ c
  | error e => exact refl c

/-- A listener that only commits can reach nothing but the client. -/
theorem notify {l : Listener (Consumer κ) σ ε} (hl : l.OnlyCommits) (change : Rebalance)
    (c : Consumer κ) (s : σ) :
    OnlyClient c (endState (l.notify Consumer.commit change) (c, s)).1 := by
  obtain ⟨commits, hcommits⟩ := hl change c s
  rw [hcommits]
  exact foldl (fun c offsets => commit offsets c) commits c

end OnlyClient

variable [Rebalancing κ]

/-- The client says what is assigned, whether or not it keeps a journal. -/
theorem assignment_journaled (c : Consumer κ) (j : List JournalEntry) :
    ask Operation.assignment.name Client.assignment (c.withJournal j) =
      inState (withJournal j) (ask Operation.assignment.name Client.assignment c) :=
  ask_journaled _ Client.assignment c j

/-! ### Completing -/

section Complete

variable (event : RebalanceEvent) (c : Consumer κ) (j : List JournalEntry)

/-- A rebalance is written down as it is passed to the client. -/
theorem complete_journaled :
    complete event (c.withJournal j) =
      inState (withJournal (j ++ [.completed event])) (complete event c) :=
  ask_journaled "rebalance" (Rebalancing.complete event) c (j ++ [JournalEntry.completed event])

theorem completeQuietly_journaled :
    (c.withJournal j).completeQuietly event =
      (c.completeQuietly event).withJournal (j ++ [.completed event]) := by
  rw [completeQuietly, completeQuietly, complete_journaled]
  cases complete event c <;> rfl

theorem completeQuietly_eq : c.completeQuietly event = endState (complete event) c := by
  rw [completeQuietly, endState]
  cases complete event c <;> rfl

theorem onlyClient_completeQuietly : OnlyClient c (c.completeQuietly event) := by
  rw [completeQuietly_eq]
  exact OnlyClient.ask _ _ c

end Complete

section CompleteAll

variable (events : List RebalanceEvent)

theorem onlyClient_completeAll (c : Consumer κ) :
    OnlyClient c (events.foldl completeQuietly c) :=
  OnlyClient.foldl (fun c event => onlyClient_completeQuietly event c) events c

/-- Rebalances are completed in their order, each of them once. -/
theorem completeAll_journaled (c : Consumer κ) (j : List JournalEntry) :
    events.foldl completeQuietly (c.withJournal j) =
      (events.foldl completeQuietly c).withJournal (j ++ events.map .completed) := by
  induction events generalizing c j with
  | nil => rw [List.map_nil, List.append_nil, List.foldl_nil, List.foldl_nil]
  | cons event events ih =>
    rw [List.foldl_cons, List.foldl_cons, completeQuietly_journaled, ih, List.append_assoc]
    rfl

end CompleteAll

/-! ### Raising -/

def queued (closing : Bool) (raised : List RebalanceEvent) : List RebalanceEvent :=
  if closing then [] else raised

def inPlace (closing : Bool) (raised : List RebalanceEvent) : List RebalanceEvent :=
  if closing then raised else []

section RaiseAll

variable (raised : List RebalanceEvent) (c : Consumer κ) (j : List JournalEntry)

/-- While the consumer closes nothing is queued. -/
theorem raiseAll_of_closing {c : Consumer κ} (h : c.closing = true) :
    raised.foldl raise c = raised.foldl completeQuietly c := by
  induction raised generalizing c with
  | nil => rfl
  | cons event raised ih =>
    have hfirst : c.raise event = c.completeQuietly event := by rw [raise, if_pos h]
    rw [List.foldl_cons, List.foldl_cons, hfirst]
    apply ih
    exact (onlyClient_completeQuietly event c).closing.trans h

/-- Until it closes a consumer only queues what is raised. -/
theorem raiseAll_of_open {c : Consumer κ} (h : c.closing = false) :
    raised.foldl raise c = { c with pending := c.pending ++ raised } := by
  induction raised generalizing c with
  | nil => rw [List.foldl_nil, List.append_nil]
  | cons event raised ih =>
    have hfirst : c.raise event = { c with pending := c.pending ++ [event] } := by
      rw [raise, h]
      rfl
    have hrest := @ih (c.raise event) (by rw [hfirst]; exact h)
    rw [List.foldl_cons, hrest, hfirst, List.append_assoc]
    rfl

theorem raiseAll_journaled :
    raised.foldl raise (c.withJournal j) =
      (raised.foldl raise c).withJournal (j ++ (inPlace c.closing raised).map .completed) := by
  have hsame : (c.withJournal j).closing = c.closing := rfl
  cases h : c.closing with
  | true =>
    rw [raiseAll_of_closing raised (hsame.trans h), raiseAll_of_closing raised h]
    exact completeAll_journaled raised c j
  | false =>
    rw [raiseAll_of_open raised (hsame.trans h), raiseAll_of_open raised h, inPlace,
      if_neg Bool.false_ne_true, List.map_nil, List.append_nil]
    rfl

theorem raiseAll_eq :
    ∃ client, raised.foldl raise c =
      { c with client, pending := c.pending ++ queued c.closing raised } := by
  rw [queued]
  split
  · next h =>
    obtain ⟨client, hall⟩ := onlyClient_completeAll raised c
    exact ⟨client, by rw [raiseAll_of_closing raised h, hall, List.append_nil]⟩
  · next h => exact ⟨c.client, raiseAll_of_open raised (eq_false_of_ne_true h)⟩

end RaiseAll

def noticed (timeout : Nat) (c : Consumer κ) : List RebalanceEvent :=
  (Client.poll timeout c.client).2.1

section PollClient

variable (timeout : Nat) (c : Consumer κ) (j : List JournalEntry)

/-- What the client noticed is written down, and after it what is complete at once. -/
theorem pollClient_journaled :
    pollClient timeout (c.withJournal j) =
      ((pollClient timeout c).1,
        (pollClient timeout c).2.withJournal
          (j ++ .polled timeout (pollClient timeout c).1 (c.noticed timeout) ::
            (inPlace c.closing (c.noticed timeout)).map .completed)) := by
  have hraise := raiseAll_journaled (c.noticed timeout)
    { c with client := (Client.poll timeout c.client).2.2 }
    (j ++ [.polled timeout (Client.poll timeout c.client).1 (c.noticed timeout)])
  rw [List.append_assoc] at hraise
  exact Prod.ext rfl hraise

/-- After a poll of the client the queue is longer by what it noticed, unless the consumer closes.
-/
theorem pollClient_eq :
    ∃ client, (pollClient timeout c).2 =
      { c with client, pending := c.pending ++ queued c.closing (c.noticed timeout) } :=
  raiseAll_eq (c.noticed timeout) { c with client := (Client.poll timeout c.client).2.2 }

end PollClient

/-! ### Telling -/

/-- What a listener was told of an event. Of a failure of the group it is told which partitions were
owned, unless that is unknown. -/
inductive Telling where
  | change (change : Rebalance)
  | failed (code : ClientCode) (owned : Option (List Partition))
  deriving DecidableEq, Repr

namespace Telling

def event : Telling → RebalanceEvent
  | .change r => .change r
  | .failed code _ => .failed code

def change? : Telling → Option Rebalance
  | .change r => some r
  | .failed _ owned => owned.map .lost

def released (t : Telling) : List Partition := (t.change?.map Rebalance.released).getD []

/-- The listener is told first, and the rebalance is completed right after. -/
def journal (t : Telling) : List JournalEntry :=
  (t.change?.map JournalEntry.told).toList ++ [.completed t.event]

end Telling

def owned? (c : Consumer κ) : Option (List Partition) :=
  match ask Operation.assignment.name Client.assignment c with
  | .ok ps _ => some ps
  | .error _ _ => none

def telling (event : RebalanceEvent) (c : Consumer κ) : Telling :=
  match event with
  | .change change => .change change
  | .failed code => .failed code c.owned?

theorem event_telling (event : RebalanceEvent) (c : Consumer κ) :
    (telling event c).event = event := by
  cases event <;> rfl

section Meaning

variable (c : Consumer κ)

/-- All that the client holds assigned is lost, if it can say what that is. -/
theorem meaning_failed (code : ClientCode) :
    meaning (.failed code) c =
      match ask Operation.assignment.name Client.assignment c with
      | .ok ps d => .ok (.lost ps) d
      | .error e d => .error e d := by
  rw [meaning, bind_apply]
  cases ask Operation.assignment.name Client.assignment c <;> rfl

theorem meaning_journaled (event : RebalanceEvent) (j : List JournalEntry) :
    meaning event (c.withJournal j) = inState (withJournal j) (meaning event c) := by
  cases event with
  | change change => rfl
  | failed code =>
    rw [meaning_failed, meaning_failed, assignment_journaled]
    cases ask Operation.assignment.name Client.assignment c <;> rfl

/-- Only for a failure of the group the client is asked, and it may not know. -/
theorem meaning_cases (event : RebalanceEvent) :
    (∃ change d, meaning event c = .ok change d ∧ (telling event c).change? = some change ∧
      OnlyClient c d) ∨
    ∃ e d, meaning event c = .error e d ∧ (telling event c).change? = none ∧ OnlyClient c d := by
  cases event with
  | change change => exact .inl ⟨change, c, rfl, rfl, .refl c⟩
  | failed code =>
    have hend := OnlyClient.ask Operation.assignment.name Client.assignment c
    have htelling : (telling (.failed code) c).change? = c.owned?.map .lost := rfl
    rw [htelling, meaning_failed, owned?]
    cases ha : ask Operation.assignment.name Client.assignment c with
    | ok ps d =>
      rw [endState_of_ok ha] at hend
      exact .inl ⟨.lost ps, d, rfl, rfl, hend⟩
    | error e d =>
      rw [endState_of_error ha] at hend
      exact .inr ⟨e, d, rfl, rfl, hend⟩

end Meaning

/-! ### Dispatching -/

section Tell

variable (l : Listener (Consumer κ) σ ε) (event : RebalanceEvent) (c : Consumer κ) (s : σ)

/-- The listener is told of a rebalance once, before anything else is written down. -/
theorem tell_journaled (j : List JournalEntry) :
    tell l.journaled event (c.withJournal j, s) =
      inState (journaledAt (j ++ ((telling event c).change?.map JournalEntry.told).toList))
        (tell l event (c, s)) := by
  rw [tell, tell, meaning_journaled]
  rcases meaning_cases c event with
    ⟨change, d, hmeaning, htelling, -⟩ | ⟨e, d, hmeaning, htelling, -⟩
  · have htold : l.journaled.notify commit change (d.withJournal j, s) =
        inState (journaledAt (j ++ [.told change])) (l.notify commit change (d, s)) := rfl
    rw [hmeaning, htelling]
    simp only [inState, htold]
    cases l.notify commit change (d, s) <;> rfl
  · rw [hmeaning, htelling, Option.map_none, Option.toList_none, List.append_nil]
    rfl

theorem onlyClient_tell {l : Listener (Consumer κ) σ ε} (hl : l.OnlyCommits) :
    OnlyClient c (endState (tell l event) (c, s)).1 := by
  rw [endState, tell]
  rcases meaning_cases c event with
    ⟨change, d, hmeaning, -, hasked⟩ | ⟨e, d, hmeaning, -, hasked⟩
  · have hnotify := OnlyClient.notify hl change d s
    rw [endState] at hnotify
    rw [hmeaning]
    simp only
    cases hn : l.notify commit change (d, s) with
    | ok u w =>
      rw [hn] at hnotify
      exact hasked.trans hnotify
    | error e w =>
      rw [hn] at hnotify
      exact hasked.trans hnotify
  · rw [hmeaning]
    exact hasked

/-- The partitions that are given up are those of which the listener was told. -/
theorem released_of_tell {released : List Partition} {w : Consumer κ × σ}
    (h : tell l event (c, s) = .ok released w) : (telling event c).released = released := by
  rw [tell] at h
  rcases meaning_cases c event with ⟨change, d, hmeaning, htelling, -⟩ | ⟨e, d, hmeaning, -, -⟩
  · rw [Telling.released, htelling]
    rw [hmeaning] at h
    simp only at h
    cases hn : l.notify commit change (d, s) with
    | ok u w =>
      rw [hn] at h
      cases h
      rfl
    | error e w =>
      rw [hn] at h
      cases h
  · rw [hmeaning] at h
    cases h

end Tell

section Dispatch

variable (l : Listener (Consumer κ) σ ε) (event : RebalanceEvent) (c : Consumer κ) (s : σ)

/-- It is completed whatever the listener says. -/
theorem dispatch_eq :
    dispatch l event (c, s) =
      match tell l event (c, s) with
      | .ok released w =>
        match complete event w.1 with
        | .ok () c => .ok released (c, w.2)
        | .error e c => .error (l.refuse e) (c, w.2)
      | .error e w =>
        match complete event w.1 with
        | .ok () c => .error e (c, w.2)
        | .error e c => .error (l.refuse e) (c, w.2) := by
  rw [dispatch]
  cases tell l event (c, s) with
  | ok released w =>
    simp only
    cases complete event w.1 <;> rfl
  | error e w =>
    simp only
    cases complete event w.1 <;> rfl

/-- A rebalance is completed right after the listener was told of it. -/
theorem dispatch_journaled (j : List JournalEntry) :
    dispatch l.journaled event (c.withJournal j, s) =
      inState (journaledAt (j ++ (telling event c).journal)) (dispatch l event (c, s)) := by
  rw [dispatch_eq, dispatch_eq, tell_journaled, Telling.journal, event_telling, ← List.append_assoc]
  cases tell l event (c, s) with
  | ok released w =>
    simp only [inState, journaledAt, complete_journaled]
    cases complete event w.1 <;> rfl
  | error e w =>
    simp only [inState, journaledAt, complete_journaled]
    cases complete event w.1 <;> rfl

/-- The state after a dispatch does not depend on whether the listener failed. -/
theorem endState_dispatch :
    (endState (dispatch l event) (c, s)).1 =
      (endState (tell l event) (c, s)).1.completeQuietly event := by
  rw [endState, endState, dispatch_eq]
  cases tell l event (c, s) with
  | ok released w =>
    simp only [completeQuietly]
    cases complete event w.1 <;> rfl
  | error e w =>
    simp only [completeQuietly]
    cases complete event w.1 <;> rfl

theorem onlyClient_dispatch {l : Listener (Consumer κ) σ ε} (hl : l.OnlyCommits) :
    OnlyClient c (endState (dispatch l event) (c, s)).1 := by
  rw [endState_dispatch]
  exact (onlyClient_tell event c s hl).trans (onlyClient_completeQuietly event _)

theorem released_of_dispatch {released : List Partition} {w : Consumer κ × σ}
    (h : dispatch l event (c, s) = .ok released w) : (telling event c).released = released := by
  rw [dispatch_eq] at h
  cases ht : tell l event (c, s) with
  | error e v =>
    simp only [ht] at h
    cases hc : complete event v.1 <;> rw [hc] at h <;> cases h
  | ok gone v =>
    simp only [ht] at h
    cases hc : complete event v.1 <;> rw [hc] at h <;> cases h
    exact released_of_tell l event c s ht

end Dispatch

section DispatchAll

variable (l : Listener (Consumer κ) σ ε) {c d : Consumer κ} {s t : σ} {event : RebalanceEvent}
  {rest : List RebalanceEvent}

theorem dispatchAll_of_nil (h : c.pending = []) (s : σ) : dispatchAll l (c, s) = .ok [] (c, s) := by
  simp only [dispatchAll, bind_apply, get_apply, h]
  rfl

theorem dispatchAll_of_ok {gone : List Partition} (h : c.pending = event :: rest)
    (hfirst : dispatch l event ({ c with pending := rest }, s) = .ok gone (d, t))
    (hrest : d.pending = rest) :
    dispatchAll l (c, s) =
      match dispatchAll l (d, t) with
      | .ok released w => .ok (gone ++ released) w
      | .error e w => .error e w := by
  simp only [dispatchAll, dispatchEach, bind_apply, get_apply, modify_apply, h, hfirst, hrest]
  cases dispatchEach l rest (d, t) <;> rfl

/-- After one that fails the rest of the queue stays as it is. -/
theorem dispatchAll_of_error {e : ε} (h : c.pending = event :: rest)
    (hfirst : dispatch l event ({ c with pending := rest }, s) = .error e (d, t)) :
    dispatchAll l (c, s) = .error e (d, t) := by
  simp only [dispatchAll, dispatchEach, bind_apply, get_apply, modify_apply, h, hfirst]

end DispatchAll

structure Dispatched (l : Listener (Consumer κ) σ ε) (c : Consumer κ) (s : σ)
    (told : List Telling) (left : List RebalanceEvent) : Prop where
  pending : c.pending = told.map Telling.event ++ left
  journaled : ∀ j, dispatchAll l.journaled (c.withJournal j, s) =
    inState (journaledAt (j ++ told.flatMap Telling.journal)) (dispatchAll l (c, s))
  atEnd : ∃ client, (endState (dispatchAll l) (c, s)).1 = { c with client, pending := left }
  ok : ∀ {released w}, dispatchAll l (c, s) = .ok released w →
    left = [] ∧ released = told.flatMap Telling.released

namespace Dispatched

variable {l : Listener (Consumer κ) σ ε} {c d : Consumer κ} {s t : σ} {event : RebalanceEvent}
  {rest : List RebalanceEvent}

theorem of_nil (h : c.pending = []) : Dispatched l c s [] [] := by
  have hnone := dispatchAll_of_nil l h s
  refine ⟨h, fun j => ?_, ⟨c.client, ?_⟩, fun hok => ?_⟩
  · have hjournaled : (c.withJournal j).pending = [] := h
    rw [dispatchAll_of_nil _ hjournaled, hnone, List.flatMap_nil, List.append_nil]
    rfl
  · rw [endState_of_ok hnone, ← h]
  · rw [hnone] at hok
    cases hok
    exact ⟨rfl, rfl⟩

/-- The event that fails has been dispatched like any other, and it is the last one. -/
theorem of_error {e : ε} (h : c.pending = event :: rest)
    (hfirst : dispatch l event ({ c with pending := rest }, s) = .error e (d, t))
    (hclient : OnlyClient { c with pending := rest } d) :
    Dispatched l c s [telling event { c with pending := rest }] rest := by
  have hfailed := dispatchAll_of_error l h hfirst
  refine ⟨?_, fun j => ?_, ?_, fun hok => ?_⟩
  · rw [h, List.map_singleton, event_telling, List.singleton_append]
  · have hpending : (c.withJournal j).pending = event :: rest := h
    have hjournaled := dispatch_journaled l event { c with pending := rest } s j
    rw [hfirst] at hjournaled
    rw [dispatchAll_of_error _ hpending hjournaled, hfailed, List.flatMap_singleton]
    rfl
  · rw [endState_of_error hfailed]
    exact hclient
  · rw [hfailed] at hok
    cases hok

/-- A dispatch that succeeds comes in front of those of the rest of the queue. -/
theorem cons {gone : List Partition} {told : List Telling} {left : List RebalanceEvent}
    (h : c.pending = event :: rest)
    (hfirst : dispatch l event ({ c with pending := rest }, s) = .ok gone (d, t))
    (hclient : OnlyClient { c with pending := rest } d) (hrest : Dispatched l d t told left) :
    Dispatched l c s (telling event { c with pending := rest } :: told) left := by
  obtain ⟨client, rfl⟩ := hclient
  have hall := dispatchAll_of_ok l h hfirst rfl
  refine ⟨?_, fun j => ?_, ?_, fun hok => ?_⟩
  · rw [h, List.map_cons, List.cons_append, ← hrest.pending, event_telling]
  · have hpending : (c.withJournal j).pending = event :: rest := h
    have hjournaled := dispatch_journaled l event { c with pending := rest } s j
    have hnext := hrest.journaled (j ++ (telling event { c with pending := rest }).journal)
    rw [hfirst] at hjournaled
    rw [List.append_assoc] at hnext
    rw [dispatchAll_of_ok _ hpending hjournaled rfl, hall, hnext, List.flatMap_cons]
    cases dispatchAll l ({ c with client, pending := rest }, t) <;> rfl
  · obtain ⟨client', hend⟩ := hrest.atEnd
    refine ⟨client', ?_⟩
    rw [endState] at hend ⊢
    rw [hall]
    cases hr : dispatchAll l ({ c with client, pending := rest }, t) <;>
      simpa only [hr] using hend
  · rw [hall] at hok
    cases hr : dispatchAll l ({ c with client, pending := rest }, t) with
    | error e w =>
      rw [hr] at hok
      cases hok
    | ok released w =>
      rw [hr] at hok
      cases hok
      obtain ⟨hleft, hreleased⟩ := hrest.ok hr
      rw [List.flatMap_cons, hreleased, released_of_dispatch l event _ s hfirst]
      exact ⟨hleft, rfl⟩

end Dispatched

/-- Of the queue a first part is dispatched in order, and the rest is left. -/
theorem dispatched_all {l : Listener (Consumer κ) σ ε} (hl : l.OnlyCommits) (c : Consumer κ)
    (s : σ) : ∃ told left, Dispatched l c s told left := by
  obtain ⟨pending, hpending⟩ : ∃ pending, c.pending = pending := ⟨_, rfl⟩
  -- by induction on the queue, of which each dispatch takes the first
  induction pending generalizing c s with
  | nil => exact ⟨[], [], .of_nil hpending⟩
  | cons event rest ih =>
    have hclient := onlyClient_dispatch event { c with pending := rest } s hl
    cases hd : dispatch l event ({ c with pending := rest }, s) with
    | error e w =>
      rw [endState_of_error hd] at hclient
      exact ⟨_, rest, .of_error hpending hd hclient⟩
    | ok gone w =>
      rw [endState_of_ok hd] at hclient
      obtain ⟨client, hd'⟩ := hclient
      obtain ⟨told, left, hrest⟩ := ih w.1 w.2 (by rw [hd'])
      exact ⟨_, left, .cons hpending hd ⟨client, hd'⟩ hrest⟩

end Consumer

end AckRelay
