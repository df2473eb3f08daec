import AckRelay.Proofs.Alike
import AckRelay.Proofs.Broker.Gathering
import AckRelay.Proofs.Relay.Frame

/-!
Every rebalance that the client of a consumer notices is completed once, and in order: whatever is
done with the consumer, the rebalances completed so far and those still pending are those that were
noticed (`rebalances_complete_once_in_order`). As soon as the consumer closes none is pending.
-/

namespace AckRelay

variable {κ σ ε : Type}

namespace JournalEntry

def raises : JournalEntry → List RebalanceEvent
  | .polled _ _ raised => raised
  | .told _ | .completed _ => []

def completes : JournalEntry → List RebalanceEvent
  | .completed event => [event]
  | .polled _ _ _ | .told _ => []

end JournalEntry

/-- The rebalances that the client has noticed, in order. -/
def raisedIn (journal : List JournalEntry) : List RebalanceEvent :=
  journal.flatMap JournalEntry.raises

/-- The rebalances that the client was to complete, in order. -/
def completedIn (journal : List JournalEntry) : List RebalanceEvent :=
  journal.flatMap JournalEntry.completes

section Accounts

variable (j k : List JournalEntry) (events : List RebalanceEvent) (told : List Consumer.Telling)

theorem raisedIn_append : raisedIn (j ++ k) = raisedIn j ++ raisedIn k := List.flatMap_append

theorem completedIn_append : completedIn (j ++ k) = completedIn j ++ completedIn k :=
  List.flatMap_append

theorem raisedIn_completed : raisedIn (events.map .completed) = [] := by
  induction events with
  | nil => rfl
  | cons event events ih => exact ih

theorem completedIn_completed : completedIn (events.map .completed) = events := by
  induction events with
  | nil => rfl
  | cons event events ih => exact congrArg (event :: ·) ih

/-- What the listener is told stands between what is noticed and what is completed. -/
theorem accounts_told (change? : Option Rebalance) :
    raisedIn (change?.map JournalEntry.told).toList = [] ∧
      completedIn (change?.map JournalEntry.told).toList = [] := by
  cases change? <;> exact ⟨rfl, rfl⟩

/-- Nothing is noticed while the listener is told. -/
theorem raisedIn_telling : raisedIn (told.flatMap Consumer.Telling.journal) = [] := by
  induction told with
  | nil => rfl
  | cons t told ih =>
    rw [List.flatMap_cons, raisedIn_append, ih, Consumer.Telling.journal, raisedIn_append,
      (accounts_told t.change?).1]
    rfl

/-- What the listener is told of is complete, each rebalance once. -/
theorem completedIn_telling :
    completedIn (told.flatMap Consumer.Telling.journal) = told.map Consumer.Telling.event := by
  induction told with
  | nil => rfl
  | cons t told ih =>
    rw [List.flatMap_cons, completedIn_append, ih, Consumer.Telling.journal, completedIn_append,
      (accounts_told t.change?).2]
    rfl

end Accounts

namespace Consumer

section Passes

variable (closing : Bool) (pass : Pass) (passes : List Pass)

theorem Pass.raisedIn_journal : raisedIn (pass.journal closing) = pass.raised := by
  change pass.raised ++ raisedIn (_ ++ _) = pass.raised
  rw [raisedIn_append, raisedIn_completed, raisedIn_telling, List.append_nil, List.append_nil]

/-- In a pass those rebalances are completed that are complete at once, and those that are
dispatched. -/
theorem Pass.completedIn_journal :
    completedIn (pass.journal closing) = inPlace closing pass.raised ++ pass.dispatched := by
  change completedIn (_ ++ _) = _
  rw [completedIn_append, completedIn_completed, completedIn_telling]
  rfl

theorem raisedIn_passes :
    raisedIn (passes.flatMap (Pass.journal · closing)) = passes.flatMap Pass.raised := by
  induction passes with
  | nil => rfl
  | cons pass passes ih =>
    rw [List.flatMap_cons, List.flatMap_cons, raisedIn_append, pass.raisedIn_journal, ih]

theorem completedIn_passes :
    completedIn (passes.flatMap (Pass.journal · closing)) =
      passes.flatMap fun pass => inPlace closing pass.raised ++ pass.dispatched := by
  induction passes with
  | nil => rfl
  | cons pass passes ih =>
    rw [List.flatMap_cons, List.flatMap_cons, completedIn_append, pass.completedIn_journal, ih]

end Passes

section Uses

/-! ### Requests -/

inductive Request where
  | subscribe (topics : List String)
  | assign (partitions : List Partition)
  | assignment
  | partitionsFor (topic : String)
  | endOffsets (partitions : List Partition)
  | committed (partitions : List Partition)
  | pause (partitions : List Partition)
  | resume (partitions : List Partition)
  | commit (offsets : Offsets)

variable [Rebalancing κ]

def Request.run : Request → EStateM BrokerError (Consumer κ) Unit
  | .subscribe topics => Broker.subscribe topics
  | .assign ps => Broker.assign ps
  | .assignment => do let _ ← Broker.assignment
  | .partitionsFor topic => do let _ ← Broker.partitionsFor topic
  | .endOffsets ps => do let _ ← Broker.endOffsets ps
  | .committed ps => do let _ ← Broker.committed ps
  | .pause ps => Broker.pause ps
  | .resume ps => Broker.resume ps
  | .commit offsets => Broker.commit offsets

structure SameQueue (c₀ : Consumer κ) (j : List JournalEntry) (c : Consumer κ)
    (d : Consumer (Journaled κ)) : Prop where
  journaled : d = c.withJournal j
  pending : c.pending = c₀.pending
  closing : c.closing = c₀.closing
  maxRecords : c.maxRecords = c₀.maxRecords

namespace SameQueue

variable {c₀ : Consumer κ} {j : List JournalEntry} {α : Type}

omit [Rebalancing κ] in
theorem ask (tag : String) (op : EStateM ClientError κ α) :
    Alike (SameQueue c₀ j) (Consumer.ask tag op) (Consumer.ask tag (Journaled.lift op)) := by
  rintro c d ⟨rfl, hpending, hclosing, hmax⟩
  rw [ask_journaled, Consumer.ask]
  cases op c.client with
  | ok a client => exact .ok a ⟨rfl, hpending, hclosing, hmax⟩
  | error e client => exact .error _ ⟨rfl, hpending, hclosing, hmax⟩

theorem subscribe (topics : List String) :
    Alike (SameQueue c₀ j) (Broker.subscribe topics) (Broker.subscribe topics) :=
  .bind (ask _ _) fun _ => .modify fun ⟨hjournaled, hpending, hclosing, hmax⟩ => by
    subst hjournaled
    exact ⟨rfl, hpending, hclosing, hmax⟩

theorem partitionsFor (topic : String) :
    Alike (SameQueue c₀ j) (Consumer.partitionsFor topic) (Consumer.partitionsFor topic) := by
  rw [Consumer.partitionsFor, Consumer.partitionsFor]
  refine .get_bind fun h => ?_
  obtain rfl := h.journaled
  refine .bind (ask _ _) fun topics => ?_
  split
  · exact .throw _
  · split
    · exact .throw _
    · split
      · exact .throw _
      · exact .pure _

theorem endOffsets (ps : List Partition) :
    Alike (SameQueue c₀ j) (Consumer.endOffsets ps) (Consumer.endOffsets ps) := by
  induction ps with
  | nil => exact .pure []
  | cons p ps ih =>
    refine .get_bind fun h => ?_
    obtain rfl := h.journaled
    exact .bind (ask _ _) fun o => .bind ih fun rest => .pure _

theorem committed (ps : List Partition) :
    Alike (SameQueue c₀ j) (Broker.committed ps) (Broker.committed ps) := by
  refine .get_bind fun h => ?_
  obtain rfl := h.journaled
  exact .bind (ask _ _) fun stored => .pure _

theorem commit (offsets : Offsets) :
    Alike (SameQueue c₀ j) (Consumer.commit offsets) (Consumer.commit offsets) := by
  rw [Consumer.commit, Consumer.commit]
  split
  · exact ask _ _
  · exact .throw _

/-- Requests between polls leave the queue and the journal as they are. -/
theorem run (r : Request) : Alike (SameQueue c₀ j) r.run r.run := by
  cases r with
  | subscribe topics => exact subscribe topics
  | assign ps => exact ask _ _
  | assignment => exact .bind (ask _ _) fun _ => .pure _
  | partitionsFor topic => exact .bind (partitionsFor topic) fun _ => .pure _
  | endOffsets ps => exact .bind (.bind (endOffsets ps) fun _ => .pure _) fun _ => .pure _
  | committed ps => exact .bind (committed ps) fun _ => .pure _
  | pause ps => exact ask _ _
  | resume ps => exact ask _ _
  | commit offsets => exact commit offsets

end SameQueue

/-! ### Closing -/

section Close

variable (c : Consumer κ) (j : List JournalEntry)

/-- What was pending is completed when the consumer begins to close. -/
theorem startClosing_journaled :
    (c.withJournal j).startClosing = c.startClosing.withJournal (j ++ c.pending.map .completed) :=
  completeAll_journaled c.pending { c with closing := true, pending := [] } j

theorem startClosing_eq :
    ∃ client, c.startClosing = { c with client, closing := true, pending := [] } :=
  onlyClient_completeAll c.pending { c with closing := true, pending := [] }

end Close

def quietPass (timeout : Nat) (c : Consumer κ) : Pass :=
  ⟨timeout, (pollClient timeout c).1, c.noticed timeout, []⟩

theorem pollClient_quietPass (timeout : Nat) (c : Consumer κ) (j : List JournalEntry) :
    (pollClient timeout (c.withJournal j)).2 =
      (pollClient timeout c).2.withJournal (j ++ (quietPass timeout c).journal c.closing) := by
  rw [pollClient_journaled, Pass.journal, quietPass, List.flatMap_nil, List.append_nil]

structure Awaited (polls : Nat) (c : Consumer κ) (passes : List Pass) : Prop where
  journaled : ∀ j, awaitRelease polls (c.withJournal j) =
    inState (withJournal (j ++ passes.flatMap (Pass.journal · true))) (awaitRelease polls c)
  told : ∀ pass ∈ passes, pass.told = []
  atEnd : OnlyClient c (endState (awaitRelease polls) c)

theorem onlyClient_pollClient (timeout : Nat) {c : Consumer κ} (hclosing : c.closing = true) :
    OnlyClient c (pollClient timeout c).2 := by
  obtain ⟨client, hpolled⟩ := pollClient_eq timeout c
  refine ⟨client, ?_⟩
  rw [hpolled, queued, if_pos hclosing, List.append_nil]

/-- It goes on as long as partitions are assigned and there are polls left. -/
theorem awaitRelease_eq (polls : Nat) (c : Consumer κ) :
    awaitRelease polls c =
      match ask Operation.assignment.name Client.assignment c with
      | .error e c => .error e c
      | .ok ps c =>
        if polls = 0 ∨ ps = [] then .ok () c
        else awaitRelease (polls - 1) (pollClient closingPollTime c).2 := by
  cases polls with
  | zero =>
    change EStateM.map _ (ask Operation.assignment.name Client.assignment) c = _
    rw [EStateM.map]
    cases ask Operation.assignment.name Client.assignment c with
    | error e c => rfl
    | ok ps c => exact (if_pos (Or.inl rfl)).symm
  | succ polls =>
    simp only [awaitRelease, bind_apply]
    cases ask Operation.assignment.name Client.assignment c with
    | error e c => rfl
    | ok ps c =>
      by_cases hps : ps = []
      · simp [hps]
      · simp [hps]

namespace Awaited

variable {polls : Nat} {c d : Consumer κ} {passes : List Pass}

/-- If the client cannot say what is assigned, the wait is over. -/
theorem of_error {e : BrokerError}
    (ha : ask Operation.assignment.name Client.assignment c = .error e d) : Awaited polls c [] := by
  have hend := OnlyClient.ask Operation.assignment.name Client.assignment c
  have hfailed : awaitRelease polls c = .error e d := by rw [awaitRelease_eq, ha]
  refine ⟨fun j => ?_, List.forall_mem_nil _, ?_⟩
  · rw [List.flatMap_nil, List.append_nil, hfailed, awaitRelease_eq, assignment_journaled, ha]
    rfl
  · rwa [endState_of_error hfailed, ← endState_of_error ha]

variable {ps : List Partition}
  (ha : ask Operation.assignment.name Client.assignment c = .ok ps d)
include ha

theorem of_stop (hstop : polls = 0 ∨ ps = []) : Awaited polls c [] := by
  have hend := OnlyClient.ask Operation.assignment.name Client.assignment c
  have hdone : awaitRelease polls c = .ok () d := by
    rw [awaitRelease_eq, ha]
    exact if_pos hstop
  refine ⟨fun j => ?_, List.forall_mem_nil _, ?_⟩
  · rw [List.flatMap_nil, List.append_nil, hdone, awaitRelease_eq, assignment_journaled, ha]
    exact if_pos hstop
  · rwa [endState_of_ok hdone, ← endState_of_ok ha]

/-- Otherwise one more quiet pass comes before the rest of the wait. -/
theorem more (hgo : ¬(polls = 0 ∨ ps = [])) (hclosing : d.closing = true)
    (hrest : Awaited (polls - 1) (pollClient closingPollTime d).2 passes) :
    Awaited polls c (quietPass closingPollTime d :: passes) := by
  have hend := OnlyClient.ask Operation.assignment.name Client.assignment c
  have hmore : awaitRelease polls c =
      awaitRelease (polls - 1) (pollClient closingPollTime d).2 := by
    rw [awaitRelease_eq, ha]
    exact if_neg hgo
  refine ⟨fun j => ?_, List.forall_mem_cons.2 ⟨rfl, hrest.told⟩, ?_⟩
  · rw [awaitRelease_eq, assignment_journaled, ha, hmore, List.flatMap_cons, ← List.append_assoc]
    refine (if_neg hgo).trans ?_
    rw [pollClient_quietPass, hclosing]
    exact hrest.journaled _
  · rw [endState_of_ok ha] at hend
    rw [endState_congr hmore]
    exact (hend.trans (onlyClient_pollClient closingPollTime hclosing)).trans hrest.atEnd

end Awaited

/-- While it waits for the release of its partitions a consumer only makes quiet passes. -/
theorem awaited (polls : Nat) {c : Consumer κ} (hclosing : c.closing = true) :
    ∃ passes, Awaited polls c passes := by
  -- strong induction, so that the last question is a case of the one that ends the loop early
  induction polls using Nat.strong_induction_on generalizing c with
  | _ polls ih =>
    have hend := OnlyClient.ask Operation.assignment.name Client.assignment c
    cases ha : ask Operation.assignment.name Client.assignment c with
    | error e d => exact ⟨[], .of_error ha⟩
    | ok ps d =>
      by_cases hstop : polls = 0 ∨ ps = []
      · exact ⟨[], .of_stop ha hstop⟩
      · rw [endState_of_ok ha] at hend
        have hasked : d.closing = true := hend.closing.trans hclosing
        have hpolled : (pollClient closingPollTime d).2.closing = true :=
          (onlyClient_pollClient closingPollTime hasked).closing.trans hasked
        obtain ⟨passes, hrest⟩ := ih (polls - 1) (by omega) hpolled
        exact ⟨_, .more ha hstop hasked hrest⟩

theorem close_eq (c : Consumer κ) :
    close c =
      if c.startClosing.subscribed = true then
        awaitRelease ((c.startClosing.timeout + closingPollTime - 1) / closingPollTime)
          { c.startClosing with client := Client.unsubscribe c.startClosing.client }
      else ask Operation.close.name Client.unassign c.startClosing := by
  simp only [close, bind_apply, modify_apply, get_apply]
  split <;> rfl

/-- To close is to complete what is pending, and then to let the client go on alone. -/
theorem close_quiet (c : Consumer κ) :
    ∃ passes : List Pass,
      (∀ j, close (c.withJournal j) =
        inState
          (withJournal (j ++ c.pending.map .completed ++ passes.flatMap (Pass.journal · true)))
          (close c)) ∧
        (∀ pass ∈ passes, pass.told = []) ∧
        ∃ client, endState close c = { c with client, closing := true, pending := [] } := by
  obtain ⟨client, hstart⟩ := startClosing_eq c
  have hjournaled := startClosing_journaled c
  have hclosing : c.startClosing.closing = true := by rw [hstart]
  by_cases hsubscribed : c.startClosing.subscribed = true
  · have hclose := (close_eq c).trans (if_pos hsubscribed)
    obtain ⟨passes, hawaited⟩ := awaited
      ((c.startClosing.timeout + closingPollTime - 1) / closingPollTime)
      (c := { c.startClosing with client := Client.unsubscribe c.startClosing.client }) hclosing
    refine ⟨passes, fun j => ?_, hawaited.told, ?_⟩
    · rw [hclose, close_eq, hjournaled]
      exact (if_pos hsubscribed).trans (hawaited.journaled _)
    · obtain ⟨client', hend⟩ := hawaited.atEnd
      refine ⟨client', ?_⟩
      rw [endState_congr hclose, hend, hstart]
  · have hclose : close c = ask Operation.close.name Client.unassign c.startClosing :=
      (close_eq c).trans (if_neg hsubscribed)
    refine ⟨[], fun j => ?_, List.forall_mem_nil _, ?_⟩
    · rw [hclose, close_eq, hjournaled, List.flatMap_nil, List.append_nil]
      exact (if_neg hsubscribed).trans (ask_journaled _ _ _ _)
    · obtain ⟨client', hend⟩ := OnlyClient.ask Operation.close.name Client.unassign c.startClosing
      refine ⟨client', ?_⟩
      rw [endState_congr hclose, hend, hstart]

/-! ### Everything that is done with a consumer -/

/-- One thing that is done with a consumer, also after it was closed or dropped. -/
inductive Use (κ σ ε : Type) where
  | request (r : Request)
  | poll (timeout : Nat) (listener : Listener (Consumer κ) σ ε)
  | serve (timeout : Nat)
  | close
  | drop

namespace Use

def perform : Use κ σ ε → Consumer κ × σ → Consumer κ × σ
  | .request r, (c, s) => (endState r.run c, s)
  | .poll timeout l, w => endState (Consumer.poll timeout l) w
  | .serve timeout, (c, s) => ((pollClient timeout c).2, s)
  | .close, (c, s) => (endState Consumer.close c, s)
  | .drop, (c, s) => (c.startClosing, s)

def journaled : Use κ σ ε → Use (Journaled κ) σ ε
  | .request r => .request r
  | .poll timeout l => .poll timeout l.journaled
  | .serve timeout => .serve timeout
  | .close => .close
  | .drop => .drop

def OnlyCommits : Use κ σ ε → Prop
  | .poll _ l => l.OnlyCommits
  | .request _ | .serve _ | .close | .drop => True

omit [Rebalancing κ] in
def closes : Use κ σ ε → Bool
  | .close | .drop => true
  | .request _ | .poll _ _ | .serve _ => false

end Use

/-- What comes of one use: passes, after what was pending if the consumer closes with it. -/
structure Performed (use : Use κ σ ε) (w : Consumer κ × σ) (passes : List Pass) : Prop where
  journaled : ∀ j, use.journaled.perform (journaledAt j w) =
    journaledAt (j ++ (if use.closes then w.1.pending else []).map .completed ++
      passes.flatMap (Pass.journal · (use.perform w).1.closing)) (use.perform w)
  pending : (if use.closes then [] else w.1.pending) ++
      passes.flatMap (fun pass => queued (use.perform w).1.closing pass.raised) =
    passes.flatMap Pass.dispatched ++ (use.perform w).1.pending
  closing : (use.perform w).1.closing = (w.1.closing || use.closes)
  maxRecords : (use.perform w).1.maxRecords = w.1.maxRecords

section Performed

variable (c : Consumer κ) (s : σ)

omit [Rebalancing κ] in
/-- Nothing that was pending is completed first. -/
theorem withJournal_none (j k : List JournalEntry) :
    c.withJournal (j ++ k) = c.withJournal (j ++ ([] : List RebalanceEvent).map .completed ++ k) := by
  rw [List.map_nil, List.append_nil]

theorem performed_request (r : Request) :
    Performed (.request r : Use κ σ ε) (c, s) [] := by
  have hrun (j : List JournalEntry) :
      SameQueue c j (endState r.run c) (endState r.run (c.withJournal j)) :=
    (SameQueue.run r).atEnd ⟨rfl, rfl, rfl, rfl⟩
  refine ⟨fun j => ?_, ?_, ?_, (hrun []).maxRecords⟩
  · refine Prod.ext ((hrun j).journaled.trans ?_) rfl
    have hjournal := withJournal_none (endState r.run c) j []
    rwa [List.append_nil] at hjournal
  · exact (List.append_nil _).trans (hrun []).pending.symm
  · exact (hrun []).closing.trans (Bool.or_false _).symm

theorem performed_poll (timeout : Nat) {l : Listener (Consumer κ) σ ε} (hl : l.OnlyCommits) :
    ∃ passes, Performed (.poll timeout l) (c, s) passes := by
  obtain ⟨passes, left, hpasses⟩ := gathered hl c.maxRecords timeout [] c s
  obtain ⟨client, hend⟩ := hpasses.atEnd
  have hpoll : ((Use.poll timeout l).perform (c, s)).1 = { c with client, pending := left } := hend
  refine ⟨passes, fun j => ?_, ?_, ?_, ?_⟩
  · have hrun : (Use.poll timeout l).journaled.perform (journaledAt j (c, s)) =
        journaledAt (j ++ passes.flatMap (Pass.journal · c.closing))
          ((Use.poll timeout l).perform (c, s)) := endState_inState (hpasses.journaled j)
    rw [hrun, hpoll]
    exact Prod.ext (withJournal_none _ j _) rfl
  · rw [hpoll]
    exact hpasses.pending
  · rw [hpoll]
    exact (Bool.or_false _).symm
  · rw [hpoll]

theorem performed_serve (timeout : Nat) :
    Performed (.serve timeout : Use κ σ ε) (c, s) [quietPass timeout c] := by
  obtain ⟨client, hend⟩ := pollClient_eq timeout c
  have hserve : ((Use.serve timeout : Use κ σ ε).perform (c, s)).1 =
      { c with client, pending := c.pending ++ queued c.closing (c.noticed timeout) } := hend
  refine ⟨fun j => ?_, ?_, ?_, ?_⟩
  · have hrun : (Use.serve timeout : Use κ σ ε).journaled.perform (journaledAt j (c, s)) =
        journaledAt (j ++ (quietPass timeout c).journal c.closing)
          ((Use.serve timeout : Use κ σ ε).perform (c, s)) :=
      Prod.ext (pollClient_quietPass timeout c j) rfl
    rw [hrun, hserve, List.flatMap_singleton]
    exact Prod.ext (withJournal_none _ j _) rfl
  · rw [hserve, List.flatMap_singleton, List.flatMap_singleton]
    rfl
  · rw [hserve]
    exact (Bool.or_false _).symm
  · rw [hserve]

theorem performed_close : ∃ passes, Performed (.close : Use κ σ ε) (c, s) passes := by
  obtain ⟨passes, hclose, htold, client, hend⟩ := close_quiet c
  have hclosed : ((Use.close : Use κ σ ε).perform (c, s)).1 =
      { c with client, closing := true, pending := [] } := hend
  refine ⟨passes, fun j => ?_, ?_, ?_, ?_⟩
  · rw [hclosed]
    exact Prod.ext (endState_inState (hclose j)) rfl
  · have hqueued : passes.flatMap (fun pass => queued true pass.raised) = [] :=
      List.flatMap_eq_nil_iff.2 fun _ _ => rfl
    have hdispatched : passes.flatMap Pass.dispatched = [] :=
      List.flatMap_eq_nil_iff.2 fun pass hpass => pass.dispatched_eq_nil.2 (htold pass hpass)
    rw [hclosed, hdispatched]
    exact hqueued
  · rw [hclosed]
    exact (Bool.or_true _).symm
  · rw [hclosed]

theorem performed_drop : Performed (.drop : Use κ σ ε) (c, s) [] := by
  obtain ⟨client, hend⟩ := startClosing_eq c
  have hdropped : ((Use.drop : Use κ σ ε).perform (c, s)).1 =
      { c with client, closing := true, pending := [] } := hend
  refine ⟨fun j => ?_, ?_, ?_, ?_⟩
  · rw [List.flatMap_nil, List.append_nil]
    exact Prod.ext (startClosing_journaled c j) rfl
  · rw [hdropped]
    rfl
  · rw [hdropped]
    exact (Bool.or_true _).symm
  · rw [hdropped]

end Performed

/-- Whatever is done with a consumer is accounted for in passes. -/
theorem performed {use : Use κ σ ε} (huse : use.OnlyCommits) (w : Consumer κ × σ) :
    ∃ passes, Performed use w passes := by
  cases use with
  | request r => exact ⟨[], performed_request w.1 w.2 r⟩
  | poll timeout l => exact performed_poll w.1 w.2 timeout huse
  | serve timeout => exact ⟨[quietPass timeout w.1], performed_serve w.1 w.2 timeout⟩
  | close => exact performed_close w.1 w.2
  | drop => exact ⟨[], performed_drop w.1 w.2⟩

/-- After a poll that succeeds nothing is pending. -/
theorem pending_of_poll {timeout : Nat} {l : Listener (Consumer κ) σ ε} (hl : l.OnlyCommits)
    {w v : Consumer κ × σ} (hroom : 0 < w.1.maxRecords) {records : List Record}
    (hpoll : Consumer.poll timeout l w = .ok records v) : v.1.pending = [] := by
  obtain ⟨c, s⟩ := w
  have hplain : pollUpTo l c.maxRecords timeout [] (c, s) = .ok records v := hpoll
  obtain ⟨passes, left, hpasses⟩ := gathered hl c.maxRecords timeout [] c s
  obtain ⟨hturn, -, hleft⟩ := hpasses.ok hplain
  obtain ⟨client, hend⟩ := hpasses.atEnd
  rw [endState_of_ok hplain] at hend
  rw [hend]
  exact hleft (hturn.ne_nil hroom)

/-! ### Accounts -/

structure Accounted (c : Consumer κ) (j : List JournalEntry) : Prop where
  account : completedIn j ++ c.pending = raisedIn j
  drained : c.closing = true → c.pending = []

namespace Performed

variable {use : Use κ σ ε} {w : Consumer κ × σ} {passes : List Pass}

/-- A consumer that is closing has nothing pending, or begins to close just now. -/
theorem closes_or_drained (h : Performed use w passes)
    (hdrained : w.1.closing = true → w.1.pending = [])
    (hclosing : (use.perform w).1.closing = true) : use.closes = true ∨ w.1.pending = [] := by
  rw [h.closing, Bool.or_eq_true] at hclosing
  exact hclosing.symm.imp_right hdrained

/-- Once the consumer closes nobody is told any more, and nothing is left pending. -/
theorem quiet (h : Performed use w passes) (hdrained : w.1.closing = true → w.1.pending = [])
    (hclosing : (use.perform w).1.closing = true) :
    (∀ pass ∈ passes, pass.told = []) ∧ (use.perform w).1.pending = [] := by
  have hbefore : (if use.closes then [] else w.1.pending) = [] := by
    rcases h.closes_or_drained hdrained hclosing with hcloses | hnone
    · exact if_pos hcloses
    · rw [hnone, ite_self]
  have hqueued : passes.flatMap (fun pass => queued true pass.raised) = [] :=
    List.flatMap_eq_nil_iff.2 fun _ _ => rfl
  have hnone := h.pending
  rw [hbefore, hclosing, hqueued] at hnone
  obtain ⟨hdispatched, hpending⟩ := List.append_eq_nil_iff.1 hnone.symm
  refine ⟨fun pass hpass => pass.dispatched_eq_nil.1 ?_, hpending⟩
  exact List.flatMap_eq_nil_iff.1 hdispatched pass hpass

/-- What is noticed and what is completed keep in balance over each use. -/
theorem accounted (h : Performed use w passes) {j : List JournalEntry} (hw : Accounted w.1 j) :
    Accounted (use.perform w).1
      (j ++ (if use.closes then w.1.pending else []).map .completed ++
        passes.flatMap (Pass.journal · (use.perform w).1.closing)) := by
  refine ⟨?_, fun hclosing => (h.quiet hw.drained hclosing).2⟩
  rw [completedIn_append, completedIn_append, completedIn_completed, completedIn_passes,
    raisedIn_append, raisedIn_append, raisedIn_completed, raisedIn_passes, List.append_nil,
    ← hw.account]
  cases hclosing : (use.perform w).1.closing with
  | true =>
    obtain ⟨htold, hpending⟩ := h.quiet hw.drained hclosing
    have hdrained : (if use.closes then w.1.pending else []) = w.1.pending := by
      rcases h.closes_or_drained hw.drained hclosing with hcloses | hnone
      · exact if_pos hcloses
      · rw [hnone, ite_self]
    have hraised : passes.flatMap (fun pass => inPlace true pass.raised ++ pass.dispatched) =
        passes.flatMap Pass.raised := by
      refine List.flatMap_congr fun pass hpass => ?_
      rw [pass.dispatched_eq_nil.2 (htold pass hpass), List.append_nil]
      rfl
    rw [hpending, hdrained, hraised, List.append_nil]
  | false =>
    have hcloses : use.closes = false := by
      have hor := h.closing.symm.trans hclosing
      exact (Bool.or_eq_false_iff.1 hor).2
    have hflow := h.pending
    rw [hcloses, hclosing] at hflow
    rw [hcloses, if_neg Bool.false_ne_true, List.append_nil, List.append_assoc, List.append_assoc]
    exact congrArg (completedIn j ++ ·) hflow.symm

end Performed

def performAll (uses : List (Use κ σ ε)) (w : Consumer κ × σ) : Consumer κ × σ :=
  uses.foldl (fun w use => use.perform w) w

/-- They keep in balance over any number of uses. -/
theorem accounted_all {uses : List (Use κ σ ε)} (huses : ∀ use ∈ uses, use.OnlyCommits)
    {w : Consumer κ × σ} {j : List JournalEntry} (hw : Accounted w.1 j) :
    ∃ journal,
      performAll (uses.map Use.journaled) (journaledAt j w) =
          journaledAt journal (performAll uses w) ∧
        Accounted (performAll uses w).1 journal ∧
        (performAll uses w).1.closing = (w.1.closing || uses.any Use.closes) ∧
        (performAll uses w).1.maxRecords = w.1.maxRecords := by
  induction uses generalizing w j with
  | nil => exact ⟨j, rfl, hw, (Bool.or_false _).symm, rfl⟩
  | cons use uses ih =>
    obtain ⟨huse, huses⟩ := List.forall_mem_cons.1 huses
    obtain ⟨passes, hperformed⟩ := performed huse w
    obtain ⟨journal, hrun, haccounted, hclosing, hmax⟩ := ih huses (hperformed.accounted hw)
    refine ⟨journal, ?_, haccounted, ?_, hmax.trans hperformed.maxRecords⟩
    · rw [← hperformed.journaled] at hrun
      exact hrun
    · rw [List.any_cons, ← Bool.or_assoc, ← hperformed.closing]
      exact hclosing

end Uses

/-- Whatever is done with a consumer, its journal has each rebalance that was noticed completed once
and in order, but for those that are pending. Whatever is done next tells of them pass by pass and
completes each right after that, whether or not the listener fails. When the consumer closes those
that are pending are completed first, and from then on nobody is told any more. -/
theorem rebalances_complete_once_in_order [GroupClient κ] (client : κ) (timeout maxRecords : Nat)
    (s : σ) {uses : List (Use κ σ ε)} (huses : ∀ use ∈ uses, use.OnlyCommits) :
    let start := create client timeout maxRecords
    let w := performAll uses (start, s)
    ∃ journal,
      performAll (uses.map Use.journaled) (start.withJournal [], s) = journaledAt journal w ∧
        completedIn journal ++ w.1.pending = raisedIn journal ∧
        w.1.closing = uses.any Use.closes ∧
        (uses.any Use.closes = true → w.1.pending = []) ∧
        (∀ use : Use κ σ ε, use.OnlyCommits → ∃ passes, Performed use w passes ∧
          ((use.perform w).1.closing = true → ∀ pass ∈ passes, pass.told = [])) ∧
        ∀ timeout (l : Listener (Consumer κ) σ ε) records v, l.OnlyCommits →
          poll timeout l w = .ok records v → v.1.pending = [] := by
  intro start w
  have hstart : Accounted start [] := ⟨rfl, fun h => absurd h Bool.false_ne_true⟩
  obtain ⟨journal, hrun, haccounted, hclosing, hmax⟩ :=
    accounted_all (w := (start, s)) huses hstart
  have hroom : 0 < w.1.maxRecords := by
    have hmaxRecords : w.1.maxRecords = max 1 maxRecords := hmax
    omega
  refine ⟨journal, hrun, haccounted.account, hclosing, fun h => ?_, fun use huse => ?_, ?_⟩
  · exact haccounted.drained (hclosing.trans h)
  · obtain ⟨passes, hperformed⟩ := performed huse w
    exact ⟨passes, hperformed, fun h => (hperformed.quiet haccounted.drained h).1⟩
  · exact fun timeout l records v hl hpoll => pending_of_poll hl hroom hpoll

def refusing : Listener (Consumer ScriptedClient) (List Rebalance) BrokerError where
  notify _ change := fun (c, told) => .error (.unknownTopic "t") (c, told ++ [change])
  refuse := id

theorem onlyCommits_refusing : refusing.OnlyCommits := fun _ _ _ => ⟨[], rfl⟩

def troubledClient : ScriptedClient where
  script :=
    [⟨.nothing, [.change (.assigned [⟨"t", 0⟩, ⟨"t", 1⟩]), .change (.revoked [⟨"t", 1⟩])]⟩,
      ⟨.nothing, [.failed .illegalGeneration]⟩, ⟨.nothing, [.change (.assigned [⟨"t", 2⟩])]⟩,
      ⟨.nothing, [.change (.lost [⟨"t", 2⟩])]⟩]

def troubledUses : List (Use ScriptedClient (List Rebalance) BrokerError) :=
  [.request (.subscribe ["t"]), .poll 50 refusing, .poll 20 handingOver, .serve 0, .close, .drop]

def troubledJournal : List JournalEntry :=
  [.polled 50 .nothing [.change (.assigned [⟨"t", 0⟩, ⟨"t", 1⟩]), .change (.revoked [⟨"t", 1⟩])],
    .told (.assigned [⟨"t", 0⟩, ⟨"t", 1⟩]), .completed (.change (.assigned [⟨"t", 0⟩, ⟨"t", 1⟩])),
    .polled 20 .nothing [.failed .illegalGeneration],
    .told (.revoked [⟨"t", 1⟩]), .completed (.change (.revoked [⟨"t", 1⟩])),
    .told (.lost [⟨"t", 0⟩]), .completed (.failed .illegalGeneration),
    .polled 0 .nothing [.change (.assigned [⟨"t", 2⟩])],
    .completed (.change (.assigned [⟨"t", 2⟩])),
    .polled 100 .nothing [.change (.lost [⟨"t", 2⟩])], .completed (.change (.lost [⟨"t", 2⟩]))]

/-- The listener fails, and a rebalance is still pending when the consumer closes. -/
theorem rebalances_complete_once_in_order_in_trouble :
    (∀ use ∈ troubledUses, use.OnlyCommits) ∧
      performAll (troubledUses.map Use.journaled)
          ((create troubledClient 500 10).withJournal [], []) =
        journaledAt troubledJournal
          (performAll troubledUses (create troubledClient 500 10, [])) ∧
      completedIn troubledJournal = raisedIn troubledJournal := by
  have huses : ∀ use ∈ troubledUses, use.OnlyCommits := by
    simp [troubledUses, Use.OnlyCommits, onlyCommits_refusing, onlyCommits_handingOver]
  obtain ⟨journal, hrun, haccount, -, hdrained, -⟩ :=
    rebalances_complete_once_in_order troubledClient 500 10 [] huses
  have hkept := congrArg (fun w => w.1.client.journal) hrun
  have hjournal : (performAll (troubledUses.map Use.journaled)
      ((create troubledClient 500 10).withJournal [], [])).1.client.journal = troubledJournal := by
    decide +kernel
  have hsame : journal = troubledJournal := hkept.symm.trans hjournal
  rw [hdrained (by decide), List.append_nil] at haccount
  subst hsame
  exact ⟨huses, hrun, haccount⟩

end Consumer

/-! ### The desk of a relay -/

section Desk

variable {β ν : Type} (commit : Committer β)

/-- A revocation reaches the broker by commits only. -/
theorem CommitBatch.revoke_commits (batch : CommitBatch) (ps : List Partition) (b : β) :
    ∃ commits, (batch.revoke commit ps b).2.2 = afterCommits commit commits b := by
  rcases batch.revoke_cases commit b ps with
    ⟨-, hidle⟩ | ⟨-, ⟨next, hcommit, hrevoke⟩ | ⟨e, next, hcommit, hrevoke⟩⟩
  · exact ⟨[], by rw [hidle]; rfl⟩
  · refine ⟨[(batch.take ps).1], ?_⟩
    rw [hrevoke]
    exact (endState_of_ok hcommit).symm
  · refine ⟨[(batch.take ps).1], ?_⟩
    rw [hrevoke]
    exact (endState_of_error hcommit).symm

/-- A desk that follows a rebalance reaches the broker by commits only. -/
theorem Desk.adjustedBy_commits (change : Rebalance) (b : β) (d : Desk ν) :
    ∃ commits, (adjustedBy commit change b d).1 = afterCommits commit commits b := by
  cases change with
  | assigned ps => exact ⟨[], rfl⟩
  | lost ps =>
    refine ⟨[], ?_⟩
    cases hm : d.mode <;> simp only [adjustedBy, settle, hm] <;> rfl
  | revoked ps =>
    cases hm : d.mode with
    | anonymous catchUp => exact ⟨[], by simp only [adjustedBy, settle, hm]; rfl⟩
    | grouped batch =>
      obtain ⟨commits, hcommits⟩ := batch.revoke_commits commit ps b
      exact ⟨commits, by simpa only [adjustedBy, settle, hm] using hcommits⟩

/-- A desk that follows the rebalances only commits, so a relay over a consumer does nothing else
with it than what is accounted for. -/
theorem Desk.onlyCommits [Rebalancing κ] [Notifier ν] :
    (Desk.listener : Listener (Consumer κ) (Desk ν) RelayError).OnlyCommits := by
  intro change c d
  rcases Desk.endState_onRebalance Consumer.commit change c d with hend | ⟨notifier, hend⟩
  · exact ⟨[], congrArg Prod.fst hend⟩
  · obtain ⟨commits, hcommits⟩ := Desk.adjustedBy_commits Consumer.commit change c
      (d.count (.rebalances change.kind))
    exact ⟨commits, (congrArg Prod.fst hend).trans hcommits⟩

end Desk

end AckRelay
