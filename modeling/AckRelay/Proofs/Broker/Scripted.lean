import AckRelay.Broker.Scripted
import AckRelay.Proofs.Outcome
import AckRelay.Proofs.PartitionMap

namespace AckRelay

def Call.commit? : Call → Option (Offsets × Bool)
  | .commit offsets accepted | .handOver offsets accepted => some (offsets, accepted)
  | _ => none

namespace ScriptedBroker

def noted (call : Call) (b : ScriptedBroker) : ScriptedBroker := { b with log := call :: b.log }

def commitCalls (b : ScriptedBroker) : List (Offsets × Bool) := b.calls.filterMap Call.commit?

/-- A call adds to the commits if it is one. -/
@[simp]
theorem commitCalls_noted (call : Call) (b : ScriptedBroker) :
    (b.noted call).commitCalls = b.commitCalls ++ call.commit?.toList := by
  simp only [commitCalls, calls, noted, List.reverse_cons, List.filterMap_append]
  cases h : call.commit? <;> simp [h]

def faulty (call : Call) (b : ScriptedBroker) : Bool := call.operation?.any (· ∈ b.faults)

theorem note_of_sound {call : Call} {b : ScriptedBroker} (h : b.faulty call = false) :
    note call b = .ok () (b.noted call) := by
  simp only [note, noted, faulty] at h ⊢
  cases ho : call.operation? with
  | none => rfl
  | some o =>
    have hmem : o ∉ b.faults := by simpa [ho] using h
    exact if_neg hmem

theorem note_of_faulty {call : Call} {b : ScriptedBroker} (h : b.faulty call = true) :
    ∃ e, note call b = .error e (b.noted call) := by
  simp only [note, noted, faulty] at h ⊢
  cases ho : call.operation? with
  | none => simp [ho] at h
  | some o =>
    have hmem : o ∈ b.faults := by simpa [ho] using h
    exact ⟨_, if_pos hmem⟩

/-- A call is noted whether or not it fails. -/
theorem note_cases (call : Call) (b : ScriptedBroker) :
    note call b = .ok () (b.noted call) ∨ ∃ e, note call b = .error e (b.noted call) := by
  cases h : b.faulty call with
  | false => exact Or.inl (note_of_sound h)
  | true => exact Or.inr (note_of_faulty h)

/-- A commit is noted as accepted exactly if it succeeds. -/
theorem commitAs_cases (call : Bool → Call) (offsets : Offsets) (b : ScriptedBroker)
    (hop : (call true).operation? = (call false).operation?) :
    commitAs call offsets b = .ok () ((b.noted (call true)).store offsets) ∨
      ∃ e, commitAs call offsets b = .error e (b.noted (call false)) := by
  have hsame : b.faulty (call true) = b.faulty (call false) := by rw [faulty, hop, faulty]
  have haccepted : (!b.refusesCommits && haveNext offsets &&
      !(call true).operation?.any (· ∈ b.faults)) =
      (!b.refusesCommits && haveNext offsets && !b.faulty (call false)) := by rw [← hsame, faulty]
  rw [commitAs]
  simp only [haccepted]
  cases hf : b.faulty (call false) with
  | true =>
    obtain ⟨e, he⟩ := note_of_faulty hf
    simp only [Bool.not_true, Bool.and_false, he]
    exact Or.inr ⟨e, rfl⟩
  | false =>
    cases hr : b.refusesCommits with
    | true =>
      simp only [Bool.not_true, Bool.false_and, note_of_sound hf, noted, hr, ↓reduceIte]
      exact Or.inr ⟨_, rfl⟩
    | false =>
      cases hn : haveNext offsets with
      | false =>
        simp only [Bool.and_false, Bool.false_and, note_of_sound hf, noted, hr, Bool.false_eq_true,
          ↓reduceIte]
        exact Or.inr ⟨_, rfl⟩
      | true =>
        have ht := note_of_sound (hsame.trans hf)
        left
        simp only [Bool.not_false, Bool.and_self, ht, noted, hr, Bool.false_eq_true, ↓reduceIte]

/-- A commit is accepted and stored, or refused and only noted. -/
theorem commit_cases (offsets : Offsets) (b : ScriptedBroker) :
    commit offsets b = .ok () ((b.noted (.commit offsets true)).store offsets) ∨
      ∃ e, commit offsets b = .error e (b.noted (.commit offsets false)) :=
  commitAs_cases (.commit offsets) offsets b rfl

theorem handOver_cases (offsets : Offsets) (b : ScriptedBroker) :
    handOver offsets b = .ok () ((b.noted (.handOver offsets true)).store offsets) ∨
      ∃ e, handOver offsets b = .error e (b.noted (.handOver offsets false)) :=
  commitAs_cases (.handOver offsets) offsets b rfl

/-- However a hand-over ends, the broker has seen it, and owns and pauses what it did. -/
theorem handOver_seen {offsets : Offsets} {b c : ScriptedBroker}
    (h : endState (handOver offsets) b = c) :
    c.assignment = b.assignment ∧ c.paused = b.paused ∧
      ∃ accepted, c.commitCalls = b.commitCalls ++ [(offsets, accepted)] := by
  subst h
  rcases handOver_cases offsets b with hb | ⟨e, hb⟩
  · rw [endState_of_ok hb]
    exact ⟨rfl, rfl, true, commitCalls_noted (.handOver offsets true) b⟩
  · rw [endState_of_error hb]
    exact ⟨rfl, rfl, false, commitCalls_noted (.handOver offsets false) b⟩

/-- The step that the next poll takes; none, if the poll fails or the script is over. -/
def next? (b : ScriptedBroker) : Option PollStep :=
  if b.faulty (.poll 0) then none else b.script.head?

def change? (b : ScriptedBroker) : Option Rebalance :=
  match b.next? with
  | some (.rebalance change) => some change
  | some .failed => some (.lost b.assignment)
  | some (.records _) | none => none

def arriving (b : ScriptedBroker) : List Record :=
  match b.next? with
  | some (.records rs) => rs
  | some (.rebalance _) | some .failed | none => []

def surrendered (b : ScriptedBroker) : List Partition := b.change?.elim [] Rebalance.released

def gained : Rebalance → List Partition
  | .assigned ps => ps
  | .revoked _ | .lost _ => []

theorem filter_not_mem_nil (ps : List Partition) :
    ps.filter (· ∉ ([] : List Partition)) = ps :=
  List.filter_eq_self.2 (by simp)

/-- What is released leaves the assignment, and what is gained joins it at the end. -/
theorem assignment_complete (b : ScriptedBroker) (change : Rebalance) :
    (b.complete change).assignment =
      b.assignment.filter (· ∉ change.released) ++ gained change := by
  cases change with
  | assigned ps =>
    rw [Rebalance.released, filter_not_mem_nil]
    rfl
  | revoked ps => exact (List.append_nil _).symm
  | lost ps => exact (List.append_nil _).symm

/-- What is released is no longer paused. -/
theorem paused_complete (b : ScriptedBroker) (change : Rebalance) :
    (b.complete change).paused = change.released.foldl PartitionMap.erase b.paused := by
  cases change <;> rfl

theorem commitCalls_complete (b : ScriptedBroker) (change : Rebalance) :
    (b.complete change).commitCalls = b.commitCalls := by
  cases change <;> rfl

def granted (b : ScriptedBroker) : List Partition := b.change?.elim [] gained

def polled (timeout : Nat) (b : ScriptedBroker) : ScriptedBroker :=
  { b.noted (.poll timeout) with script := b.script.tail }

structure Still (b c : ScriptedBroker) : Prop where
  assignment : c.assignment = b.assignment
  paused : c.paused = b.paused
  commitCalls : c.commitCalls = b.commitCalls

namespace Still

theorem trans {b c d : ScriptedBroker} (hc : Still b c) (hd : Still c d) : Still b d :=
  ⟨hd.assignment.trans hc.assignment, hd.paused.trans hc.paused,
    hd.commitCalls.trans hc.commitCalls⟩

theorem chains : Chains Still (fun b (_ : BrokerError) c => Still b c) :=
  ⟨fun _ => ⟨rfl, rfl, rfl⟩, trans, trans⟩

theorem noted (b : ScriptedBroker) {call : Call} (h : call.commit? = none) :
    Still b (b.noted call) :=
  ⟨rfl, rfl, by simp [h]⟩

end Still

abbrev StaysStill {α : Type} (op : EStateM BrokerError ScriptedBroker α) : Prop :=
  Ends Still (fun b _ c => Still b c) op

/-- Only commits are seen, so any other call leaves the broker still. -/
theorem still_note {call : Call} (h : call.commit? = none) : StaysStill (note call) := by
  constructor
  · intro b _ c hb
    rcases note_cases call b with hn | ⟨e, hn⟩ <;> rw [hn] at hb <;> cases hb
    exact Still.noted b h
  · intro b e c hb
    rcases note_cases call b with hn | ⟨e', hn⟩ <;> rw [hn] at hb <;> cases hb
    exact Still.noted b h

/-- A request that is noted and then answered from what the broker holds. -/
theorem still_answer {α : Type} {call : Call} (h : call.commit? = none)
    {f : ScriptedBroker → EStateM BrokerError ScriptedBroker α} (hf : ∀ b, StaysStill (f b)) :
    StaysStill (do note call; f (← get)) :=
  Ends.bind Still.chains (still_note h) fun _ => Ends.bind Still.chains (Ends.get Still.chains) hf

theorem still_subscribe (topics : List String) :
    StaysStill (Broker.subscribe topics : EStateM _ ScriptedBroker Unit) :=
  still_note rfl

theorem still_assignment : StaysStill (Broker.assignment : EStateM _ ScriptedBroker _) :=
  still_answer rfl fun _ => Ends.pure Still.chains _

theorem still_partitionsFor (topic : String) :
    StaysStill (Broker.partitionsFor topic : EStateM _ ScriptedBroker _) := by
  refine still_answer rfl fun b => ?_
  split
  · exact Ends.pure Still.chains _
  · exact Ends.throw fun _ => Still.chains.refl _

theorem still_endOffsets (ps : List Partition) :
    StaysStill (Broker.endOffsets ps : EStateM _ ScriptedBroker _) := by
  refine still_answer rfl fun b => ?_
  refine Ends.bind Still.chains (Ends.mapM Still.chains (fun p => ?_) ps) fun _ =>
    Ends.pure Still.chains _
  split
  · exact Ends.pure Still.chains _
  · exact Ends.throw fun _ => Still.chains.refl _

theorem still_committed (ps : List Partition) :
    StaysStill (Broker.committed ps : EStateM _ ScriptedBroker _) :=
  still_answer rfl fun _ => Ends.pure Still.chains _

theorem still_close : StaysStill (Broker.close : EStateM _ ScriptedBroker Unit) :=
  Ends.bind Still.chains (still_note rfl) fun _ => Ends.modify fun _ => ⟨rfl, rfl, rfl⟩

/-- A request that is noted and then changes the broker, unless it fails. -/
theorem change_cases (call : Call) (f : ScriptedBroker → ScriptedBroker) (b : ScriptedBroker) :
    (do note call; modify f : EStateM BrokerError ScriptedBroker Unit) b =
        .ok () (f (b.noted call)) ∨
      ∃ e, (do note call; modify f : EStateM BrokerError ScriptedBroker Unit) b =
        .error e (b.noted call) := by
  simp only [bind_apply]
  rcases note_cases call b with hn | ⟨e, hn⟩ <;> rw [hn]
  · exact Or.inl rfl
  · exact Or.inr ⟨e, rfl⟩

/-- The broker knows the topic and tells its partitions, or it fails. -/
theorem partitionsFor_cases (topic : String) (b : ScriptedBroker) :
    (∃ ends, b.ends? topic = some ends ∧
        (Broker.partitionsFor topic : EStateM BrokerError ScriptedBroker _) b =
          .ok (numbered topic ends.length) (b.noted (.partitionsFor topic))) ∨
      ∃ e, (Broker.partitionsFor topic : EStateM BrokerError ScriptedBroker _) b =
        .error e (b.noted (.partitionsFor topic)) := by
  have hends : (b.noted (.partitionsFor topic)).ends? topic = b.ends? topic := rfl
  simp only [Broker.partitionsFor, bind_apply, get_apply]
  rcases note_cases (.partitionsFor topic) b with hn | ⟨e, hn⟩ <;> rw [hn]
  · simp only [hends]
    cases b.ends? topic with
    | none => exact Or.inr ⟨_, rfl⟩
    | some ends => exact Or.inl ⟨ends, rfl, rfl⟩
  · exact Or.inr ⟨e, rfl⟩

/-- A poll that comes with a rebalance brings no records. -/
theorem arriving_of_change {b : ScriptedBroker} {change : Rebalance}
    (h : b.change? = some change) :
    b.arriving = [] := by
  rw [arriving]
  cases hn : b.next? with
  | none => rfl
  | some step =>
    rw [change?, hn] at h
    cases step with
    | records rs => cases h
    | rebalance c => rfl
    | failed => rfl

/-- Records come only with a poll that takes nothing away. -/
theorem surrendered_of_arriving {b : ScriptedBroker} {record : Record} (h : record ∈ b.arriving) :
    b.surrendered = [] := by
  cases hc : b.change? with
  | none => rw [surrendered, hc]; rfl
  | some change =>
    rw [arriving_of_change hc] at h
    cases h

section Poll

variable {σ ε : Type} (timeout : Nat) (listener : Listener ScriptedBroker σ ε) {b : ScriptedBroker}
  (s : σ)

theorem next?_of_sound {timeout : Nat} (h : b.faulty (.poll timeout) = false) :
    b.next? = b.script.head? := by
  have h0 : b.faulty (.poll 0) = false := h
  rw [next?, h0]
  rfl

/-- A poll whose step is a rebalance tells the listener of it. -/
theorem poll_of_change {change : Rebalance} (h : b.change? = some change) :
    poll timeout listener (b, s) = rebalance listener change (b.polled timeout, s) := by
  have hf : b.faulty (.poll timeout) = false := by
    cases hf : b.faulty (.poll 0) with
    | true => simp [change?, next?, hf] at h
    | false => exact hf
  have hn := next?_of_sound hf
  rw [change?, hn] at h
  simp only [poll, note_of_sound hf, noted, polled]
  -- a rebalance that failed loses the whole assignment
  cases hs : b.script with
  | nil => simp [hs] at h
  | cons step rest =>
    rw [hs] at h
    cases step with
    | records rs => simp at h
    | rebalance c =>
      simp only [List.head?_cons, Option.some.injEq] at h
      rw [h]
      rfl
    | failed =>
      simp only [List.head?_cons, Option.some.injEq] at h
      rw [← h]
      rfl

/-- Without a rebalance a poll gives the records of its step, or fails. -/
theorem poll_of_records (h : b.change? = none) :
    poll timeout listener (b, s) = .ok b.arriving (b.polled timeout, s) ∨
      ∃ e script, poll timeout listener (b, s) =
        .error (listener.refuse e) ({ b.noted (.poll timeout) with script }, s) := by
  cases hf : b.faulty (.poll timeout) with
  | true =>
    obtain ⟨e, he⟩ := note_of_faulty hf
    refine Or.inr ⟨e, b.script, ?_⟩
    simp only [poll, he, noted]
  | false =>
    have hn := next?_of_sound hf
    rw [change?, hn] at h
    simp only [poll, note_of_sound hf, noted, polled, arriving, hn]
    cases hs : b.script with
    | nil =>
      cases hfin : b.finite with
      | true => exact Or.inr ⟨_, [], rfl⟩
      | false => exact Or.inl rfl
    | cons step rest =>
      rw [hs] at h
      cases step with
      | records rs => exact Or.inl rfl
      | rebalance c => simp at h
      | failed => simp at h

end Poll

end ScriptedBroker

end AckRelay
