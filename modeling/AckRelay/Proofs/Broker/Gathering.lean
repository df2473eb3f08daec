import AckRelay.Broker.ScriptedClient
import AckRelay.Proofs.Broker.Journal

/-!
What a poll gathers. It is made of passes, in each of which the client is polled once and the
listener told of what is pending (`pollUpTo_succ`). A poll that succeeds gives what the client gave
in all passes, but for the partitions that were given up in one of them (`poll_gathers`).
-/

namespace AckRelay

variable {κ σ ε : Type}

def Polled.message? : Polled → Option Message
  | .message m => some m
  | .nothing | .failed _ => none

def Polled.failure? : Polled → Option ClientError
  | .failed e => some e
  | .nothing | .message _ => none

namespace Consumer

/-- One poll of the client, and what the listener is told after it. -/
structure Pass where
  wait : Nat
  outcome : Polled
  raised : List RebalanceEvent
  told : List Telling
  deriving DecidableEq, Repr

namespace Pass

variable (pass : Pass)

def journal (closing : Bool) : List JournalEntry :=
  .polled pass.wait pass.outcome pass.raised ::
    ((inPlace closing pass.raised).map .completed ++ pass.told.flatMap Telling.journal)

def gained : List Record := (pass.outcome.message?.map Record.ofMessage).toList

theorem reverse_gained : pass.gained.reverse = pass.gained := by
  rw [gained]
  cases pass.outcome.message? <;> rfl

def released : List Partition := pass.told.flatMap Telling.released

def dispatched : List RebalanceEvent := pass.told.map Telling.event

theorem dispatched_eq_nil : pass.dispatched = [] ↔ pass.told = [] := List.map_eq_nil_iff

def GoesOn : Prop := pass.outcome.message?.isSome = true ∧ pass.released = []

/-- A poll that gives a message has not failed. -/
theorem GoesOn.sound {pass : Pass} (h : pass.GoesOn) : pass.outcome.failure? = none := by
  obtain ⟨hmessage, -⟩ := h
  cases hpass : pass.outcome with
  | message m => rfl
  | nothing => rfl
  | failed e =>
    rw [hpass] at hmessage
    cases hmessage

theorem length_gained_le : pass.gained.length ≤ 1 := by
  rw [gained]
  cases pass.outcome.message? with
  | none => exact Nat.zero_le 1
  | some m => exact Nat.le_refl 1

end Pass

/-- The client gives a record at most in each pass. -/
theorem length_gained_all_le (passes : List Pass) :
    (passes.flatMap Pass.gained).length ≤ passes.length := by
  induction passes with
  | nil => exact Nat.le_refl 0
  | cons pass passes ih =>
    rw [List.flatMap_cons, List.length_append, List.length_cons]
    have hfirst := pass.length_gained_le
    omega

theorem keep_nil (records : List Record) : keep [] records = records :=
  List.filter_eq_self.2 fun _ _ => by simp

theorem reverse_keep (released : List Partition) (records : List Record) :
    (keep released records).reverse = keep released records.reverse :=
  (List.filter_reverse ..).symm

section Poll

variable [Rebalancing κ]

def gatherOnce (l : Listener (Consumer κ) σ ε) (timeout : Nat) :
    EStateM ε (Consumer κ × σ) (Option Message × List Partition) := fun (c, s) =>
  let (outcome, c) := pollClient timeout c
  match outcome.failure? with
  | some e => .error (l.refuse (.client Operation.poll.name e)) (c, s)
  | none =>
    match dispatchAll l (c, s) with
    | .ok released w => .ok (outcome.message?, released) w
    | .error e w => .error e w

section Next

variable {l : Listener (Consumer κ) σ ε} {room timeout : Nat} {read : List Record}
  {w v : Consumer κ × σ}

/-- A poll is a pass, and another poll if there may be more to read at once. -/
theorem pollUpTo_succ :
    pollUpTo l (room + 1) timeout read w =
      match gatherOnce l timeout w with
      | .error e w => .error e w
      | .ok (message, released) w =>
        let read := (message.map Record.ofMessage).toList ++ read
        if message.isSome = true ∧ released = [] then pollUpTo l room 0 read w
        else .ok (keep released read).reverse w := by
  obtain ⟨c, s⟩ := w
  simp only [pollUpTo, gatherOnce, bind_apply, get_apply, set_apply]
  cases (pollClient timeout c).1 with
  | failed e => rfl
  | nothing =>
    simp only [bind_apply, Polled.failure?]
    cases dispatchAll l ((pollClient timeout c).2, s) with
    | error e w => rfl
    | ok released w => rfl
  | message m =>
    simp only [bind_apply, Polled.failure?]
    cases dispatchAll l ((pollClient timeout c).2, s) with
    | error e w => rfl
    | ok released w =>
      by_cases h : released = []
      · simp [h, Polled.message?]
      · simp [h, Polled.message?]

/-- The pass that fails is the last one. -/
theorem pollUpTo_of_error {e : ε} (h : gatherOnce l timeout w = .error e v) :
    pollUpTo l (room + 1) timeout read w = .error e v := by
  rw [pollUpTo_succ, h]

variable {message : Option Message} {released : List Partition}
  (h : gatherOnce l timeout w = .ok (message, released) v)
include h

theorem pollUpTo_of_stop (hstop : ¬(message.isSome = true ∧ released = [])) :
    pollUpTo l (room + 1) timeout read w =
      .ok (keep released ((message.map Record.ofMessage).toList ++ read)).reverse v := by
  rw [pollUpTo_succ, h]
  exact if_neg hstop

theorem pollUpTo_of_go (hgo : message.isSome = true ∧ released = []) :
    pollUpTo l (room + 1) timeout read w =
      pollUpTo l room 0 ((message.map Record.ofMessage).toList ++ read) v := by
  rw [pollUpTo_succ, h]
  exact if_pos hgo

end Next

section Pass

variable (l : Listener (Consumer κ) σ ε) {timeout : Nat} {c : Consumer κ} (s : σ)

/-- Nobody is told of what the client noticed before it failed. -/
theorem gatherOnce_of_failure {e : ClientError}
    (h : (pollClient timeout c).1.failure? = some e) :
    gatherOnce l timeout (c, s) =
      .error (l.refuse (.client Operation.poll.name e)) ((pollClient timeout c).2, s) := by
  simp only [gatherOnce, h]

theorem gatherOnce_of_sound (h : (pollClient timeout c).1.failure? = none) :
    gatherOnce l timeout (c, s) =
      match dispatchAll l ((pollClient timeout c).2, s) with
      | .ok released w => .ok ((pollClient timeout c).1.message?, released) w
      | .error e w => .error e w := by
  simp only [gatherOnce, h]

end Pass

structure Passed (l : Listener (Consumer κ) σ ε) (timeout : Nat) (c : Consumer κ) (s : σ)
    (pass : Pass) (left : List RebalanceEvent) : Prop where
  wait : pass.wait = timeout
  pending : c.pending ++ queued c.closing pass.raised = pass.dispatched ++ left
  journaled : ∀ j, gatherOnce l.journaled timeout (c.withJournal j, s) =
    inState (journaledAt (j ++ pass.journal c.closing)) (gatherOnce l timeout (c, s))
  atEnd : ∃ client, (endState (gatherOnce l timeout) (c, s)).1 = { c with client, pending := left }
  ok : ∀ {message released w}, gatherOnce l timeout (c, s) = .ok (message, released) w →
    pass.outcome.failure? = none ∧ pass.outcome.message? = message ∧ pass.released = released ∧
      left = []

namespace Passed

variable {l : Listener (Consumer κ) σ ε} {timeout : Nat} {c : Consumer κ} {s : σ}

/-- Of a client that fails nobody is told, and what it noticed stays pending. -/
theorem of_failure {e : ClientError} (hf : (pollClient timeout c).1.failure? = some e) :
    Passed l timeout c s ⟨timeout, (pollClient timeout c).1, c.noticed timeout, []⟩
      (pollClient timeout c).2.pending := by
  obtain ⟨client, hpolled⟩ := pollClient_eq timeout c
  have hfailed := gatherOnce_of_failure l s hf
  refine ⟨rfl, ?_, fun j => ?_, ⟨client, ?_⟩, fun h => ?_⟩
  · rw [hpolled]
    rfl
  · have hjournaled := pollClient_journaled timeout c j
    have hagain : (pollClient timeout (c.withJournal j)).1.failure? = some e := by rwa [hjournaled]
    rw [gatherOnce_of_failure _ s hagain, hfailed, hjournaled, Pass.journal, List.flatMap_nil,
      List.append_nil]
    rfl
  · rw [endState_of_error hfailed, hpolled]
  · rw [hfailed] at h
    cases h

/-- Otherwise the listener is told of what is pending then. -/
theorem of_sound (hf : (pollClient timeout c).1.failure? = none) {told : List Telling}
    {left : List RebalanceEvent} (htold : Dispatched l (pollClient timeout c).2 s told left) :
    Passed l timeout c s ⟨timeout, (pollClient timeout c).1, c.noticed timeout, told⟩ left := by
  obtain ⟨client, hpolled⟩ := pollClient_eq timeout c
  have hsound := gatherOnce_of_sound l s hf
  refine ⟨rfl, ?_, fun j => ?_, ?_, fun h => ?_⟩
  · have hpending := htold.pending
    rw [hpolled] at hpending
    exact hpending
  · have hjournaled := pollClient_journaled timeout c j
    have hagain : (pollClient timeout (c.withJournal j)).1.failure? = none := by rwa [hjournaled]
    rw [gatherOnce_of_sound _ s hagain, hsound, hjournaled, htold.journaled, List.append_assoc,
      List.cons_append, Pass.journal]
    cases dispatchAll l ((pollClient timeout c).2, s) <;> rfl
  · obtain ⟨client', hend⟩ := htold.atEnd
    refine ⟨client', ?_⟩
    rw [hpolled] at hend
    rw [endState] at hend ⊢
    rw [hsound, hpolled]
    cases hd : dispatchAll l ({ c with
        client, pending := c.pending ++ queued c.closing (c.noticed timeout) }, s) <;>
      simpa only [hd] using hend
  · rw [hsound] at h
    cases hd : dispatchAll l ((pollClient timeout c).2, s) with
    | error e w =>
      rw [hd] at h
      cases h
    | ok released w =>
      rw [hd] at h
      cases h
      obtain ⟨hleft, hreleased⟩ := htold.ok hd
      exact ⟨hf, rfl, hreleased.symm, hleft⟩

end Passed

/-- Whatever the client does and the listener says, it is a pass. -/
theorem passed {l : Listener (Consumer κ) σ ε} (hl : l.OnlyCommits) (timeout : Nat)
    (c : Consumer κ) (s : σ) : ∃ pass left, Passed l timeout c s pass left := by
  cases hf : (pollClient timeout c).1.failure? with
  | some e => exact ⟨_, _, .of_failure hf⟩
  | none =>
    obtain ⟨told, left, htold⟩ := dispatched_all hl (pollClient timeout c).2 s
    exact ⟨_, left, .of_sound hf htold⟩

/-! ### Passes in a row -/

inductive InTurn (closing : Bool) : List RebalanceEvent → Nat → Nat → List Pass → Prop
  | full {pending : List RebalanceEvent} {timeout : Nat} : InTurn closing pending timeout 0 []
  | last {pending : List RebalanceEvent} {timeout room : Nat} {pass : Pass}
      (hwait : pass.wait = timeout) (htold : pass.dispatched = pending ++ queued closing pass.raised)
      (hsound : pass.outcome.failure? = none) (hstop : ¬pass.GoesOn) :
      InTurn closing pending timeout (room + 1) [pass]
  | more {pending : List RebalanceEvent} {timeout room : Nat} {pass : Pass} {passes : List Pass}
      (hwait : pass.wait = timeout)
      (htold : pass.dispatched = pending ++ queued closing pass.raised)
      (hgo : pass.GoesOn) (hrest : InTurn closing [] 0 room passes) :
      InTurn closing pending timeout (room + 1) (pass :: passes)

namespace InTurn

variable {closing : Bool} {pending : List RebalanceEvent} {timeout room : Nat} {pass : Pass}
  {passes : List Pass}

theorem length_le (h : InTurn closing pending timeout room passes) : passes.length ≤ room := by
  induction h with
  | full => exact Nat.le_refl 0
  | last => exact Nat.le_add_left 1 _
  | more _ _ _ _ ih => exact Nat.succ_le_succ ih

/-- With room for a record the client is polled at least once. -/
theorem ne_nil (h : InTurn closing pending timeout room passes) (hroom : 0 < room) :
    passes ≠ [] := by
  cases h with
  | full => exact absurd hroom (Nat.lt_irrefl 0)
  | last => exact List.cons_ne_nil _ _
  | more => exact List.cons_ne_nil _ _

theorem sound (h : InTurn closing pending timeout room passes) :
    ∀ pass ∈ passes, pass.outcome.failure? = none := by
  induction h with
  | full => exact List.forall_mem_nil _
  | last _ _ hsound _ => exact List.forall_mem_singleton.2 hsound
  | more _ _ hgo _ ih => exact List.forall_mem_cons.2 ⟨hgo.sound, ih⟩

/-- The first pass may wait, and tells of what was pending before. -/
theorem head (h : InTurn closing pending timeout room passes) :
    ∀ pass ∈ passes.head?,
      pass.wait = timeout ∧ pass.dispatched = pending ++ queued closing pass.raised := by
  cases h with
  | full => exact fun _ h => absurd h (Option.not_mem_none _)
  | last hwait htold => exact fun _ h => Option.some.inj h ▸ ⟨hwait, htold⟩
  | more hwait htold => exact fun _ h => Option.some.inj h ▸ ⟨hwait, htold⟩

/-- With nothing left to tell, each pass tells of what was noticed in it. -/
theorem forall_mem (h : InTurn closing [] 0 room passes) :
    ∀ pass ∈ passes, pass.wait = 0 ∧ pass.dispatched = queued closing pass.raised := by
  induction passes generalizing room with
  | nil => exact List.forall_mem_nil _
  | cons pass passes ih =>
    refine List.forall_mem_cons.2 ⟨h.head pass rfl, ?_⟩
    cases h with
    | last => exact List.forall_mem_nil _
    | more _ _ _ hrest => exact ih hrest

theorem tail (h : InTurn closing pending timeout room passes) :
    ∀ pass ∈ passes.tail, pass.wait = 0 ∧ pass.dispatched = queued closing pass.raised := by
  cases h with
  | full => exact List.forall_mem_nil _
  | last => exact List.forall_mem_nil _
  | more _ _ _ hrest => exact hrest.forall_mem

/-- A pass that is followed by another has a message and gives up nothing. -/
theorem dropLast (h : InTurn closing pending timeout room passes) :
    ∀ pass ∈ passes.dropLast, pass.GoesOn := by
  induction h with
  | full => exact List.forall_mem_nil _
  | last => exact List.forall_mem_nil _
  | @more _ _ _ pass passes _ _ hgo _ ih =>
    cases passes with
    | nil => exact List.forall_mem_nil _
    | cons next passes => exact List.forall_mem_cons.2 ⟨hgo, ih⟩

/-- With room left it is the client that ends the poll, or a partition that is given up. -/
theorem getLast (h : InTurn closing pending timeout room passes) (hlength : passes.length < room) :
    ∃ pass ∈ passes.getLast?, ¬pass.GoesOn := by
  induction h with
  | full => exact absurd hlength (Nat.lt_irrefl 0)
  | @last _ _ _ pass _ _ _ hstop => exact ⟨pass, rfl, hstop⟩
  | @more _ _ _ pass passes _ _ _ hrest ih =>
    obtain ⟨last, hlast, hstop⟩ := ih (Nat.lt_of_succ_lt_succ hlength)
    refine ⟨last, ?_, hstop⟩
    cases passes with
    | nil => cases hlast
    | cons next passes => exact hlast

end InTurn

structure Gathered (l : Listener (Consumer κ) σ ε) (room timeout : Nat) (read : List Record)
    (c : Consumer κ) (s : σ) (passes : List Pass) (left : List RebalanceEvent) : Prop where
  pending : c.pending ++ passes.flatMap (fun pass => queued c.closing pass.raised) =
    passes.flatMap Pass.dispatched ++ left
  journaled : ∀ j, pollUpTo l.journaled room timeout read (c.withJournal j, s) =
    inState (journaledAt (j ++ passes.flatMap (Pass.journal · c.closing)))
      (pollUpTo l room timeout read (c, s))
  atEnd : ∃ client,
    (endState (pollUpTo l room timeout read) (c, s)).1 = { c with client, pending := left }
  ok : ∀ {records w}, pollUpTo l room timeout read (c, s) = .ok records w →
    InTurn c.closing c.pending timeout room passes ∧
      records = keep (passes.flatMap Pass.released) (read.reverse ++ passes.flatMap Pass.gained) ∧
      (passes ≠ [] → left = [])

namespace Gathered

variable {l : Listener (Consumer κ) σ ε} {room timeout : Nat} {read : List Record}
  {c d : Consumer κ} {s t : σ} {pass : Pass} {left : List RebalanceEvent}

/-- Without room the client is not polled. -/
theorem of_full : Gathered l 0 timeout read c s [] c.pending := by
  refine ⟨?_, fun j => ?_, ⟨c.client, rfl⟩, fun h => ?_⟩
  · rw [List.flatMap_nil, List.flatMap_nil, List.append_nil, List.nil_append]
  · rw [List.flatMap_nil, List.append_nil]
    rfl
  · cases h
    refine ⟨.full, ?_, fun h => absurd rfl h⟩
    rw [List.flatMap_nil, List.flatMap_nil, List.append_nil, keep_nil]

theorem of_error {e : ε} {w : Consumer κ × σ} (hpass : Passed l timeout c s pass left)
    (hg : gatherOnce l timeout (c, s) = .error e w) :
    Gathered l (room + 1) timeout read c s [pass] left := by
  have hfailed : pollUpTo l (room + 1) timeout read (c, s) = .error e w := pollUpTo_of_error hg
  refine ⟨?_, fun j => ?_, ?_, fun h => ?_⟩
  · rw [List.flatMap_singleton, List.flatMap_singleton]
    exact hpass.pending
  · have hjournaled := hpass.journaled j
    rw [hg] at hjournaled
    rw [pollUpTo_of_error hjournaled, hfailed, List.flatMap_singleton]
    rfl
  · rw [endState_of_error hfailed, ← endState_of_error hg]
    exact hpass.atEnd
  · rw [hfailed] at h
    cases h

variable {message : Option Message} {released : List Partition}

/-- The last pass ends the poll, and nothing is pending after it. -/
theorem of_stop {w : Consumer κ × σ} (hpass : Passed l timeout c s pass left)
    (hg : gatherOnce l timeout (c, s) = .ok (message, released) w) (hstop : ¬pass.GoesOn) :
    Gathered l (room + 1) timeout read c s [pass] [] := by
  obtain ⟨hsound, rfl, rfl, rfl⟩ := hpass.ok hg
  have hdone : pollUpTo l (room + 1) timeout read (c, s) =
      .ok (keep pass.released (pass.gained ++ read)).reverse w := pollUpTo_of_stop hg hstop
  refine ⟨?_, fun j => ?_, ?_, fun h => ?_⟩
  · rw [List.flatMap_singleton, List.flatMap_singleton]
    exact hpass.pending
  · have hjournaled := hpass.journaled j
    rw [hg] at hjournaled
    rw [pollUpTo_of_stop hjournaled hstop, hdone, List.flatMap_singleton]
    rfl
  · rw [endState_of_ok hdone, ← endState_of_ok hg]
    exact hpass.atEnd
  · rw [hdone] at h
    cases h
    have htold : pass.dispatched = c.pending ++ queued c.closing pass.raised := by
      rw [hpass.pending, List.append_nil]
    refine ⟨.last hpass.wait htold hsound hstop, ?_, fun _ => rfl⟩
    rw [List.flatMap_singleton, List.flatMap_singleton, reverse_keep, List.reverse_append,
      pass.reverse_gained]

/-- A pass that goes on comes in front of the others, which find nothing pending. -/
theorem cons {passes : List Pass} {last : List RebalanceEvent}
    (hpass : Passed l timeout c s pass left)
    (hg : gatherOnce l timeout (c, s) = .ok (message, released) (d, t)) (hgo : pass.GoesOn)
    (hrest : Gathered l room 0 (pass.gained ++ read) d t passes last) :
    Gathered l (room + 1) timeout read c s (pass :: passes) last := by
  obtain ⟨client, hend⟩ := hpass.atEnd
  obtain ⟨-, rfl, rfl, rfl⟩ := hpass.ok hg
  rw [endState_of_ok hg] at hend
  obtain rfl : d = { c with client, pending := [] } := hend
  have htold : pass.dispatched = c.pending ++ queued c.closing pass.raised := by
    rw [hpass.pending, List.append_nil]
  have hmore : pollUpTo l (room + 1) timeout read (c, s) =
      pollUpTo l room 0 (pass.gained ++ read) ({ c with client, pending := [] }, t) :=
    pollUpTo_of_go hg hgo
  refine ⟨?_, fun j => ?_, ?_, fun h => ?_⟩
  · rw [List.flatMap_cons, List.flatMap_cons, ← List.append_assoc, ← htold, List.append_assoc,
      ← hrest.pending]
    rfl
  · have hjournaled := hpass.journaled j
    rw [hg] at hjournaled
    rw [pollUpTo_of_go hjournaled hgo, hmore, List.flatMap_cons, ← List.append_assoc]
    exact hrest.journaled _
  · obtain ⟨client', hend⟩ := hrest.atEnd
    exact ⟨client', (congrArg Prod.fst (endState_congr hmore)).trans hend⟩
  · rw [hmore] at h
    obtain ⟨hturn, hrecords, hleft⟩ := hrest.ok h
    refine ⟨.more hpass.wait htold hgo hturn, ?_, fun _ => ?_⟩
    · rw [hrecords, List.flatMap_cons, List.flatMap_cons, hgo.2, List.nil_append,
        List.reverse_append, pass.reverse_gained, List.append_assoc]
    · by_cases hnone : passes = []
      · have hpending := hrest.pending
        rw [hnone] at hpending
        exact hpending.symm
      · exact hleft hnone

end Gathered

/-- A poll is made of passes, also one that fails. -/
theorem gathered {l : Listener (Consumer κ) σ ε} (hl : l.OnlyCommits) (room timeout : Nat)
    (read : List Record) (c : Consumer κ) (s : σ) :
    ∃ passes left, Gathered l room timeout read c s passes left := by
  induction room generalizing timeout read c s with
  | zero => exact ⟨[], c.pending, .of_full⟩
  | succ room ih =>
    obtain ⟨pass, left, hpass⟩ := passed hl timeout c s
    cases hg : gatherOnce l timeout (c, s) with
    | error e w => exact ⟨[pass], left, .of_error hpass hg⟩
    | ok gained w =>
      by_cases hgo : pass.GoesOn
      · obtain ⟨passes, last, hrest⟩ := ih 0 (pass.gained ++ read) w.1 w.2
        exact ⟨pass :: passes, last, .cons hpass hg hgo hrest⟩
      · exact ⟨[pass], [], .of_stop hpass hg hgo⟩

end Poll

/-- What a poll that succeeds has done in its passes, and what it gives. -/
structure Gathers (c : Consumer κ) (room timeout : Nat) (passes : List Pass)
    (records : List Record) : Prop where
  begins : passes ≠ []
  waits : (∀ pass ∈ passes.head?, pass.wait = timeout) ∧ ∀ pass ∈ passes.tail, pass.wait = 0
  tells : (∀ pass ∈ passes.head?, pass.dispatched = c.pending ++ queued c.closing pass.raised) ∧
    ∀ pass ∈ passes.tail, pass.dispatched = queued c.closing pass.raised
  sound : ∀ pass ∈ passes, pass.outcome.failure? = none
  goesOn : ∀ pass ∈ passes.dropLast, pass.GoesOn
  stops : passes.length < room → ∃ pass ∈ passes.getLast?, ¬pass.GoesOn
  records_eq : records = (passes.flatMap Pass.gained).filter
    fun record => record.partition ∉ passes.flatMap Pass.released
  length_le : records.length ≤ room

/-- A poll that succeeds gives what the client gave in its passes, in order, but for the partitions
that were given up meanwhile. -/
theorem poll_gathers [GroupClient κ] {l : Listener (Consumer κ) σ ε} (hl : l.OnlyCommits)
    {c d : Consumer κ} {maxRecords timeout : Nat} (hmax : c.maxRecords = max 1 maxRecords) {s t : σ}
    {records : List Record} (hpoll : poll timeout l (c, s) = .ok records (d, t)) :
    ∃ passes : List Pass,
      poll timeout l.journaled (c.withJournal [], s) =
          .ok records (d.withJournal (passes.flatMap (Pass.journal · c.closing)), t) ∧
        Gathers c (max 1 maxRecords) timeout passes records := by
  have hsame : poll timeout l.journaled (c.withJournal [], s) =
      pollUpTo l.journaled c.maxRecords timeout [] (c.withJournal [], s) := rfl
  have hplain : pollUpTo l c.maxRecords timeout [] (c, s) = .ok records (d, t) := hpoll
  rw [hmax] at hsame hplain
  obtain ⟨passes, left, hpasses⟩ := gathered hl (max 1 maxRecords) timeout [] c s
  obtain ⟨hturn, hrecords, -⟩ := hpasses.ok hplain
  rw [List.reverse_nil, List.nil_append] at hrecords
  have hlength : records.length ≤ max 1 maxRecords :=
    calc records.length
      _ ≤ (passes.flatMap Pass.gained).length := hrecords ▸ List.length_filter_le _ _
      _ ≤ passes.length := length_gained_all_le passes
      _ ≤ max 1 maxRecords := hturn.length_le
  refine ⟨passes, ?_, ?_⟩
  · rw [hsame, hpasses.journaled, hplain, List.nil_append]
    rfl
  · exact {
      begins := hturn.ne_nil (by omega)
      waits := ⟨fun pass h => (hturn.head pass h).1, fun pass h => (hturn.tail pass h).1⟩
      tells := ⟨fun pass h => (hturn.head pass h).2, fun pass h => (hturn.tail pass h).2⟩
      sound := hturn.sound
      goesOn := hturn.dropLast
      stops := hturn.getLast
      records_eq := hrecords
      length_le := hlength }

def handingOver : Listener (Consumer ScriptedClient) (List Rebalance) BrokerError where
  notify commit change := fun (c, told) =>
    match commit (.ofList (change.released.map fun p => (p, 7))) c with
    | .ok u c => .ok u (c, told ++ [change])
    | .error e c => .error e (c, told ++ [change])
  refuse := id

theorem onlyCommits_handingOver : handingOver.OnlyCommits := by
  intro change c told
  refine ⟨[.ofList (change.released.map fun p => (p, 7))], ?_⟩
  simp only [endState, handingOver, afterCommits, List.foldl_cons, List.foldl_nil]
  cases commit (.ofList (change.released.map fun p => (p, 7))) c <;> rfl

/-- The client gives four messages. With the third one a partition is taken away. -/
def fourMessages : Consumer ScriptedClient :=
  let message (n : Int32) (offset : Int64) : Message :=
    ⟨⟨"t", n⟩, offset, .notAvailable, none, none⟩
  .create
    { script :=
        [⟨.message (message 0 5), []⟩, ⟨.message (message 1 9), [.change (.assigned [⟨"t", 2⟩])]⟩,
          ⟨.message (message 0 6), [.change (.revoked [⟨"t", 1⟩])]⟩, ⟨.message (message 0 7), []⟩] }
    0 10

/-- The third pass takes a partition away, and the record that was read of it is dropped. -/
theorem poll_gathers_until_a_partition_is_taken_away :
    handingOver.OnlyCommits ∧ fourMessages.maxRecords = max 1 10 ∧
      ∃ d passes,
        poll 50 handingOver (fourMessages, []) =
            .ok [⟨⟨"t", 0⟩, 5, -1, []⟩, ⟨⟨"t", 0⟩, 6, -1, []⟩]
              (d, [.assigned [⟨"t", 2⟩], .revoked [⟨"t", 1⟩]]) ∧
          d.client.waits = [0, 0, 50] ∧ d.client.script.length = 1 ∧
          Gathers fourMessages (max 1 10) 50 passes
            [⟨⟨"t", 0⟩, 5, -1, []⟩, ⟨⟨"t", 0⟩, 6, -1, []⟩] := by
  have hrun : (match poll 50 handingOver (fourMessages, []) with
      | .ok records w => some (records, w.2, w.1.client.waits, w.1.client.script.length)
      | .error _ _ => none) =
        some ([⟨⟨"t", 0⟩, 5, -1, []⟩, ⟨⟨"t", 0⟩, 6, -1, []⟩],
          [.assigned [⟨"t", 2⟩], .revoked [⟨"t", 1⟩]], [0, 0, 50], 1) := by decide +kernel
  cases hpoll : poll 50 handingOver (fourMessages, []) with
  | error e w =>
    rw [hpoll] at hrun
    cases hrun
  | ok records w =>
    obtain ⟨d, told⟩ := w
    rw [hpoll] at hrun
    simp only [Option.some.injEq, Prod.mk.injEq] at hrun
    obtain ⟨rfl, rfl, hwaits, hrest⟩ := hrun
    obtain ⟨passes, -, hgathers⟩ := poll_gathers onlyCommits_handingOver rfl hpoll
    exact ⟨onlyCommits_handingOver, rfl, d, passes, rfl, hwaits, hrest, hgathers⟩

end Consumer

end AckRelay
