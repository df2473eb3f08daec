import AckRelay.Proofs.Broker.Scripted
import Mathlib.Logic.Relation

namespace AckRelay.ScriptedBroker

inductive Move : ScriptedBroker → ScriptedBroker → Prop
  | noted (b : ScriptedBroker) {call : Call} (h : call.commit? = none) : Move b (b.noted call)
  | refused (b : ScriptedBroker) {call : Call} {offsets : Offsets}
      (h : call.commit? = some (offsets, false)) : Move b (b.noted call)
  | accepted (b : ScriptedBroker) {call : Call} {offsets : Offsets}
      (h : call.commit? = some (offsets, true)) : Move b ((b.noted call).store offsets)
  | rearranged (b : ScriptedBroker) (assignment : List Partition) (paused : PartitionSet)
      (script : List PollStep) (closed : Bool) :
      Move b { b with assignment, paused, script, closed }
  | turned (b : ScriptedBroker) (refusesCommits : Bool) (faults : List Operation) :
      Move b { b with refusesCommits, faults }

abbrev Moves : ScriptedBroker → ScriptedBroker → Prop := Relation.ReflTransGen Move

theorem chains_moves {ε : Type} : Chains Moves (fun b (_ : ε) c => Moves b c) where
  refl _ := .refl
  trans h h' := h.trans h'
  error h h' := h.trans h'

section Operations

variable {α : Type} {b : ScriptedBroker}

abbrev IsMoves (op : EStateM BrokerError ScriptedBroker α) : Prop :=
  Ends Moves (fun b _ c => Moves b c) op

/-- A call is noted, and that is one move. -/
theorem moves_note {call : Call} (h : call.commit? = none) : IsMoves (note call) := by
  constructor
  · intro b _ c hb
    rcases note_cases call b with hn | ⟨e, hn⟩ <;> rw [hn] at hb <;> cases hb
    exact .single (.noted b h)
  · intro b e c hb
    rcases note_cases call b with hn | ⟨e', hn⟩ <;> rw [hn] at hb <;> cases hb
    exact .single (.noted b h)

/-- A call that is answered from the state of the broker. -/
theorem moves_answer {call : Call} (h : call.commit? = none)
    {f : ScriptedBroker → EStateM BrokerError ScriptedBroker α} (hf : ∀ b, IsMoves (f b)) :
    IsMoves (do note call; f (← get)) :=
  Ends.bind chains_moves (moves_note h) fun _ =>
    Ends.bind chains_moves (Ends.get chains_moves) hf

/-- A call that changes the broker by one move. -/
theorem moves_change {call : Call} (h : call.commit? = none) {f : ScriptedBroker → ScriptedBroker}
    (hf : ∀ b, Move b (f b)) :
    IsMoves (do note call; modify f : EStateM BrokerError ScriptedBroker Unit) :=
  Ends.bind chains_moves (moves_note h) fun _ => Ends.modify fun b => .single (hf b)

theorem moves_subscribe (topics : List String) :
    IsMoves (Broker.subscribe topics : EStateM _ ScriptedBroker Unit) :=
  moves_note rfl

theorem moves_assign (ps : List Partition) :
    IsMoves (Broker.assign ps : EStateM _ ScriptedBroker Unit) :=
  moves_change rfl fun b => .rearranged b ps b.paused b.script b.closed

theorem moves_assignment : IsMoves (Broker.assignment : EStateM _ ScriptedBroker _) :=
  moves_answer rfl fun _ => Ends.pure chains_moves _

theorem moves_partitionsFor (topic : String) :
    IsMoves (Broker.partitionsFor topic : EStateM _ ScriptedBroker _) := by
  refine moves_answer rfl fun b => ?_
  split
  · exact Ends.pure chains_moves _
  · exact Ends.throw fun _ => .refl

theorem moves_endOffsets (ps : List Partition) :
    IsMoves (Broker.endOffsets ps : EStateM _ ScriptedBroker _) := by
  refine moves_answer rfl fun b => ?_
  refine Ends.bind chains_moves (Ends.mapM chains_moves (fun p => ?_) ps) fun _ =>
    Ends.pure chains_moves _
  split
  · exact Ends.pure chains_moves _
  · exact Ends.throw fun _ => .refl

theorem moves_committed (ps : List Partition) :
    IsMoves (Broker.committed ps : EStateM _ ScriptedBroker _) :=
  moves_answer rfl fun _ => Ends.pure chains_moves _

theorem moves_pause (ps : List Partition) :
    IsMoves (Broker.pause ps : EStateM _ ScriptedBroker Unit) :=
  moves_change rfl fun b => .rearranged b b.assignment _ b.script b.closed

theorem moves_resume (ps : List Partition) :
    IsMoves (Broker.resume ps : EStateM _ ScriptedBroker Unit) :=
  moves_change rfl fun b => .rearranged b b.assignment _ b.script b.closed

theorem moves_close : IsMoves (Broker.close : EStateM _ ScriptedBroker Unit) :=
  moves_change rfl fun b => .rearranged b b.assignment b.paused b.script true

/-- A commit is one move: it is refused, or accepted and stored. -/
theorem moves_commitAs {call : Bool → Call} {offsets : Offsets}
    (hop : (call true).operation? = (call false).operation?)
    (hcall : ∀ accepted, (call accepted).commit? = some (offsets, accepted)) :
    IsMoves (commitAs call offsets) := by
  constructor
  · intro b _ c hb
    rcases commitAs_cases call offsets b hop with hn | ⟨e, hn⟩ <;> rw [hn] at hb <;> cases hb
    exact .single (.accepted b (hcall true))
  · intro b e c hb
    rcases commitAs_cases call offsets b hop with hn | ⟨e', hn⟩ <;> rw [hn] at hb <;> cases hb
    exact .single (.refused b (hcall false))

theorem moves_commit (offsets : Offsets) : IsMoves (commit offsets) :=
  moves_commitAs rfl fun _ => rfl

theorem moves_handOver (offsets : Offsets) : IsMoves (handOver offsets) :=
  moves_commitAs rfl fun _ => rfl

/-- A poll is noted, and takes a step of the script. -/
theorem moves_polled (timeout : Nat) (b : ScriptedBroker) : Moves b (b.polled timeout) := by
  have hnoted : Move b (b.noted (.poll timeout)) := .noted b rfl
  have hspent :=
    Move.rearranged (b.noted (.poll timeout)) b.assignment b.paused b.script.tail b.closed
  exact (Relation.ReflTransGen.single hnoted).tail hspent

/-- A rebalance that is completed only rearranges the broker. -/
theorem moves_complete (b : ScriptedBroker) (change : Rebalance) : Moves b (b.complete change) := by
  cases change with
  | assigned ps => exact .single (.rearranged b (b.assignment ++ ps) b.paused b.script b.closed)
  | revoked ps => exact .single (.rearranged b _ _ b.script b.closed)
  | lost ps => exact .single (.rearranged b _ _ b.script b.closed)

end Operations

def storedBy (positions : Offsets) (call : Offsets × Bool) : Offsets :=
  if call.2 then call.1.entries.foldl (fun m e => m.insert e.1 (e.2 + 1)) positions else positions

def stored (calls : List (Offsets × Bool)) (positions : Offsets) : Offsets :=
  calls.foldl storedBy positions

/-- An accepted commit stores the offset after each that it gives, and leaves the others. -/
theorem get?_storedBy (positions : Offsets) (call : Offsets × Bool) (p : Partition) :
    (storedBy positions call).get? p =
      if call.2 then ((call.1.get? p).map (· + 1)).or (positions.get? p) else positions.get? p := by
  rw [storedBy]
  split
  · exact PartitionMap.get?_foldl_entries call.1 (· + 1) positions p
  · rfl

theorem stored_append (cs ds : List (Offsets × Bool)) (positions : Offsets) :
    stored (cs ++ ds) positions = stored ds (stored cs positions) :=
  List.foldl_append

/-- The positions are what the commits have made of them. -/
theorem positions_of_moves {b c : ScriptedBroker} (h : Moves b c) :
    ∃ calls, c.commitCalls = b.commitCalls ++ calls ∧ c.positions = stored calls b.positions := by
  induction h with
  | refl => exact ⟨[], (List.append_nil _).symm, rfl⟩
  | @tail c d _ hmove ih =>
    obtain ⟨calls, hcalls, hpositions⟩ := ih
    have hlast : ∀ call : Call, (c.noted call).commitCalls =
        b.commitCalls ++ (calls ++ call.commit?.toList) := by
      intro call
      rw [commitCalls_noted, hcalls, List.append_assoc]
    cases hmove with
    | @noted call hcall =>
      have hsame := hlast call
      rw [hcall, Option.toList_none, List.append_nil] at hsame
      exact ⟨calls, hsame, hpositions⟩
    | @refused call offsets hcall =>
      refine ⟨calls ++ [(offsets, false)], ?_, ?_⟩
      · rw [hlast call, hcall, Option.toList_some]
      · rw [stored_append, ← hpositions]
        rfl
    | @accepted call offsets hcall =>
      refine ⟨calls ++ [(offsets, true)], ?_, ?_⟩
      · have hnoted := hlast call
        rw [hcall, Option.toList_some] at hnoted
        exact hnoted
      · rw [stored_append, ← hpositions]
        rfl
    | rearranged assignment paused script closed => exact ⟨calls, hcalls, hpositions⟩
    | turned refusesCommits faults => exact ⟨calls, hcalls, hpositions⟩

end AckRelay.ScriptedBroker
