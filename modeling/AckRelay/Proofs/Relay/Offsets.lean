import AckRelay.Broker.ScriptedClient
import AckRelay.Proofs.Broker.Consumer
import AckRelay.Proofs.Host.Command
import AckRelay.Proofs.Relay.Audit

namespace AckRelay

variable {β ν : Type}

section Committable

variable {m : Offsets} {p : Partition} {o : Int64}

theorem Offsets.committable_empty : Offsets.Committable ∅ := by
  intro p o ho
  cases ho

theorem Offsets.Committable.insert (hm : m.Committable) (ho : isCommittable o = true) :
    Offsets.Committable (m.insert p o) := by
  intro q n hn
  rw [PartitionMap.get?_insert] at hn
  split at hn
  · cases hn
    exact ho
  · exact hm q n hn

theorem Offsets.Committable.mono {n : Offsets} (hm : m.Committable)
    (hsub : ∀ p o, n.get? p = some o → m.get? p = some o) : n.Committable :=
  fun p o ho => hm p o (hsub p o ho)

theorem CommitBatch.committable_record {b : CommitBatch} (hb : b.pending.Committable)
    (ho : isCommittable o = true) : (b.record p o).pending.Committable := by
  rw [pending_record]
  refine hb.insert ?_
  cases hold : b.pending.get? p with
  | none => exact ho
  | some old =>
    have hmax : higher o (some old) = if o ≤ old then old else o := rfl
    rw [hmax]
    split
    · exact hb p old hold
    · exact ho

theorem CommitBatch.committable_take {b : CommitBatch} (hb : b.pending.Committable)
    (ps : List Partition) :
    (b.take ps).1.Committable ∧ (b.take ps).2.pending.Committable := by
  constructor
  · refine hb.mono fun p o ho => ?_
    rw [(get?_take b ps p).1] at ho
    split at ho
    · exact ho
    · cases ho
  · refine hb.mono fun p o ho => ?_
    rw [(get?_take b ps p).2] at ho
    split at ho
    · cases ho
    · exact ho

end Committable

structure Desk.Sound (d : Desk ν) (asked : List Offsets) : Prop where
  pending : ∀ {batch}, d.mode = .grouped batch → batch.pending.Committable
  asked : ∀ m ∈ asked, Offsets.Committable m

namespace Desk.Sound

variable {d e : Desk ν} {asked : List Offsets} {batch : CommitBatch} {m : Offsets}

theorem congr (h : d.Sound asked) (hmode : e.mode = d.mode) : e.Sound asked :=
  ⟨fun hm => h.pending (hmode.symm.trans hm), h.asked⟩

theorem setMode (h : d.Sound asked) (hb : batch.pending.Committable) :
    Sound { d with mode := .grouped batch } asked := by
  refine ⟨fun hm => ?_, h.asked⟩
  cases hm
  exact hb

theorem ask (h : d.Sound asked) (hm : m.Committable) : d.Sound (asked ++ [m]) := by
  refine ⟨h.pending, fun n hn => ?_⟩
  rcases List.mem_append.1 hn with hn | hn
  · exact h.asked n hn
  · rw [List.mem_singleton.1 hn]
    exact hm

variable (commit : Committer β) {a : Audited β} (change : Rebalance)

theorem settle (h : d.Sound a.asked) :
    (d.settle (Audited.noting commit) change a).2.Sound
      (d.settle (Audited.noting commit) change a).1.asked := by
  cases hm : d.mode with
  | anonymous catchUp =>
    simp only [Desk.settle, hm]
    exact h
  | grouped batch =>
    cases change with
    | assigned ps =>
      simp only [Desk.settle, hm]
      exact h
    | lost ps =>
      simp only [Desk.settle, hm]
      exact (h.setMode (CommitBatch.committable_take (h.pending hm) ps).2).congr rfl
    | revoked ps =>
      obtain ⟨htaken, hrest⟩ := CommitBatch.committable_take (h.pending hm) ps
      simp only [Desk.settle, hm]
      rcases batch.revoke_cases (Audited.noting commit) a ps with
        ⟨-, ho⟩ | ⟨-, ⟨next, hc, ho⟩ | ⟨e, next, hc, ho⟩⟩
      · rw [ho]
        exact (h.setMode hrest).congr rfl
      · have hasked := Audited.endState_noting commit (batch.take ps).1 a
        rw [endState_of_ok hc] at hasked
        rw [ho, hasked]
        exact ((h.ask htaken).setMode hrest).congr rfl
      · have hasked := Audited.endState_noting commit (batch.take ps).1 a
        rw [endState_of_error hc] at hasked
        rw [ho, hasked]
        exact ((h.ask htaken).setMode hrest).congr rfl

theorem adjustedBy (h : d.Sound a.asked) :
    (Desk.adjustedBy (Audited.noting commit) change a d).2.Sound
      (Desk.adjustedBy (Audited.noting commit) change a d).1.asked := by
  cases change with
  | assigned ps => exact h
  | revoked ps => exact (h.settle commit (.revoked ps)).congr rfl
  | lost ps => exact (h.settle commit (.lost ps)).congr rfl

theorem onRebalance [Notifier ν] (h : d.Sound a.asked) :
    (endState (Desk.onRebalance (Audited.noting commit) change) (a, d)).2.Sound
      (endState (Desk.onRebalance (Audited.noting commit) change) (a, d)).1.asked := by
  rcases endState_onRebalance (Audited.noting commit) change a d with hend | ⟨notifier, hend⟩
  · rw [hend]
    exact h.congr rfl
  · rw [hend]
    have hcounted : (d.count (.rebalances change.kind)).Sound a.asked := h.congr rfl
    exact (hcounted.adjustedBy commit change).congr rfl

end Desk.Sound

namespace Relay

def Sound (r : Relay (Audited β) ν) : Prop := r.desk.Sound r.broker.asked

variable [Broker β]

theorem Sound.flush {r : Relay (Audited β) ν} {batch : CommitBatch} (h : r.Sound)
    (forced : Bool) (hm : r.desk.mode = .grouped batch) :
    let flushed := batch.flush Broker.commit forced r.now r.broker
    Sound { r.setMode (.grouped flushed.2.1) with broker := flushed.2.2 } := by
  have hpending := h.pending hm
  have hcommit : (Broker.commit : Committer (Audited β)) = Audited.noting Broker.commit := rfl
  rw [hcommit]
  rcases batch.flush_cases (Audited.noting Broker.commit) r.broker forced r.now with
    ⟨last, ho, -⟩ | ⟨-, ⟨next, hc, ho⟩ | ⟨e, next, hc, ho⟩⟩
  · simp only [ho]
    exact Desk.Sound.setMode h hpending
  · have hasked := Audited.endState_noting Broker.commit batch.pending r.broker
    rw [endState_of_ok hc] at hasked
    simp only [ho]
    rw [Sound, hasked]
    exact (Desk.Sound.ask h hpending).setMode Offsets.committable_empty
  · have hasked := Audited.endState_noting Broker.commit batch.pending r.broker
    rw [endState_of_error hc] at hasked
    simp only [ho]
    rw [Sound, hasked]
    exact (Desk.Sound.ask h hpending).setMode hpending

variable [OnlyTells β] [Notifier ν]

theorem Sound.poll :
    Ends (fun r s : Relay (Audited β) ν => r.Sound → s.Sound) (fun r _ s => r.Sound → s.Sound)
      poll := by
  refine Ends.of_atEnd fun r h => ?_
  rw [endState_poll]
  exact Audited.poll_keeps (I := fun (d : Desk ν) asked => d.Sound asked)
    (fun commit change a d hd => hd.onRebalance commit change) r.pollTimeout h

theorem minds_sound :
    Minds (fun a b : Audited β => b.asked = a.asked) (fun position => isCommittable position.offset)
      (fun r s : Relay (Audited β) ν => r.Sound → s.Sound) where
  refl _ := id
  trans hs ht h := ht (hs h)
  requests := Audited.within_asked
  broker hasked h := by
    change Desk.Sound _ _
    rw [hasked]
    exact h
  phase _ _ h := h
  notifier _ _ h := h.congr rfl
  flow _ _ h := h.congr rfl
  metrics _ _ h := h.congr rfl
  catchUp _ _ h := ⟨fun hm => (by cases hm), h.asked⟩
  record hA hm h := h.setMode (CommitBatch.committable_record (h.pending hm) hA)
  flush forced hm h := h.flush forced hm
  poll := Sound.poll

end Relay

def Command.Decoded (command : Command) : Prop := ∃ body, Command.decode body = command

theorem Command.Decoded.committable {position : Position}
    (h : (Command.ack position).Decoded) : isCommittable position.offset = true := by
  obtain ⟨body, h⟩ := h
  obtain ⟨v, -, hread⟩ := Command.document_of_decode h
  exact Command.committable_of_ofJson? hread

namespace Relay

variable [Broker β] [Notifier ν]

/-- The pieces of a run, each from its beginning to its end, well or not. All commands are read from
frames, and between the turns the broker may change as it likes. -/
inductive Stage : Relay (Audited β) ν → Relay (Audited β) ν → Prop
  | start (r : Relay (Audited β) ν) : Stage r (endState start r)
  | await (r : Relay (Audited β) ν) (t : Turn) (b : β) (h : ∀ c ∈ t.arrivals, c.Decoded) :
    Stage r { r.await t with broker := { r.broker with broker := b } }
  | take (r : Relay (Audited β) ν) : Stage r { r with queue := [] }
  | obey (r : Relay (Audited β) ν) {command : Command} (h : command.Decoded) :
    Stage r (endState (obey command) r)
  | balance (r : Relay (Audited β) ν) : Stage r (endState balance r)
  | flush (r : Relay (Audited β) ν) : Stage r (endState (flush false) r)
  | poll (r : Relay (Audited β) ν) : Stage r (endState poll r)
  | announce (r : Relay (Audited β) ν) : Stage r (endState announce r)
  | deliver (records : List Record) (r : Relay (Audited β) ν) :
    Stage r (endState (deliver records) r)
  | fail (e : RelayError) (r : Relay (Audited β) ν) : Stage r (r.afterError e)

abbrev Evolves : Relay (Audited β) ν → Relay (Audited β) ν → Prop := Relation.ReflTransGen Stage

theorem Sound.stage [OnlyTells β] {r s : Relay (Audited β) ν} (h : r.Sound) (hs : Stage r s) :
    s.Sound := by
  have hm := minds_sound (β := β) (ν := ν)
  cases hs with
  | start => exact hm.start.atEnd r h
  | await t b hdecoded => exact h
  | take => exact h
  | @obey _ command hdecoded =>
    rw [endState_congr (obey_eq command r)]
    refine (hm.carryOut fun position hack => ?_).atEnd _ (h.congr rfl)
    exact Command.Decoded.committable (hack ▸ hdecoded)
  | balance => exact hm.balance.atEnd r h
  | flush => exact (hm.flush_acts false).atEnd r h
  | poll => exact hm.poll.atEnd r h
  | announce => exact hm.announce.atEnd r h
  | deliver records => exact (hm.deliver records).atEnd r h
  | fail e => exact h.congr rfl

theorem Sound.evolves [OnlyTells β] {r s : Relay (Audited β) ν} (h : r.Sound) (hs : Evolves r s) :
    s.Sound := by
  induction hs with
  | refl => exact h
  | tail _ hstage ih => exact ih.stage hstage

section Runs

variable {r : Relay (Audited β) ν}

theorem chains_evolves :
    Chains (Evolves (β := β) (ν := ν)) (fun r (_ : Halt) s => Evolves r s) :=
  ⟨fun _ => .refl, fun hs ht => hs.trans ht, fun hs ht => hs.trans ht⟩

/-- Obeying commands in order comes to the state after each of them. -/
theorem evolves_obeyAll {commands : List Command} (h : ∀ c ∈ commands, c.Decoded) :
    Ends Evolves (fun r _ s => Evolves r s)
      (obeyAll commands : EStateM Halt (Relay (Audited β) ν) Flow) := by
  have hc := chains_evolves (β := β) (ν := ν)
  induction commands with
  | nil => exact Ends.pure hc _
  | cons command commands ih =>
    have hobey : Ends Evolves (fun r _ s => Evolves r s)
        (obey command : EStateM Halt (Relay (Audited β) ν) Flow) :=
      Ends.of_atEnd fun r => .single (.obey r (h command List.mem_cons_self))
    refine Ends.bind hc hobey fun flow => ?_
    cases flow with
    | stop => exact Ends.pure hc _
    | goOn => exact ih fun c hmem => h c (List.mem_cons_of_mem _ hmem)

theorem evolves_work : Ends Evolves (fun r _ s => Evolves r s)
    (work : EStateM Halt (Relay (Audited β) ν) Flow) := by
  have hc := chains_evolves (β := β) (ν := ν)
  refine Ends.bind hc (Ends.of_atEnd fun r => .single (.balance r)) fun _ => ?_
  refine Ends.bind hc (Ends.of_atEnd fun r => .single (.flush r)) fun _ => ?_
  refine Ends.bind hc ?_ fun _ => Ends.pure hc Flow.goOn
  refine Ends.bind hc (Ends.of_atEnd fun r => .single (.poll r)) fun records => ?_
  refine Ends.bind hc (Ends.of_atEnd fun r => .single (.announce r)) fun _ => ?_
  exact Ends.of_atEnd fun r => .single (.deliver records r)

theorem evolves_turn (h : ∀ c ∈ r.queue, c.Decoded) : Evolves r (endState turn r) := by
  have htake : Evolves r { r with queue := [] } := .single (.take r)
  rw [endState, turn_eq]
  cases ho : obeyAll r.queue { r with queue := [] } with
  | error e s => exact htake.trans ((evolves_obeyAll h).error ho)
  | ok flow s =>
    have hobeyed : Evolves r s := htake.trans ((evolves_obeyAll h).ok ho)
    cases flow with
    | stop => exact hobeyed
    | goOn => exact hobeyed.trans (evolves_work.atEnd s)

theorem evolves_turns [OnlyTells β] {ts : List Turn} (hq : r.queue = [])
    (h : ∀ t ∈ ts, ∀ c ∈ t.arrivals, c.Decoded) : Evolves r (turns ts r).2 := by
  induction ts generalizing r with
  | nil => exact .refl
  | cons t ts ih =>
    obtain ⟨ht, hts⟩ := List.forall_mem_cons.1 h
    have hawait : Evolves r (r.await t) := .single (.await r t r.broker.broker ht)
    have hqueue : ∀ c ∈ (r.await t).queue, c.Decoded := by
      rw [await, hq]
      exact ht
    have hturn := hawait.trans (evolves_turn hqueue)
    have hempty := queue_turn (r.await t)
    rw [turns]
    rw [endState] at hturn hempty
    cases ho : turn (r.await t) with
    | error e s => simpa only [ho] using hturn
    | ok flow s =>
      rw [ho] at hturn hempty
      cases flow with
      | stop => exact hturn
      | goOn => exact hturn.trans (ih hempty hts)

/-- Every run comes to its end by such pieces. -/
theorem evolves_run [OnlyTells β] {ts : List Turn} (hq : r.queue = [])
    (h : ∀ t ∈ ts, ∀ c ∈ t.arrivals, c.Decoded) : Evolves r (run ts r).2 := by
  have hsettle : ∀ ended : Ending × Relay (Audited β) ν, Evolves r ended.2 →
      Evolves r (settle ended).2 := by
    rintro ⟨ending, s⟩ hs
    cases ending with
    | failed e => exact hs.tail (.fail e s)
    | crashed => exact hs
    | stopped => exact hs
    | running => exact hs
  have hstart : Evolves r (endState start r) := .single (.start r)
  have hqueue : (endState start r).queue = [] := (minds_sameCommands.start.atEnd r).queue.trans hq
  rw [endState] at hstart hqueue
  rw [run]
  cases ho : start r with
  | error e s =>
    rw [ho] at hstart
    exact hsettle (e.ending, s) hstart
  | ok u s =>
    rw [ho] at hstart hqueue
    exact hsettle _ (hstart.trans (evolves_turns hqueue h))

end Runs

/-- Whatever comes of a run, the offsets that the relay keeps and those that it asked to commit are
followed by one that can be stored, and no consumer refuses to commit them. A consumer refuses what
has an offset without a successor as a whole, and its client gets all of the rest at once. -/
theorem decoded_offsets_are_committable [OnlyTells β] (settings : RelaySettings) (b : β)
    (notifier : ν) (now : Nat) {r : Relay (Audited β) ν}
    (h : Evolves (create settings ⟨b, []⟩ notifier now) r) :
    (∀ batch p o, r.desk.mode = .grouped batch → batch.pending.get? p = some o →
        0 ≤ o.toInt ∧ o.toInt ≤ Int64.maxValue.toInt - 1 ∧ (o + 1).toInt = o.toInt + 1) ∧
      (∀ m ∈ r.broker.asked,
        (∀ p o, m.get? p = some o →
          0 ≤ o.toInt ∧ o.toInt ≤ Int64.maxValue.toInt - 1 ∧ (o + 1).toInt = o.toInt + 1) ∧
        ∀ {κ : Type} [Client κ] (c : Consumer κ), Consumer.commit m c =
          Consumer.ask "commit" (Client.store (m.entries.map fun e => ⟨e.1, e.2 + 1⟩)) c) ∧
      ∀ {κ : Type} [Client κ] (m : Offsets) (c : Consumer κ),
        ((∃ reason, Consumer.commit m c = .error (.rejected "commit" reason) c) ↔
          ∃ p o, m.get? p = some o ∧ (o < 0 ∨ o = Int64.maxValue)) ∧
        ((¬∃ p o, m.get? p = some o ∧ (o < 0 ∨ o = Int64.maxValue)) →
          Consumer.commit m c =
            Consumer.ask "commit" (Client.store (m.entries.map fun e => ⟨e.1, e.2 + 1⟩)) c) := by
  have hstart : Sound (create settings (⟨b, []⟩ : Audited β) notifier now) := by
    refine ⟨fun {batch} hm => ?_, fun m hm => by cases hm⟩
    rw [create] at hm
    cases hgroup : settings.group with
    | none =>
      rw [hgroup] at hm
      cases hm
    | some group =>
      rw [hgroup] at hm
      cases hm
      exact Offsets.committable_empty
  have hsound := hstart.evolves h
  have hrange : ∀ {o : Int64}, isCommittable o = true →
      0 ≤ o.toInt ∧ o.toInt ≤ Int64.maxValue.toInt - 1 ∧ (o + 1).toInt = o.toInt + 1 := by
    intro o ho
    exact ⟨(committable_iff_toInt.1 ho).1, (committable_iff_toInt.1 ho).2, toInt_successor ho⟩
  refine ⟨fun batch p o hm ho => hrange (hsound.pending hm p o ho), fun m hm => ?_, ?_⟩
  · have hcommittable := hsound.asked m hm
    exact ⟨fun p o ho => hrange (hcommittable p o ho),
      fun c => Consumer.commit_of_committable hcommittable c⟩
  · intro κ _ m c
    exact Consumer.commit_all_or_nothing m c

def oneRecordConsumer : Consumer ScriptedClient :=
  let record : Message := ⟨⟨"t", 0⟩, 7, .notAvailable, none, none⟩
  let steps : List ClientStep := [⟨.nothing, [.change (.assigned [⟨"t", 0⟩])]⟩, ⟨.message record, []⟩]
  .create { script := steps } 0 1

def acknowledgesAndStops : List Turn :=
  let bodies := ["\x7b\"type\":\"ack\",\"topic\":\"t\",\"partition\":0,\"offset\":7\x7d",
    "\x7b\"type\":\"stop\"\x7d"]
  [{}, {}, { arrivals := bodies.map fun body => .decode (Text.toUtf8 body) }]

/-- The acknowledged offset is the one that was to be committed, and it could be. -/
theorem acknowledged_offset_is_committable :
    let asked := (run acknowledgesAndStops (create ⟨["t"], some "g", 0, 1000, {}⟩
      (⟨oneRecordConsumer, []⟩ : Audited _) Host.listening 0)).2.broker.asked
    asked.map (·.entries) = [[(⟨"t", 0⟩, 7)]] ∧
      ∀ m ∈ asked, ∀ p o, m.get? p = some o →
        0 ≤ o.toInt ∧ o.toInt ≤ Int64.maxValue.toInt - 1 ∧ (o + 1).toInt = o.toInt + 1 := by
  have hdecoded : ∀ t ∈ acknowledgesAndStops, ∀ c ∈ t.arrivals, c.Decoded := by
    simp [acknowledgesAndStops, Command.Decoded]
  have hevolves := evolves_run (r := create ⟨["t"], some "g", 0, 1000, {}⟩
    (⟨oneRecordConsumer, []⟩ : Audited _) Host.listening 0) rfl hdecoded
  have hcommittable := decoded_offsets_are_committable _ oneRecordConsumer _ _ hevolves
  exact ⟨by decide +kernel, fun m hm => (hcommittable.2.1 m hm).1⟩

end Relay

end AckRelay
