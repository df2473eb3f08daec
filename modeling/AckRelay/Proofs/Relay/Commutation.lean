import AckRelay.Proofs.CatchUp
import AckRelay.Proofs.FlowControl.History
import AckRelay.Proofs.Relay.Commands
import AckRelay.Proofs.Relay.Handling

/-!
Acknowledgements commute. Of two that are taken one after the other either may come first, and the
relay ends in the same state (`Taken.exchange`); so any number of them may come in any order
(`acknowledgements_commute`).
-/

namespace AckRelay

namespace Metrics

variable {c : Counter} {totals : List (Counter × Nat)}

theorem mem_addTo (c : Counter) (n : Nat) (totals : List (Counter × Nat)) :
    c ∈ (addTo c n totals).map Prod.fst := by
  induction totals with
  | nil => exact List.mem_singleton_self c
  | cons t totals ih =>
    rw [addTo]
    split
    · next h =>
      rw [List.map_cons, h]
      exact List.mem_cons_self
    · exact List.mem_cons_of_mem _ ih

/-- Counters keep the order of their first count, so it is only one that was counted before for
which another order of the counts makes no difference. -/
theorem addTo_comm (h : c ∈ totals.map Prod.fst) (d : Counter) (m n : Nat) :
    addTo d n (addTo c m totals) = addTo c m (addTo d n totals) := by
  induction totals with
  | nil => cases h
  | cons t totals ih =>
    obtain ⟨e, total⟩ := t
    by_cases hc : e = c
    · by_cases hd : e = d
      · simp only [addTo, hc, ↓reduceIte, hc ▸ hd]
        rw [Nat.add_right_comm]
      · simp only [addTo, hc, ↓reduceIte, hc ▸ hd]
    · have hrest : c ∈ totals.map Prod.fst := (List.mem_cons.1 h).resolve_left (Ne.symm hc)
      by_cases hd : e = d
      · simp only [addTo, hd, ↓reduceIte, hd ▸ hc]
      · simp only [addTo, hc, hd, ↓reduceIte, ih hrest]

def acked (m : Metrics) : Metrics := m.increment (.commandsApplied .ack)

def stale (m : Metrics) : Metrics := m.increment .staleAcknowledgements

theorem acked_stale_acked (m : Metrics) : m.acked.stale.acked = m.acked.acked.stale := by
  have htotals := addTo_comm (mem_addTo (.commandsApplied .ack) 1 m.totals) .staleAcknowledgements 1 1
  exact congrArg (fun totals => { m with totals }) htotals.symm

end Metrics

def news (before after : Bool) : List Notification :=
  if before && !after then [.caughtUp] else []

theorem news_self (a : Bool) : news a a = [] := by
  rw [news, Bool.and_not_self]
  rfl

/-- Nothing is waited for again, so the host hears that once. -/
theorem news_append {a b c : Bool} (hb : b = true → a = true) (hc : c = true → b = true) :
    news b c ++ news a b = news a c := by
  cases a <;> cases b <;> cases c <;> simp_all [news]

namespace CatchUp

theorem news_acknowledge (c : CatchUp) (pos : Position) :
    news c.isActive (c.acknowledge pos).2.isActive =
      if (c.acknowledge pos).1 then [.caughtUp] else [] := by
  rw [news, told_iff]

theorem news_exchange (c : CatchUp) (a b : Position) :
    news (c.acknowledge a).2.isActive ((c.acknowledge a).2.acknowledge b).2.isActive ++
        news c.isActive (c.acknowledge a).2.isActive =
      news (c.acknowledge b).2.isActive ((c.acknowledge b).2.acknowledge a).2.isActive ++
        news c.isActive (c.acknowledge b).2.isActive := by
  rw [news_append isActive_of_acknowledge isActive_of_acknowledge,
    news_append isActive_of_acknowledge isActive_of_acknowledge, acknowledge_comm]

end CatchUp

def Mode.isWaiting : Mode → Bool
  | .grouped _ => false
  | .anonymous catchUp => catchUp.isActive

namespace Relay

variable {β : Type} {r s t : Relay β (Transcript Host)} {a b pos : Position}

/-- The relay takes an acknowledgement: a member of a group ignores a stale one, and otherwise
releases a record and remembers the offset; without a group it releases a record and perhaps tells
the host that it has caught up. -/
inductive Taken (pos : Position) (r s : Relay β (Transcript Host)) : Prop
  | ignored {batch : CommitBatch} (hm : r.desk.mode = .grouped batch)
      (hreleased : r.desk.flow.wasReleased pos.partition = true)
      (hs : s = { r with desk := { r.desk with metrics := r.desk.metrics.acked.stale } })
  | grouped {batch : CommitBatch} {flow : FlowControl} (hm : r.desk.mode = .grouped batch)
      (hreleased : r.desk.flow.wasReleased pos.partition = false)
      (hflow : r.desk.flow.acknowledge? pos.partition = some flow)
      (hs : s = { r with
        desk := { r.desk with
          mode := .grouped (batch.record pos.partition pos.offset)
          flow
          metrics := r.desk.metrics.acked } })
  | anonymous {catchUp : CatchUp} {flow : FlowControl} (hm : r.desk.mode = .anonymous catchUp)
      (hflow : r.desk.flow.acknowledge? pos.partition = some flow)
      (hs : s = { r with
        desk := {
          mode := .anonymous (catchUp.acknowledge pos).2
          flow
          metrics := r.desk.metrics.acked
          notifier := { r.desk.notifier with
            log := news catchUp.isActive (catchUp.acknowledge pos).2.isActive ++
              r.desk.notifier.log } } })

theorem Taken.through (h : Taken pos r s) :
    s.desk.notifier.through = r.desk.notifier.through := by
  cases h with
  | ignored _ _ hs => rw [hs]
  | grouped _ _ _ hs => rw [hs]
  | anonymous _ _ hs => rw [hs]

theorem Taken.heard (h : Taken pos r s) :
    s.desk.notifier.log = news r.desk.mode.isWaiting s.desk.mode.isWaiting ++ r.desk.notifier.log ∧
      (s.desk.mode.isWaiting = true → r.desk.mode.isWaiting = true) := by
  cases h with
  | ignored hm _ hs =>
    rw [hs, hm, news_self]
    exact ⟨rfl, id⟩
  | grouped hm _ _ hs =>
    rw [hs, hm]
    exact ⟨rfl, id⟩
  | anonymous hm _ hs =>
    rw [hs, hm]
    exact ⟨rfl, CatchUp.isActive_of_acknowledge⟩

/-- Of two acknowledgements either may come first. -/
theorem Taken.exchange (ha : Taken a r s) (hb : Taken b s t) :
    ∃ u, Taken b r u ∧ Taken a u t := by
  cases ha with
  | ignored hm hreleased hs =>
    subst hs
    cases hb with
    | ignored hm' hreleased' ht =>
      exact ⟨_, .ignored hm' hreleased' rfl, .ignored hm hreleased ht⟩
    | grouped hm' hreleased' hflow ht =>
      have hstale := (FlowControl.wasReleased_acknowledge hflow a.partition).trans hreleased
      refine ⟨_, .grouped hm' hreleased' hflow rfl, .ignored rfl hstale ?_⟩
      rw [ht]
      simp only [Metrics.acked_stale_acked]
    | anonymous hm' _ _ => cases hm.symm.trans hm'
  | grouped hm hreleased hflow hs =>
    subst hs
    cases hb with
    | ignored hm' hreleased' ht =>
      have hstale := (FlowControl.wasReleased_acknowledge hflow b.partition).symm.trans hreleased'
      refine ⟨_, .ignored hm hstale rfl, .grouped hm hreleased hflow ?_⟩
      rw [ht]
      simp only [Metrics.acked_stale_acked]
    | grouped hm' hreleased' hflow' ht =>
      cases hm'
      obtain ⟨k, hk, hk'⟩ := FlowControl.acknowledge?_comm hflow hflow'
      have hb := (FlowControl.wasReleased_acknowledge hflow b.partition).symm.trans hreleased'
      have ha := (FlowControl.wasReleased_acknowledge hk a.partition).trans hreleased
      refine ⟨_, .grouped hm hb hk rfl, .grouped rfl ha hk' ?_⟩
      rw [ht]
      simp only [CommitBatch.record_comm _ a.partition]
    | anonymous hm' _ _ => cases hm'
  | @anonymous catchUp _ hm hflow hs =>
    subst hs
    cases hb with
    | ignored hm' _ _ => cases hm'
    | grouped hm' _ _ _ => cases hm'
    | anonymous hm' hflow' ht =>
      cases hm'
      obtain ⟨k, hk, hk'⟩ := FlowControl.acknowledge?_comm hflow hflow'
      refine ⟨_, .anonymous hm hk rfl, .anonymous rfl hk' ?_⟩
      rw [ht]
      simp only [← List.append_assoc, catchUp.news_exchange a b]
      rw [catchUp.acknowledge_comm a b]

def counted (r : Relay β (Transcript Host)) : Relay β (Transcript Host) :=
  { r with desk := { r.desk with metrics := r.desk.metrics.acked } }

theorem tell_news (r : Relay β (Transcript Host)) (told : Bool)
    (hhost : r.desk.notifier.through = .listening) :
    (if told then tell .caughtUp else pure () : EStateM Halt (Relay β (Transcript Host)) Unit)
        r =
      .ok () { r with
        desk := { r.desk with
          notifier := { r.desk.notifier with
            log := (if told then [.caughtUp] else []) ++ r.desk.notifier.log } } } := by
  cases told with
  | false => rfl
  | true => simp only [↓reduceIte, tell_apply, Notifier.emit, hhost, List.singleton_append]

theorem taken_of_acknowledge (hhost : r.desk.notifier.through = .listening)
    (h : acknowledge pos r.counted = .ok () s) : Taken pos r s := by
  cases hm : r.desk.mode with
  | grouped batch =>
    have hmode : r.counted.desk.mode = .grouped batch := hm
    rw [acknowledge_of_grouped hmode] at h
    split at h
    · next hreleased =>
      cases h
      exact .ignored hm hreleased rfl
    · next hreleased =>
      split at h
      · next hflow =>
        cases h
        exact .grouped hm (Bool.eq_false_iff.2 hreleased) hflow rfl
      · cases h
  | anonymous catchUp =>
    have hmode : r.counted.desk.mode = .anonymous catchUp := hm
    rw [acknowledge_of_anonymous hmode] at h
    split at h
    · next flow hflow =>
      have htell := tell_news ((r.counted.setFlow flow).setMode (.anonymous (catchUp.acknowledge pos).2))
        (catchUp.acknowledge pos).1 hhost
      rw [← CatchUp.news_acknowledge] at htell
      cases htell.symm.trans h
      exact .anonymous hm hflow rfl
    · cases h

theorem Taken.acknowledge (h : Taken pos r s) (hhost : r.desk.notifier.through = .listening) :
    acknowledge pos r.counted = .ok () s := by
  have hcounted : r.counted.desk.flow = r.desk.flow := rfl
  cases h with
  | @ignored batch hm hreleased hs =>
    have hmode : r.counted.desk.mode = .grouped batch := hm
    rw [acknowledge_of_grouped hmode, hcounted, if_pos hreleased, hs]
    rfl
  | @grouped batch _ hm hreleased hflow hs =>
    have hmode : r.counted.desk.mode = .grouped batch := hm
    rw [acknowledge_of_grouped hmode, hcounted, if_neg (Bool.eq_false_iff.1 hreleased), hflow, hs]
    rfl
  | @anonymous catchUp flow hm hflow hs =>
    have hmode : r.counted.desk.mode = .anonymous catchUp := hm
    have htell := tell_news ((r.counted.setFlow flow).setMode (.anonymous (catchUp.acknowledge pos).2))
      (catchUp.acknowledge pos).1 hhost
    rw [← CatchUp.news_acknowledge] at htell
    rw [acknowledge_of_anonymous hmode, hcounted, hflow, hs]
    exact htell

section Obey

variable [Broker β]

/-- A relay that is heard goes on after an acknowledgement exactly if it takes it. -/
theorem obey_ack_iff (hhost : r.desk.notifier.through = .listening) :
    obey (.ack pos) r = .ok .goOn s ↔ Taken pos r s := by
  have hobey : obey (.ack pos) r = (acknowledge pos >>= fun _ => pure Flow.goOn) r.counted :=
    obey_eq (.ack pos) r
  rw [hobey]
  constructor
  · intro h
    exact taken_of_acknowledge hhost (ok_of_bind_pure h)
  · intro h
    rw [bind_apply, h.acknowledge hhost]
    rfl

inductive TakenAll : List Position → Relay β (Transcript Host) → Relay β (Transcript Host) → Prop
  | nil (r : Relay β (Transcript Host)) : TakenAll [] r r
  | cons {pos : Position} {ps : List Position} {r t s : Relay β (Transcript Host)} :
      Taken pos r t → TakenAll ps t s → TakenAll (pos :: ps) r s

theorem obeyAll_acks_iff (hhost : r.desk.notifier.through = .listening) {ps : List Position} :
    obeyAll (ps.map .ack) r = .ok .goOn s ↔ TakenAll ps r s := by
  induction ps generalizing r with
  | nil =>
    constructor
    · intro h
      cases h
      exact .nil _
    · intro h
      cases h
      rfl
  | cons pos ps ih =>
    rw [List.map_cons, obeyAll, bind_eq_ok]
    constructor
    · rintro ⟨flow, t, hobey, hrest⟩
      cases flow with
      | stop => cases hrest
      | goOn =>
        have htaken := (obey_ack_iff hhost).1 hobey
        exact .cons htaken ((ih (htaken.through.trans hhost)).1 hrest)
    · intro h
      cases h with
      | cons htaken hrest =>
        exact ⟨.goOn, _, (obey_ack_iff hhost).2 htaken, (ih (htaken.through.trans hhost)).2 hrest⟩

end Obey

namespace TakenAll

variable {ps qs : List Position}

/-- Any order of the acknowledgements comes from exchanges of two neighbours. -/
theorem perm (hp : ps.Perm qs) (h : TakenAll ps r s) : TakenAll qs r s := by
  induction hp generalizing r s with
  | nil => exact h
  | cons pos _ ih =>
    cases h with
    | cons htaken hrest => exact .cons htaken (ih hrest)
  | swap a b _ =>
    cases h with
    | cons hb hrest =>
      cases hrest with
      | cons ha hrest =>
        obtain ⟨u, ha', hb'⟩ := hb.exchange ha
        exact .cons ha' (.cons hb' hrest)
  | trans _ _ ih ih' => exact ih' (ih h)

/-- The host hears nothing, or that the relay has caught up. -/
theorem heard (h : TakenAll ps r s) :
    s.desk.notifier.log = news r.desk.mode.isWaiting s.desk.mode.isWaiting ++ r.desk.notifier.log ∧
      (s.desk.mode.isWaiting = true → r.desk.mode.isWaiting = true) := by
  induction h with
  | nil r =>
    rw [news_self]
    exact ⟨rfl, id⟩
  | cons htaken _ ih =>
    obtain ⟨hlog, hwaiting⟩ := ih
    obtain ⟨hlog', hwaiting'⟩ := htaken.heard
    refine ⟨?_, hwaiting' ∘ hwaiting⟩
    rw [hlog, hlog', ← List.append_assoc, news_append hwaiting' hwaiting]

end TakenAll

variable [Broker β]

/-- If a relay obeys some acknowledgements one after another and the host listens, it obeys them in
any other order, and ends in the same state, with the same notifications and counts. The host hears
at most that the relay has caught up, and that once. -/
theorem acknowledgements_commute {r s : Relay β (Transcript Host)} {ps qs : List Position}
    (hhost : r.desk.notifier.through = .listening) (hperm : ps.Perm qs)
    (h : obeyAll (ps.map .ack) r = .ok .goOn s) :
    obeyAll (qs.map .ack) r = .ok .goOn s ∧
      (s.desk.notifier.sent = r.desk.notifier.sent ∨
        s.desk.notifier.sent = r.desk.notifier.sent ++ [.caughtUp]) := by
  have htaken := (obeyAll_acks_iff hhost).1 h
  refine ⟨(obeyAll_acks_iff hhost).2 (htaken.perm hperm), ?_⟩
  rw [Transcript.sent, Transcript.sent, htaken.heard.1, List.reverse_append, news]
  split
  · exact Or.inr rfl
  · exact Or.inl (List.append_nil _)

def pendingOfTwo (mode : Mode) : Relay ScriptedBroker (Transcript Host) where
  broker := {}
  desk :=
    { mode
      notifier := { through := .listening }
      flow :=
        (FlowControl.after? {}
          [.deliver ⟨"t", 0⟩ 5, .deliver ⟨"t", 1⟩ 3, .deliver ⟨"t", 0⟩ 4, .deliver ⟨"u", 0⟩ 1,
            .remove [⟨"u", 0⟩]]).getD {} }
  topics := []
  pollTimeout := 0

/-- A member of a group takes acknowledgements of two partitions and a stale one of a third, and a
relay without a group those of the last records of two, either of them backwards. -/
theorem acknowledgements_commute_backwards :
    let acks : List Position := [⟨⟨"t", 0⟩, 8⟩, ⟨⟨"u", 0⟩, 1⟩, ⟨⟨"t", 1⟩, 2⟩, ⟨⟨"t", 0⟩, 7⟩]
    let last : List Position := [⟨⟨"t", 0⟩, 8⟩, ⟨⟨"t", 1⟩, 2⟩]
    let member := pendingOfTwo (.grouped (.start 0 0))
    let alone := pendingOfTwo (.anonymous ⟨some (.ofList [(⟨"t", 0⟩, 9), (⟨"t", 1⟩, 3)])⟩)
    (∃ s, obeyAll (acks.map .ack) member = .ok .goOn s ∧
        obeyAll (acks.reverse.map .ack) member = .ok .goOn s) ∧
      ∃ s, obeyAll (last.map .ack) alone = .ok .goOn s ∧
        obeyAll (last.reverse.map .ack) alone = .ok .goOn s ∧
        s.desk.notifier.sent = [.caughtUp] := by
  intro acks last member alone
  have hgoes : ∀ (cs : List Command) (r : Relay ScriptedBroker (Transcript Host)),
      (match obeyAll cs r with | .ok .goOn _ => true | _ => false) = true →
        ∃ s, obeyAll cs r = .ok .goOn s := by
    intro cs r h
    split at h
    · next s hs => exact ⟨s, hs⟩
    · cases h
  have hmember : member.desk.notifier.through = .listening := rfl
  have halone : alone.desk.notifier.through = .listening := rfl
  obtain ⟨s, hs⟩ := hgoes (acks.map .ack) member (by decide +kernel)
  obtain ⟨t, ht⟩ := hgoes (last.map .ack) alone (by decide +kernel)
  have hback := acknowledgements_commute hmember (List.reverse_perm acks).symm hs
  have hback' := acknowledgements_commute halone (List.reverse_perm last).symm ht
  have hsent : (endState (obeyAll (last.map .ack)) alone).desk.notifier.sent = [.caughtUp] := by
    decide +kernel
  rw [endState_of_ok ht] at hsent
  exact ⟨⟨s, hs, hback.1⟩, t, ht, hback'.1, hsent⟩

end Relay

end AckRelay
