import AckRelay.Broker.Consumer
import AckRelay.Broker.Scripted
import AckRelay.Proofs.Alike

namespace AckRelay

variable {β σ τ ε : Type}

def Beside (R : σ → τ → Prop) (x : β × σ) (y : β × τ) : Prop := x.1 = y.1 ∧ R x.2 y.2

/-- A broker for which the state of a listener is the listener's own affair: polls with listeners
that react alike run alike. -/
class OnlyTells (β : Type) [Broker β] : Prop where
  poll_alike {σ τ ε : Type} {R : σ → τ → Prop} {l : Listener β σ ε} {m : Listener β τ ε}
    (hrefuse : l.refuse = m.refuse)
    (hnotify : ∀ commit change, Alike (Beside R) (l.notify commit change) (m.notify commit change))
    (timeout : Nat) : Alike (Beside R) (Broker.poll timeout l) (Broker.poll timeout m)

theorem poll_keeps [Broker β] [OnlyTells β] {I : σ → Prop} {l : Listener β σ ε}
    (hnotify : ∀ commit change b s, I s → I (endState (l.notify commit change) (b, s)).2)
    (timeout : Nat) {b : β} {s : σ} (hs : I s) :
    I (endState (Broker.poll timeout l) (b, s)).2 := by
  have halike : ∀ commit change, Alike (Beside fun s t => s = t ∧ I s)
      (l.notify commit change) (l.notify commit change) := by
    rintro commit change ⟨b, s⟩ ⟨c, t⟩ ⟨hb, hst, hs⟩
    obtain rfl : b = c := hb
    obtain rfl : s = t := hst
    have hend := hnotify commit change b s hs
    rw [endState] at hend
    cases hn : l.notify commit change (b, s) with
    | ok u w =>
      rw [hn] at hend
      exact .ok u ⟨rfl, rfl, hend⟩
    | error e w =>
      rw [hn] at hend
      exact .error e ⟨rfl, rfl, hend⟩
  have hbeside : Beside (fun s t => s = t ∧ I s) (b, s) (b, s) := ⟨rfl, rfl, hs⟩
  exact ((OnlyTells.poll_alike rfl halike timeout).atEnd hbeside).2.2

section Alike

variable {R : σ → τ → Prop} {κ : Type} [Rebalancing κ]

theorem ScriptedBroker.rebalance_alike {l : Listener ScriptedBroker σ ε}
    {m : Listener ScriptedBroker τ ε} (change : Rebalance)
    (hnotify : ∀ commit change, Alike (Beside R) (l.notify commit change) (m.notify commit change)) :
    Alike (Beside R) (rebalance l change) (rebalance m change) := by
  rintro x y hxy
  rw [rebalance, rebalance]
  have htold := hnotify handOver change hxy
  generalize l.notify handOver change x = told, m.notify handOver change y = told' at htold
  cases htold with
  | @ok u w v hwv => exact .ok [] ⟨congrArg (complete · change) hwv.1, hwv.2⟩
  | error e h => exact .error e h

instance : OnlyTells ScriptedBroker where
  poll_alike {σ τ ε R l m} hrefuse hnotify timeout := by
    rintro ⟨b, s⟩ ⟨c, t⟩ ⟨hb, hst⟩
    obtain rfl : b = c := hb
    change Agree _ (ScriptedBroker.poll timeout l (b, s)) (ScriptedBroker.poll timeout m (b, t))
    rw [ScriptedBroker.poll, ScriptedBroker.poll, hrefuse]
    cases ScriptedBroker.note (.poll timeout) b with
    | error e b => exact .error _ ⟨rfl, hst⟩
    | ok u b =>
      simp only
      split
      · split
        · exact .error _ ⟨rfl, hst⟩
        · exact .ok _ ⟨rfl, hst⟩
      · next step rest _ =>
        cases step with
        | records rs => exact .ok rs ⟨rfl, hst⟩
        | rebalance change => exact ScriptedBroker.rebalance_alike change hnotify ⟨rfl, hst⟩
        | failed => exact ScriptedBroker.rebalance_alike _ hnotify ⟨rfl, hst⟩

namespace Consumer

variable {l : Listener (Consumer κ) σ ε} {m : Listener (Consumer κ) τ ε}
  (hrefuse : l.refuse = m.refuse)
  (hnotify : ∀ commit change, Alike (Beside R) (l.notify commit change) (m.notify commit change))
include hrefuse hnotify

theorem tell_alike (event : RebalanceEvent) :
    Alike (Beside R) (tell l event) (tell m event) := by
  rintro ⟨c, s⟩ ⟨d, t⟩ ⟨hcd, hst⟩
  obtain rfl : c = d := hcd
  simp only [tell, hrefuse]
  cases meaning event c with
  | error e c => exact .error _ ⟨rfl, hst⟩
  | ok change c =>
    simp only
    have hbeside : Beside R (c, s) (c, t) := ⟨rfl, hst⟩
    have htold := hnotify commit change hbeside
    generalize l.notify commit change (c, s) = told, m.notify commit change (c, t) = told' at htold
    cases htold with
    | ok u h => exact .ok _ h
    | error e h => exact .error e h

theorem dispatch_alike (event : RebalanceEvent) :
    Alike (Beside R) (dispatch l event) (dispatch m event) := by
  rintro x y hxy
  rw [dispatch, dispatch, hrefuse]
  have htold := tell_alike hrefuse hnotify event hxy
  generalize tell l event x = told, tell m event y = told' at htold
  cases htold with
  | @ok released w v hwv =>
    obtain ⟨c, s⟩ := w
    obtain ⟨d, t⟩ := v
    obtain ⟨hcd, hst⟩ := hwv
    obtain rfl : c = d := hcd
    simp only
    cases complete event c with
    | ok u c => exact .ok released ⟨rfl, hst⟩
    | error e c => exact .error _ ⟨rfl, hst⟩
  | @error e w v hwv =>
    obtain ⟨c, s⟩ := w
    obtain ⟨d, t⟩ := v
    obtain ⟨hcd, hst⟩ := hwv
    obtain rfl : c = d := hcd
    simp only
    cases complete event c with
    | ok u c => exact .error _ ⟨rfl, hst⟩
    | error e c => exact .error _ ⟨rfl, hst⟩

theorem dispatchEach_alike (events : List RebalanceEvent) :
    Alike (Beside R) (dispatchEach l events) (dispatchEach m events) := by
  induction events with
  | nil => exact .pure []
  | cons event rest ih =>
    rw [dispatchEach, dispatchEach]
    refine .bind (.modify fun h => ⟨?_, h.2⟩) fun _ => ?_
    · exact congrArg (fun c : Consumer κ => { c with pending := rest }) h.1
    · refine .bind (dispatch_alike hrefuse hnotify event) fun _ => ?_
      exact .bind ih fun released => .pure _

theorem dispatchAll_alike : Alike (Beside R) (dispatchAll l) (dispatchAll m) := by
  refine .get_bind fun h => ?_
  rw [h.1]
  exact dispatchEach_alike hrefuse hnotify _

theorem pollUpTo_alike (room timeout : Nat) (read : List Record) :
    Alike (Beside R) (pollUpTo l room timeout read) (pollUpTo m room timeout read) := by
  induction room generalizing timeout read with
  | zero => exact .pure _
  | succ room ih =>
    rintro ⟨c, s⟩ ⟨d, t⟩ ⟨hcd, hst⟩
    obtain rfl : c = d := hcd
    have hnext : Beside R ((pollClient timeout c).2, s) ((pollClient timeout c).2, t) := ⟨rfl, hst⟩
    have hall := dispatchAll_alike hrefuse hnotify
    simp only [pollUpTo, bind_apply, get_apply, set_apply, hrefuse]
    cases (pollClient timeout c).1 with
    | failed e => exact Alike.throw _ hnext
    | nothing => exact Alike.bind hall (fun released => .pure _) hnext
    | message m =>
      refine Alike.bind hall (fun released => ?_) hnext
      split
      · exact ih _ _
      · exact .pure _

end Consumer

instance : OnlyTells (Consumer κ) where
  poll_alike {σ τ ε R l m} hrefuse hnotify timeout := by
    change Alike _ (Consumer.poll timeout l) (Consumer.poll timeout m)
    refine .get_bind fun h => ?_
    rw [h.1]
    exact Consumer.pollUpTo_alike hrefuse hnotify _ _ _

end Alike

end AckRelay
