import AckRelay.Broker.Scripted
import AckRelay.Proofs.Outcome
import AckRelay.Relay.Loop
import Mathlib.Data.List.Chain
import Mathlib.Data.List.Induction

/-!
The life of a relay over a scripted broker, cut into acts: the start, and in every turn what comes
before it, each command, the balancing, the flush, and the poll with all that follows from it. A run
of the relay is its acts one after another (`run_eq_live`), and what holds at each act follows from
what one act does (`trail_induction`).
-/

namespace AckRelay

theorem Halt.ending_inj {h h' : Halt} (he : h.ending = h'.ending) : h = h' := by
  cases h <;> cases h' <;> cases he <;> rfl

/-- What comes before a turn of the relay. The broker may also begin or cease to refuse commits, and
to fail operations. -/
structure Round extends Turn where
  refuses : Option Bool := none
  faults : Option (List Operation) := none
  deriving DecidableEq

def Round.ofTurn (t : Turn) : Round := { t with }

inductive Act where
  | start
  | await (round : Round)
  | obey (command : Command)
  | balance
  | flush
  | receive
  deriving DecidableEq

def Round.acts (t : Round) : List Act :=
  .await t :: (t.arrivals.map .obey ++ [.balance, .flush, .receive])

def lifeOf (ts : List Round) : List Act := .start :: ts.flatMap Round.acts

structure Moment (ν : Type) where
  before : Relay ScriptedBroker ν
  act : Act

namespace Relay

variable {ν : Type} [Notifier ν]

/-- Polls the broker, which may come with rebalances, and hands the records to the host. -/
def receive {β : Type} [Broker β] : EStateM Halt (Relay β ν) Unit := do
  let records ← poll
  announce
  deliver records

def pass (t : Round) (r : Relay ScriptedBroker ν) : Relay ScriptedBroker ν :=
  { r with
    now := r.now + t.elapsed
    broker :=
      { r.broker with
        refusesCommits := t.refuses.getD r.broker.refusesCommits
        faults := t.faults.getD r.broker.faults } }

def perform : Act → EStateM Halt (Relay ScriptedBroker ν) Flow
  | .start => do start; return .goOn
  | .await t => do modify (pass t); return .goOn
  | .obey command => obey command
  | .balance => do balance; return .goOn
  | .flush => do flush false; return .goOn
  | .receive => do receive; return .goOn

/-- Does one thing after another, until one ends the relay. -/
def live : List Act → Relay ScriptedBroker ν → Ending × Relay ScriptedBroker ν
  | [], r => (.running, r)
  | a :: as, r =>
    match perform a r with
    | .ok .goOn r => live as r
    | .ok .stop r => (.stopped, r)
    | .error h r => (h.ending, r)

/-- The moments of a life: each act that the relay comes to, with the relay as it begins. -/
def trail : List Act → Relay ScriptedBroker ν → List (Moment ν)
  | [], _ => []
  | a :: as, r =>
    ⟨r, a⟩ ::
      match perform a r with
      | .ok .goOn r => trail as r
      | .ok .stop _ | .error _ _ => []

end Relay

def Moment.after {ν : Type} [Notifier ν] (m : Moment ν) : Relay ScriptedBroker ν :=
  endState (Relay.perform m.act) m.before

def Moment.succeeds {ν : Type} [Notifier ν] (m : Moment ν) : Bool :=
  match Relay.perform m.act m.before with
  | .ok _ _ => true
  | .error _ _ => false

def Moment.crashes {ν : Type} [Notifier ν] (m : Moment ν) : Bool :=
  match Relay.perform m.act m.before with
  | .error .crashed _ => true
  | .ok _ _ | .error (.failed _) _ => false

namespace Relay

variable {ν : Type} [Notifier ν] {as bs : List Act} {r s : Relay ScriptedBroker ν}

theorem perform_of_succeeds {m : Moment ν} (h : m.succeeds = true) :
    ∃ flow, perform m.act m.before = .ok flow m.after := by
  rw [Moment.succeeds] at h
  cases hp : perform m.act m.before with
  | ok flow t =>
    rw [Moment.after, endState_of_ok hp]
    exact ⟨flow, rfl⟩
  | error e t =>
    rw [hp] at h
    cases h

def endOf {β : Type} : EStateM.Result Halt (Relay β ν) Flow → Ending × Relay β ν
  | .ok .goOn r => (.running, r)
  | .ok .stop r => (.stopped, r)
  | .error h r => (h.ending, r)

theorem live_append (as bs : List Act) (r : Relay ScriptedBroker ν) :
    live (as ++ bs) r =
      match live as r with
      | (.running, r) => live bs r
      | ended => ended := by
  induction as generalizing r with
  | nil => rfl
  | cons a as ih =>
    simp only [List.cons_append, live]
    cases h : perform a r with
    | ok flow t =>
      cases flow with
      | goOn => exact ih t
      | stop => rfl
    | error e t => cases e <;> rfl

theorem live_obey (commands : List Command) (r : Relay ScriptedBroker ν) :
    live (commands.map .obey) r = endOf (obeyAll commands r) := by
  induction commands generalizing r with
  | nil => rfl
  | cons c cs ih =>
    simp only [List.map_cons, live, perform, obeyAll, bind_apply]
    cases h : obey c r with
    | ok flow t =>
      cases flow with
      | goOn => exact ih t
      | stop => rfl
    | error e t => rfl

def work {β : Type} [Broker β] : EStateM Halt (Relay β ν) Flow := do
  balance
  flush false
  receive
  return .goOn

theorem live_work (r : Relay ScriptedBroker ν) :
    live [.balance, .flush, .receive] r = endOf (work r) := by
  simp only [live, perform, work, bind_apply, pure_apply]
  cases balance r with
  | error e t => rfl
  | ok _ t =>
    simp only
    cases flush false t with
    | error e u => rfl
    | ok _ u =>
      simp only
      cases receive u <;> rfl

theorem turn_eq {β : Type} [Broker β] (r : Relay β ν) :
    turn r =
      match obeyAll r.queue { r with queue := [] } with
      | .ok .goOn t => work t
      | .ok .stop t => .ok .stop t
      | .error e t => .error e t := by
  simp only [turn, bind_apply, get_apply, modify_apply]
  cases obeyAll r.queue { r with queue := [] } with
  | error e t => rfl
  | ok flow t =>
    cases flow with
    | stop => rfl
    | goOn => simp only [work, receive, bind_assoc]

/-- A turn of a relay that has nothing queued is the acts of its round. -/
theorem live_acts (t : Turn) (r : Relay ScriptedBroker ν) (hq : r.queue = []) :
    live (Round.ofTurn t).acts r = endOf (turn (r.await t)) := by
  -- the queue is emptied before its commands are obeyed, so none of them sees it
  have hpass : pass (Round.ofTurn t) r = { r.await t with queue := [] } := by
    cases r
    cases hq
    rfl
  have hqueue : (r.await t).queue = (Round.ofTurn t).arrivals := by
    rw [await, hq]
    rfl
  rw [turn_eq, ← hpass, hqueue]
  simp only [Round.acts, live, perform, bind_apply, modify_apply, pure_apply, live_append,
    live_obey]
  cases obeyAll (Round.ofTurn t).arrivals (pass (Round.ofTurn t) r) with
  | error e u => cases e <;> rfl
  | ok flow u =>
    cases flow with
    | stop => rfl
    | goOn => exact live_work u

/-- The acts of the trail are the first ones of the life. -/
theorem trail_acts (as : List Act) (r : Relay ScriptedBroker ν) :
    (trail as r).map Moment.act <+: as := by
  induction as generalizing r with
  | nil => exact List.prefix_rfl
  | cons a as ih =>
    simp only [trail, List.map_cons]
    refine List.cons_prefix_cons.2 ⟨rfl, ?_⟩
    cases perform a r with
    | ok flow t =>
      cases flow with
      | goOn => exact ih t
      | stop => exact List.nil_prefix
    | error e t => exact List.nil_prefix

/-- A trail begins with the first act, and goes on if that succeeds. -/
theorem prefix_trail_cons {a : Act} {m : Moment ν} {ms : List (Moment ν)}
    (h : m :: ms <+: trail (a :: as) r) :
    m = ⟨r, a⟩ ∧ (ms = [] ∨ ∃ t, perform a r = .ok .goOn t ∧ ms <+: trail as t) := by
  obtain ⟨hm, hms⟩ := List.cons_prefix_cons.1 h
  refine ⟨hm, ?_⟩
  cases hp : perform a r with
  | ok flow t =>
    rw [hp] at hms
    cases flow with
    | goOn => exact Or.inr ⟨t, rfl, hms⟩
    | stop => exact Or.inl (List.prefix_nil.1 hms)
  | error e t =>
    rw [hp] at hms
    exact Or.inl (List.prefix_nil.1 hms)

theorem before_of_first {m : Moment ν} (h : [m] <+: trail as r) : m.before = r := by
  cases as with
  | nil => simp [trail] at h
  | cons a as => rw [(prefix_trail_cons h).1]

theorem act_of_first {ts : List Round} {m : Moment ν} (h : [m] <+: trail (lifeOf ts) r) :
    m.act = .start := by
  rw [(prefix_trail_cons h).1]

/-- Each act of the trail but the last succeeds, and leads to the next one. -/
theorem perform_of_next {past : List (Moment ν)} {m n : Moment ν}
    (h : past ++ [m, n] <+: trail as r) : perform m.act m.before = .ok .goOn n.before := by
  -- by induction on what comes before, since the trail is built from its front
  induction past generalizing as r with
  | nil =>
    cases as with
    | nil => simp [trail] at h
    | cons a as =>
      obtain ⟨rfl, hn | ⟨t, hp, hn⟩⟩ := prefix_trail_cons h
      · simp at hn
      · rw [before_of_first hn, hp]
  | cons k past ih =>
    cases as with
    | nil => simp [trail] at h
    | cons a as =>
      obtain ⟨-, hn | ⟨t, -, hn⟩⟩ := prefix_trail_cons h
      · simp at hn
      · exact ih hn

omit [Notifier ν] in
theorem exists_past {ms : List (Moment ν)} {m : Moment ν} (h : m ∈ ms) :
    ∃ past, past ++ [m] <+: ms := by
  obtain ⟨past, rest, rfl⟩ := List.append_of_mem h
  exact ⟨past, rest, by simp⟩

omit [Notifier ν] in
theorem mem_of_past {ms past : List (Moment ν)} {m : Moment ν} (h : past ++ [m] <+: ms) :
    m ∈ ms :=
  h.subset (by simp)

omit [Notifier ν] in
theorem mem_of_next {ms past : List (Moment ν)} {m n : Moment ν} (h : past ++ [m, n] <+: ms) :
    m ∈ ms :=
  h.subset (by simp)

omit [Notifier ν] in
theorem prefix_of_next {ms past : List (Moment ν)} {m n : Moment ν} (h : past ++ [m, n] <+: ms) :
    past ++ [m] <+: ms :=
  List.IsPrefix.trans ⟨[n], by simp⟩ h

/-- What holds at the first moment, and goes over from each moment to the next, holds at each. -/
theorem trail_induction {I : List (Moment ν) → Moment ν → Prop}
    (first : ∀ m, [m] <+: trail as r → I [] m)
    (next : ∀ past m n, past ++ [m, n] <+: trail as r → I past m → I (past ++ [m]) n)
    (past : List (Moment ν)) (m : Moment ν) (h : past ++ [m] <+: trail as r) : I past m := by
  -- by induction on the past from its end: a moment more is a step more
  induction past using List.reverseRecOn generalizing m with
  | nil => exact first m h
  | append_singleton past k ih =>
    rw [List.append_assoc] at h
    exact next past k m h (ih k (prefix_of_next h))

omit [Notifier ν] in
theorem get_of_past {ms past : List (Moment ν)} {m : Moment ν} (h : past ++ [m] <+: ms) :
    ms[past.length]? = some m := by
  obtain ⟨rest, rfl⟩ := h
  simp

omit [Notifier ν] in
theorem get_of_mem_past {ms past : List (Moment ν)} {m k : Moment ν} (h : past ++ [m] <+: ms)
    {i : Nat} (hk : past[i]? = some k) : ms[i]? = some k := by
  obtain ⟨hi, -⟩ := List.getElem?_eq_some_iff.1 hk
  obtain ⟨rest, rfl⟩ := h
  rw [List.append_assoc, List.getElem?_append_left hi, hk]

omit [Notifier ν] in
theorem prefix_of_get (ms : List (Moment ν)) (i : Nat) (h : i < ms.length) :
    ms.take i ++ [ms.get ⟨i, h⟩] <+: ms := by
  rw [List.get_eq_getElem, List.take_append_getElem]
  exact List.take_prefix (i + 1) ms

/-- If a life is broken off, it is in the last moment of the trail. -/
theorem last_of_error {e : Halt} (h : live as r = (e.ending, s)) :
    ∃ past m, past ++ [m] <+: trail as r ∧ perform m.act m.before = .error e s := by
  induction as generalizing r with
  | nil => cases e <;> cases h
  | cons a as ih =>
    simp only [live] at h
    cases hp : perform a r with
    | ok flow t =>
      rw [hp] at h
      cases flow with
      | stop => cases e <;> cases h
      | goOn =>
        obtain ⟨past, m, hm, he⟩ := ih h
        refine ⟨⟨r, a⟩ :: past, m, ?_, he⟩
        simp only [trail, hp]
        exact List.cons_prefix_cons.2 ⟨rfl, hm⟩
    | error e' t =>
      rw [hp] at h
      obtain ⟨hending, rfl⟩ := Prod.mk.inj h
      refine ⟨[], ⟨r, a⟩, ?_, ?_⟩
      · simp only [trail, hp]
        exact List.prefix_rfl
      · rw [hp, Halt.ending_inj hending]

/-- If a life is stopped, it is by the last moment of the trail. -/
theorem last_of_stopped (h : live as r = (.stopped, s)) :
    ∃ past m, past ++ [m] <+: trail as r ∧ perform m.act m.before = .ok .stop s := by
  induction as generalizing r with
  | nil => cases h
  | cons a as ih =>
    rw [live] at h
    cases hp : perform a r with
    | error e t =>
      rw [hp] at h
      cases e <;> cases h
    | ok flow t =>
      rw [hp] at h
      cases flow with
      | stop =>
        cases h
        refine ⟨[], ⟨r, a⟩, ?_, hp⟩
        simp only [trail, hp]
        exact List.prefix_rfl
      | goOn =>
        obtain ⟨past, m, hm, hs⟩ := ih h
        refine ⟨⟨r, a⟩ :: past, m, ?_, hs⟩
        simp only [trail, hp]
        exact List.cons_prefix_cons.2 ⟨rfl, hm⟩

/-- A life begins with the start, and has no other. -/
theorem act_of_later {ts : List Round} {past : List (Moment ν)} {m : Moment ν} (hpast : past ≠ [])
    (h : past ++ [m] <+: trail (lifeOf ts) r) : m.act ≠ .start := by
  intro hm
  obtain ⟨k, past, rfl⟩ := List.exists_cons_of_ne_nil hpast
  have hacts : k.act :: (past ++ [m]).map Moment.act <+: lifeOf ts :=
    (h.map Moment.act).trans (trail_acts (lifeOf ts) r)
  have hmem : Act.start ∈ ts.flatMap Round.acts := by
    rw [← hm]
    exact (List.cons_prefix_cons.1 hacts).2.subset (by simp)
  obtain ⟨t, -, ht⟩ := List.mem_flatMap.1 hmem
  simp [Round.acts] at ht

theorem before_of_start {ts : List Round} {past : List (Moment ν)} {m : Moment ν}
    (h : past ++ [m] <+: trail (lifeOf ts) r) (hm : m.act = .start) : m.before = r := by
  cases past with
  | nil => exact before_of_first h
  | cons k past => exact absurd hm (act_of_later (List.cons_ne_nil k past) h)

/-- If a life comes to its end and still runs, its last act has succeeded. -/
theorem last_of_running (h : live as r = (.running, s)) :
    s = r ∨ ∃ past m, past ++ [m] <+: trail as r ∧ perform m.act m.before = .ok .goOn s := by
  induction as generalizing r with
  | nil =>
    cases h
    exact Or.inl rfl
  | cons a as ih =>
    simp only [live] at h
    cases hp : perform a r with
    | error e t =>
      rw [hp] at h
      cases e <;> cases h
    | ok flow t =>
      rw [hp] at h
      cases flow with
      | stop => cases h
      | goOn =>
        refine Or.inr ?_
        rcases ih h with rfl | ⟨past, m, hm, hs⟩
        · refine ⟨[], ⟨r, a⟩, ?_, hp⟩
          simp only [trail, hp]
          exact List.cons_prefix_cons.2 ⟨rfl, List.nil_prefix⟩
        · refine ⟨⟨r, a⟩ :: past, m, ?_, hs⟩
          simp only [trail, hp]
          exact List.cons_prefix_cons.2 ⟨rfl, hm⟩

/-- An act that comes right after another: a flush after the balancing, a poll after a flush. -/
def Follows (a b : Act) : Prop := (b = .flush → a = .balance) ∧ (b = .receive → a = .flush)

theorem chain_obey (a : Act) (commands : List Command) (bs : List Act)
    (h : (Act.balance :: bs).IsChain Follows) :
    (a :: (commands.map Act.obey ++ .balance :: bs)).IsChain Follows := by
  induction commands generalizing a with
  | nil => exact List.isChain_cons_cons.2 ⟨by simp [Follows], h⟩
  | cons c cs ih => exact List.isChain_cons_cons.2 ⟨by simp [Follows], ih (.obey c)⟩

theorem chain_rounds (a : Act) (ts : List Round) :
    (a :: ts.flatMap Round.acts).IsChain Follows := by
  induction ts generalizing a with
  | nil => exact List.isChain_singleton a
  | cons t ts ih =>
    have hwork : (Act.balance :: ([.flush, .receive] ++ ts.flatMap Round.acts)).IsChain Follows :=
      List.isChain_cons_cons.2 ⟨by simp [Follows],
        List.isChain_cons_cons.2 ⟨by simp [Follows], ih .receive⟩⟩
    have h := chain_obey (.await t) t.arrivals _ hwork
    simp only [List.flatMap_cons, Round.acts, List.cons_append, List.append_assoc,
      List.nil_append] at h ⊢
    exact List.isChain_cons_cons.2 ⟨by simp [Follows], h⟩

theorem follows_of_next {ts : List Round} {past : List (Moment ν)} {m n : Moment ν}
    (h : past ++ [m, n] <+: trail (lifeOf ts) r) : Follows m.act n.act := by
  have hacts : past.map Moment.act ++ [m.act, n.act] <+: lifeOf ts := by
    have hmap := h.map Moment.act
    rw [List.map_append] at hmap
    exact hmap.trans (trail_acts (lifeOf ts) r)
  obtain ⟨rest, hrest⟩ := hacts
  have hchain : (lifeOf ts).IsChain Follows := chain_rounds .start ts
  rw [← hrest] at hchain
  exact List.isChain_pair.1 hchain.left_of_append.right_of_append

end Relay

end AckRelay
