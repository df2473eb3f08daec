import AckRelay.Proofs.CommitBatch
import Mathlib.Data.List.Induction
import Mathlib.Data.List.TakeWhile

/-!
When a batch is committed. Its timer starts again with every flush that is due, whether that finds
anything to commit or not, but whatever waits was recorded after that (`Punctual`). So commits on
time keep apart, and no flush leaves behind what has waited for the interval (`commits_keep_time`).
-/

namespace AckRelay.CommitBatch

variable {β : Type}

inductive Operation where
  | record (p : Partition) (offset : Int64)
  | flush (forced : Bool)
  | revoke (ps : List Partition)
  | lose (ps : List Partition)
  deriving DecidableEq, Repr

def apply (commit : Committer β) (now : Nat) (op : Operation) (b : CommitBatch) (broker : β) :
    FlushOutcome × CommitBatch × β :=
  match op with
  | .record p offset => (.idle, b.record p offset, broker)
  | .flush forced => b.flush commit forced now broker
  | .revoke ps => b.revoke commit ps broker
  | .lose ps => (.idle, (b.lose ps).2, broker)

structure Entry where
  time : Nat
  op : Operation
  outcome : FlushOutcome
  deriving DecidableEq, Repr

namespace Entry

def commits (e : Entry) : Bool :=
  match e.op with
  | .flush _ => decide (e.outcome = .committed)
  | .record _ _ | .revoke _ | .lose _ => false

def onTime? (e : Entry) : Option Nat :=
  if e.op = .flush false ∧ e.commits = true then some e.time else none

def settles (p : Partition) (e : Entry) : Bool :=
  match e.op with
  | .flush _ => e.commits
  | .revoke ps | .lose ps => decide (p ∈ ps)
  | .record _ _ => false

def recorded? (p : Partition) (e : Entry) : Option (Nat × Int64) :=
  match e.op with
  | .record q offset => if q = p then some (e.time, offset) else none
  | .flush _ | .revoke _ | .lose _ => none

theorem settles_of_commits {e : Entry} (h : e.commits = true) (p : Partition) :
    e.settles p = true := by
  rw [commits] at h
  rw [settles]
  split at h
  · next hop => rw [hop]; simpa [commits, hop] using h
  all_goals cases h

theorem exists_of_recorded? {e : Entry} {p : Partition} {r : Nat × Int64}
    (h : e.recorded? p = some r) : ∃ q offset, e.op = .record q offset := by
  rw [recorded?] at h
  split at h
  · next q offset hop => exact ⟨q, offset, hop⟩
  all_goals cases h

end Entry

def onTime (h : List Entry) : List Nat := h.filterMap Entry.onTime?

section Waiting

variable {p : Partition} {h : List Entry} {e : Entry}

/-- What was recorded for a partition and is neither committed nor dropped since, last one first. -/
def waiting (p : Partition) (h : List Entry) : List (Nat × Int64) :=
  (h.reverse.takeWhile fun e => !e.settles p).filterMap (Entry.recorded? p)

theorem waiting_of_settles (he : e.settles p = true) : waiting p (h ++ [e]) = [] := by
  simp [waiting, he]

theorem waiting_of_other (he : e.settles p = false) (hnone : e.recorded? p = none) :
    waiting p (h ++ [e]) = waiting p h := by
  simp [waiting, he, hnone]

theorem waiting_of_recorded {r : Nat × Int64} (he : e.settles p = false)
    (hrecorded : e.recorded? p = some r) : waiting p (h ++ [e]) = r :: waiting p h := by
  simp [waiting, he, hrecorded]

/-- What waits was recorded since the last flush that committed. -/
theorem exists_recorded_of_waiting (hne : waiting p h ≠ []) :
    ∃ r ∈ h.reverse.takeWhile (fun e => !e.commits), ∃ q offset, r.op = .record q offset := by
  obtain ⟨r, hr⟩ := List.exists_mem_of_ne_nil _ hne
  obtain ⟨e, he, hrecorded⟩ := List.mem_filterMap.1 hr
  refine ⟨e, ?_, Entry.exists_of_recorded? hrecorded⟩
  have hboth : (fun e : Entry => decide ((!e.settles p) = true ∧ (!e.commits) = true)) =
      fun e => !e.settles p := by
    funext e
    cases hc : e.commits with
    | false => simp
    | true => simp [e.settles_of_commits hc]
  have htake := List.takeWhile_takeWhile (fun e : Entry => !e.settles p) (fun e => !e.commits)
    h.reverse
  rw [hboth] at htake
  rw [← htake] at he
  exact (List.takeWhile_sublist _).subset he

end Waiting

structure Ledger (β : Type) where
  batch : CommitBatch
  broker : β
  entries : List Entry := []

namespace Ledger

variable (commit : Committer β)

def step (l : Ledger β) (timed : Nat × Operation) : Ledger β :=
  let (outcome, batch, broker) := apply commit timed.1 timed.2 l.batch l.broker
  ⟨batch, broker, l.entries ++ [⟨timed.1, timed.2, outcome⟩]⟩

def run (ops : List (Nat × Operation)) (l : Ledger β) : Ledger β := ops.foldl (step commit) l

def ofStart (interval t0 : Nat) (broker : β) (ops : List (Nat × Operation)) : Ledger β :=
  run commit ops { batch := .start interval t0, broker }

end Ledger

structure Punctual (interval t0 now : Nat) (l : Ledger β) : Prop where
  unchanged : l.batch.interval = interval
  started : t0 ≤ l.batch.lastFlush
  flushed : l.batch.lastFlush ≤ now
  committed : ∀ s ∈ onTime l.entries, s ≤ l.batch.lastFlush
  recorded : ∀ p, ∀ r ∈ waiting p l.entries, l.batch.lastFlush ≤ r.1
  pending : ∀ p, l.batch.pending.get? p = ((waiting p l.entries).map Prod.snd).max?
  apart : (t0 :: onTime l.entries).Pairwise (fun s t => s + interval ≤ t)

namespace Punctual

variable {interval t0 now next : Nat} {l : Ledger β}

theorem later (h : Punctual interval t0 now l) (hnext : now ≤ next) :
    Punctual interval t0 next l :=
  { h with flushed := Nat.le_trans h.flushed hnext }

/-- With nothing pending nothing waits. -/
theorem waiting_eq_nil (h : Punctual interval t0 now l) (hempty : l.batch.pending.isEmpty = true)
    (p : Partition) : waiting p l.entries = [] := by
  have hpending := h.pending p
  rw [(PartitionMap.isEmpty_iff _).1 hempty p] at hpending
  exact List.map_eq_nil_iff.1 (List.max?_eq_none_iff.1 hpending.symm)

theorem exists_waiting (h : Punctual interval t0 now l) (hsome : l.batch.pending.isEmpty = false) :
    ∃ p, waiting p l.entries ≠ [] := by
  obtain ⟨p, hp⟩ := PartitionMap.exists_get?_of_nonempty hsome
  refine ⟨p, fun hnil => hp ?_⟩
  rw [h.pending p, hnil]
  rfl

section Step

variable {b : CommitBatch} {broker : β} {e : Entry}

/-- What does not touch the timer and commits nothing on time needs only keep to what waits. -/
theorem still (h : Punctual interval t0 now l) (hinterval : b.interval = l.batch.interval)
    (hlast : b.lastFlush = l.batch.lastFlush) (hnone : e.onTime? = none)
    (hrecorded : ∀ p, ∀ r ∈ waiting p (l.entries ++ [e]), l.batch.lastFlush ≤ r.1)
    (hpending : ∀ p, b.pending.get? p = ((waiting p (l.entries ++ [e])).map Prod.snd).max?) :
    Punctual interval t0 now ⟨b, broker, l.entries ++ [e]⟩ := by
  have honTime : onTime (l.entries ++ [e]) = onTime l.entries := by
    simp [onTime, hnone]
  constructor
  case unchanged => exact hinterval.trans h.unchanged
  case started => exact hlast ▸ h.started
  case flushed => exact hlast ▸ h.flushed
  case committed =>
    simp only [honTime, hlast]
    exact h.committed
  case recorded =>
    simp only [hlast]
    exact hrecorded
  case pending => exact hpending
  case apart =>
    simp only [honTime]
    exact h.apart

theorem record (h : Punctual interval t0 now l) (p : Partition) (offset : Int64) :
    Punctual interval t0 now
      ⟨l.batch.record p offset, broker, l.entries ++ [⟨now, .record p offset, .idle⟩]⟩ := by
  have hwaiting : ∀ q, waiting q (l.entries ++ [⟨now, .record p offset, .idle⟩]) =
      if p = q then (now, offset) :: waiting q l.entries else waiting q l.entries := by
    intro q
    split
    · next hq => exact waiting_of_recorded rfl (if_pos hq)
    · next hq => exact waiting_of_other rfl (if_neg hq)
  have hframe := l.batch.frame_record p offset
  refine h.still hframe.1 hframe.2 rfl (fun q r hr => ?_) (fun q => ?_)
  · rw [hwaiting] at hr
    split at hr
    · rcases List.mem_cons.1 hr with rfl | hr
      · exact h.flushed
      · exact h.recorded q r hr
    · exact h.recorded q r hr
  · rw [hwaiting, pending_record, PartitionMap.get?_insert]
    split
    · next hq =>
      rw [hq, h.pending q, List.map_cons, List.max?_cons]
      rfl
    · exact h.pending q

/-- What is revoked or lost does not wait any longer. -/
theorem release (h : Punctual interval t0 now l) (ps : List Partition) (hnone : e.onTime? = none)
    (hsettles : ∀ q, e.settles q = decide (q ∈ ps)) (hrecords : ∀ q, e.recorded? q = none) :
    Punctual interval t0 now ⟨(l.batch.take ps).2, broker, l.entries ++ [e]⟩ := by
  have hwaiting : ∀ q, waiting q (l.entries ++ [e]) =
      if q ∈ ps then [] else waiting q l.entries := by
    intro q
    split
    · next hq => exact waiting_of_settles (by simp [hsettles, hq])
    · next hq => exact waiting_of_other (by simp [hsettles, hq]) (hrecords q)
  rw [take_eq]
  refine h.still rfl rfl hnone (fun q r hr => ?_) (fun q => ?_)
  · rw [hwaiting] at hr
    split at hr
    · cases hr
    · exact h.recorded q r hr
  · rw [hwaiting, PartitionMap.get?_foldl_erase]
    split
    · rfl
    · exact h.pending q

/-- A flush that finds nothing to commit starts the interval again, and nothing waits. -/
theorem restart (h : Punctual interval t0 now l) (hempty : l.batch.pending.isEmpty = true)
    (forced : Bool) :
    Punctual interval t0 now ⟨{ l.batch with lastFlush := now }, broker,
      l.entries ++ [⟨now, .flush forced, .idle⟩]⟩ := by
  have hwaiting : ∀ p, waiting p (l.entries ++ [⟨now, .flush forced, .idle⟩]) = [] := by
    intro p
    rw [waiting_of_other rfl rfl, h.waiting_eq_nil hempty]
  have honTime : onTime (l.entries ++ [⟨now, .flush forced, .idle⟩]) = onTime l.entries := by
    simp [onTime, Entry.onTime?, Entry.commits]
  constructor
  case unchanged => exact h.unchanged
  case started => exact Nat.le_trans h.started h.flushed
  case flushed => exact Nat.le_refl now
  case committed =>
    rw [honTime]
    exact fun s hs => Nat.le_trans (h.committed s hs) h.flushed
  case recorded =>
    intro p r hr
    rw [hwaiting] at hr
    cases hr
  case pending =>
    intro p
    rw [hwaiting]
    exact (PartitionMap.isEmpty_iff _).1 hempty p
  case apart =>
    rw [honTime]
    exact h.apart

/-- A flush that commits starts the interval again, and nothing waits either. If it was not forced,
the last interval was over. -/
theorem commit (h : Punctual interval t0 now l) {forced : Bool}
    (hdue : ¬(forced = false ∧ now - l.batch.lastFlush < l.batch.interval)) :
    Punctual interval t0 now ⟨{ l.batch with lastFlush := now, pending := ∅ }, broker,
      l.entries ++ [⟨now, .flush forced, .committed⟩]⟩ := by
  have hwaiting : ∀ p, waiting p (l.entries ++ [⟨now, .flush forced, .committed⟩]) = [] :=
    fun p => waiting_of_settles rfl
  have hbefore : ∀ s ∈ t0 :: onTime l.entries, s ≤ l.batch.lastFlush :=
    List.forall_mem_cons.2 ⟨h.started, h.committed⟩
  have honTime : onTime (l.entries ++ [⟨now, .flush forced, .committed⟩]) =
      onTime l.entries ++ if forced = false then [now] else [] := by
    cases forced <;> simp [onTime, Entry.onTime?, Entry.commits]
  constructor
  case unchanged => exact h.unchanged
  case started => exact Nat.le_trans h.started h.flushed
  case flushed => exact Nat.le_refl now
  case committed =>
    intro s hs
    rw [honTime, List.mem_append] at hs
    rcases hs with hs | hs
    · exact Nat.le_trans (h.committed s hs) h.flushed
    · split at hs
      · exact Nat.le_of_eq (List.mem_singleton.1 hs)
      · cases hs
  case recorded =>
    intro p r hr
    rw [hwaiting] at hr
    cases hr
  case pending =>
    intro p
    rw [hwaiting]
    rfl
  case apart =>
    rw [honTime, ← List.cons_append, List.pairwise_append]
    refine ⟨h.apart, ?_, fun s hs t ht => ?_⟩
    · split
      · exact List.pairwise_singleton _ _
      · exact List.Pairwise.nil
    · split at ht
      · next hforced =>
        rw [List.mem_singleton.1 ht]
        have hs := hbefore s hs
        have hover : ¬now - l.batch.lastFlush < l.batch.interval := fun hlt => hdue ⟨hforced, hlt⟩
        have hflushed := h.flushed
        have hinterval := h.unchanged
        omega
      · cases ht

end Step

theorem step (commit : Committer β) (h : Punctual interval t0 now l) (op : Operation)
    (hsucceeds : ∀ x, (apply commit now op l.batch l.broker).1 ≠ .failed x) :
    Punctual interval t0 now (l.step commit (now, op)) := by
  rw [Ledger.step]
  cases op with
  | record p offset => exact h.record p offset
  | lose ps => exact h.release ps rfl (fun _ => rfl) (fun _ => rfl)
  | revoke ps =>
    have hbatch := l.batch.batch_revoke commit l.broker ps
    simp only [apply, hbatch]
    exact h.release ps (by simp [Entry.onTime?]) (fun _ => rfl) (fun _ => rfl)
  | flush forced =>
    by_cases hdue : forced = false ∧ now - l.batch.lastFlush < l.batch.interval
    · have ho := flush_of_not_due commit l.batch l.broker hdue
      simp only [apply, ho]
      refine h.still rfl rfl (by simp [Entry.onTime?, Entry.commits]) (fun p => ?_) (fun p => ?_)
      · rw [waiting_of_other rfl rfl]
        exact h.recorded p
      · rw [waiting_of_other rfl rfl]
        exact h.pending p
    · rcases flush_of_due commit l.batch l.broker hdue with
        ⟨hempty, ho⟩ | ⟨-, ⟨next, -, ho⟩ | ⟨x, next, -, ho⟩⟩
      · simp only [apply, ho]
        exact h.restart hempty forced
      · simp only [apply, ho]
        exact h.commit hdue
      · exact absurd (congrArg Prod.fst ho) (hsucceeds x)

/-- What still waits after a flush has not waited for the interval. -/
theorem fresh_of_flush (commit : Committer β) (h : Punctual interval t0 now l) {forced : Bool}
    (hsucceeds : ∀ x, (apply commit now (.flush forced) l.batch l.broker).1 ≠ .failed x)
    {p : Partition} {r : Nat × Int64}
    (hr : r ∈ waiting p (l.step commit (now, .flush forced)).entries) : now < r.1 + interval := by
  rw [Ledger.step] at hr
  by_cases hdue : forced = false ∧ now - l.batch.lastFlush < l.batch.interval
  · have ho := flush_of_not_due commit l.batch l.broker hdue
    simp only [apply, ho] at hr
    rw [waiting_of_other rfl rfl] at hr
    have hrecorded := h.recorded p r hr
    have hinterval := h.unchanged
    omega
  · rcases flush_of_due commit l.batch l.broker hdue with
      ⟨hempty, ho⟩ | ⟨-, ⟨next, -, ho⟩ | ⟨x, next, -, ho⟩⟩
    · simp only [apply, ho] at hr
      rw [waiting_of_other rfl rfl, h.waiting_eq_nil hempty] at hr
      cases hr
    · simp only [apply, ho] at hr
      rw [waiting_of_settles rfl] at hr
      cases hr
    · exact absurd (congrArg Prod.fst ho) (hsucceeds x)

/-- A flush commits only what was recorded since the last commit. -/
theorem earned_of_commits (commit : Committer β) (h : Punctual interval t0 now l) {forced : Bool}
    (hcommits : (apply commit now (.flush forced) l.batch l.broker).1 = .committed) :
    ∃ r ∈ l.entries.reverse.takeWhile (fun e => !e.commits),
      ∃ p offset, r.op = .record p offset := by
  rw [apply] at hcommits
  have hsome : l.batch.pending.isEmpty = false := by
    rcases l.batch.flush_cases commit l.broker forced now with ⟨last, ho, -⟩ | ⟨hsome, -⟩
    · rw [ho] at hcommits
      cases hcommits
    · exact hsome
  obtain ⟨p, hp⟩ := h.exists_waiting hsome
  exact exists_recorded_of_waiting hp

end Punctual

def AtEach (Q : List Entry → Entry → Prop) (h : List Entry) : Prop :=
  ∀ before e after, h = before ++ e :: after → Q before e

theorem atEach_nil (Q : List Entry → Entry → Prop) : AtEach Q [] := by
  intro before e after h
  simp at h

theorem AtEach.concat {Q : List Entry → Entry → Prop} {h : List Entry} {e : Entry}
    (hall : AtEach Q h) (hlast : Q h e) : AtEach Q (h ++ [e]) := by
  intro before x after hsplit
  rcases List.eq_nil_or_concat after with rfl | ⟨rest, y, rfl⟩
  · obtain ⟨rfl, hx⟩ := List.append_inj' hsplit rfl
    cases hx
    exact hlast
  · rw [List.concat_eq_append, ← List.cons_append, ← List.append_assoc] at hsplit
    obtain ⟨hfirst, -⟩ := List.append_inj' hsplit rfl
    exact hall before x rest hfirst

structure KeepsTime (interval t0 : Nat) (l : Ledger β) : Prop where
  apart : (t0 :: onTime l.entries).Pairwise (fun s t => s + interval ≤ t)
  pending : ∀ p, l.batch.pending.get? p = ((waiting p l.entries).map Prod.snd).max?
  fresh : AtEach (fun before e => ∀ forced, e.op = .flush forced →
    ∀ p, ∀ r ∈ waiting p (before ++ [e]), e.time < r.1 + interval) l.entries
  earned : AtEach (fun before e => e.commits = true →
    ∃ r ∈ before.reverse.takeWhile (fun e => !e.commits), ∃ p offset, r.op = .record p offset)
    l.entries

section Run

variable (commit : Committer β) (interval t0 : Nat) (broker : β)

theorem ofStart_concat (ops : List (Nat × Operation)) (timed : Nat × Operation) :
    Ledger.ofStart commit interval t0 broker (ops ++ [timed]) =
      (Ledger.ofStart commit interval t0 broker ops).step commit timed :=
  List.foldl_append

theorem punctual_start : Punctual interval t0 t0
    ({ batch := .start interval t0, broker } : Ledger β) where
  unchanged := rfl
  started := Nat.le_refl t0
  flushed := Nat.le_refl t0
  committed := nofun
  recorded := nofun
  pending _ := rfl
  apart := List.pairwise_singleton _ _

variable {ops : List (Nat × Operation)}

theorem punctual_ofStart (hclock : (t0 :: ops.map Prod.fst).Pairwise (· ≤ ·))
    (hsucceeds : ∀ e ∈ (Ledger.ofStart commit interval t0 broker ops).entries,
      ∀ x, e.outcome ≠ .failed x) :
    ∀ now, (∀ t ∈ t0 :: ops.map Prod.fst, t ≤ now) →
      Punctual interval t0 now (Ledger.ofStart commit interval t0 broker ops) := by
  induction ops using List.reverseRecOn with
  | nil =>
    intro now hnow
    exact (punctual_start interval t0 broker).later (hnow t0 List.mem_cons_self)
  | append_singleton ops timed ih =>
    obtain ⟨time, op⟩ := timed
    rw [List.map_append, ← List.cons_append, List.pairwise_append] at hclock
    obtain ⟨hpast, -, hnext⟩ := hclock
    rw [ofStart_concat] at hsucceeds ⊢
    obtain ⟨hbefore, hlast⟩ := List.forall_mem_append.1 hsucceeds
    have hpunctual := ih hpast hbefore time fun t ht => hnext t ht time (List.mem_singleton_self _)
    have hstep := hpunctual.step commit op (hlast _ (List.mem_singleton_self _))
    intro now hnow
    exact hstep.later (hnow time (by simp))

/-- What holds of every operation of a batch that is punctual holds of every entry. -/
theorem atEach_ofStart {Q : List Entry → Entry → Prop}
    (hstep : ∀ (l : Ledger β) now op, Punctual interval t0 now l →
      (∀ x, (apply commit now op l.batch l.broker).1 ≠ .failed x) →
      Q l.entries ⟨now, op, (apply commit now op l.batch l.broker).1⟩)
    (hclock : (t0 :: ops.map Prod.fst).Pairwise (· ≤ ·))
    (hsucceeds : ∀ e ∈ (Ledger.ofStart commit interval t0 broker ops).entries,
      ∀ x, e.outcome ≠ .failed x) :
    AtEach Q (Ledger.ofStart commit interval t0 broker ops).entries := by
  induction ops using List.reverseRecOn with
  | nil => exact atEach_nil Q
  | append_singleton ops timed ih =>
    obtain ⟨time, op⟩ := timed
    rw [List.map_append, ← List.cons_append, List.pairwise_append] at hclock
    obtain ⟨hpast, -, hnext⟩ := hclock
    rw [ofStart_concat] at hsucceeds ⊢
    obtain ⟨hbefore, hlast⟩ := List.forall_mem_append.1 hsucceeds
    have hpunctual := punctual_ofStart commit interval t0 broker hpast hbefore time
      fun t ht => hnext t ht time (List.mem_singleton_self _)
    exact (ih hpast hbefore).concat
      (hstep _ time op hpunctual (hlast _ (List.mem_singleton_self _)))

/-- Commits on time are at least the interval apart, a flush leaves nothing that has waited for the
interval, and every flush that commits has something new to commit. -/
theorem commits_keep_time (hclock : (t0 :: ops.map Prod.fst).Pairwise (· ≤ ·))
    (hsucceeds : ∀ e ∈ (Ledger.ofStart commit interval t0 broker ops).entries,
      ∀ x, e.outcome ≠ .failed x) :
    KeepsTime interval t0 (Ledger.ofStart commit interval t0 broker ops) := by
  obtain ⟨now, hnow⟩ : ∃ now, ∀ t ∈ t0 :: ops.map Prod.fst, t ≤ now :=
    ⟨(t0 :: ops.map Prod.fst).max?.getD t0, fun t ht => List.le_max?_getD_of_mem ht⟩
  have hpunctual := punctual_ofStart commit interval t0 broker hclock hsucceeds now hnow
  constructor
  case apart => exact hpunctual.apart
  case pending => exact hpunctual.pending
  case fresh =>
    refine atEach_ofStart commit interval t0 broker ?_ hclock hsucceeds
    intro l now op hl hsucceeds forced hop p r hr
    obtain rfl : op = .flush forced := hop
    exact hl.fresh_of_flush commit hsucceeds hr
  case earned =>
    refine atEach_ofStart commit interval t0 broker ?_ hclock hsucceeds
    intro l now op hl hsucceeds hcommits
    cases op with
    | flush forced => exact hl.earned_of_commits commit (of_decide_eq_true hcommits)
    | record p offset => cases hcommits
    | revoke ps => cases hcommits
    | lose ps => cases hcommits

end Run

def threeCommits : List (Nat × Operation) :=
  [(1000, .record ⟨"t", 0⟩ 5), (1050, .flush false), (1100, .flush false), (1200, .flush false),
    (1210, .record ⟨"t", 0⟩ 7), (1210, .record ⟨"t", 1⟩ 0), (1290, .flush false),
    (1295, .lose [⟨"t", 1⟩]), (1310, .flush false), (1320, .record ⟨"t", 1⟩ 3),
    (1320, .flush true), (1330, .record ⟨"t", 1⟩ 4)]

def accept : Committer Unit := fun _ => pure ()

theorem commits_keep_time_around_an_empty_flush :
    let l := Ledger.ofStart accept 100 1000 () threeCommits
    (1000 :: threeCommits.map Prod.fst).Pairwise (· ≤ ·) ∧
      (∀ e ∈ l.entries, ∀ x, e.outcome ≠ .failed x) ∧ onTime l.entries = [1100, 1310] ∧
      waiting ⟨"t", 1⟩ l.entries = [(1330, 4)] ∧ KeepsTime 100 1000 l := by
  have hclock : (1000 :: threeCommits.map Prod.fst).Pairwise (· ≤ ·) := by decide
  have houtcomes : (Ledger.ofStart accept 100 1000 () threeCommits).entries.map Entry.outcome =
      [.idle, .idle, .committed, .idle, .idle, .idle, .idle, .idle, .committed, .idle, .committed,
        .idle] := by
    decide +kernel
  have hsucceeds : ∀ e ∈ (Ledger.ofStart accept 100 1000 () threeCommits).entries,
      ∀ x, e.outcome ≠ .failed x := by
    intro e he x hx
    have hmem := List.mem_map_of_mem (f := Entry.outcome) he
    rw [houtcomes, hx] at hmem
    simp at hmem
  exact ⟨hclock, hsucceeds, by decide +kernel, by decide +kernel,
    commits_keep_time accept 100 1000 () hclock hsucceeds⟩

end AckRelay.CommitBatch
