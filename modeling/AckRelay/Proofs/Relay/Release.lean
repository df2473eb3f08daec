import AckRelay.Proofs.FlowControl.Drain
import AckRelay.Proofs.Relay.Audit

/-!
A partition that is given up leaves nothing behind. Its backlog, its pause and what is pending to be
committed for it are gone, however the commit ends, and what is kept of other partitions stays
(`Cleared`). From then on deliveries, acknowledgements, decisions, flushes and further rebalances go
as if the partition had never been seen: only the mark of its release tells the difference, and none
of them reads it (`performAll_marked`).
-/

namespace AckRelay

namespace FlowControl

def marked (released : PartitionSet) (f : FlowControl) : FlowControl := { f with released }

def Operation.marks (released : PartitionSet) : Operation → PartitionSet
  | .deliver p _ => released.erase p
  | .remove ps => ps.foldl (fun m p => m.insert p ()) released
  | .acknowledge _ | .reconcile _ => released

section Marked

variable (f : FlowControl) (s : PartitionSet)

theorem acknowledge?_marked (p : Partition) :
    (f.marked s).acknowledge? p = (f.acknowledge? p).map (marked s) := by
  have hbacklogs : (f.marked s).backlogs = f.backlogs := rfl
  rw [acknowledge?, acknowledge?, hbacklogs]
  cases f.backlogs.get? p with
  | none => rfl
  | some b =>
    cases hpop : b.pop? <;> simp [hpop, marked]

theorem decideEach_marked (ps : List Partition) (r : Reconciliation) :
    decideEach ps r (f.marked s) = ((decideEach ps r f).1, (decideEach ps r f).2.marked s) := by
  induction ps generalizing f r with
  | nil => rfl
  | cons p ps ih =>
    have hpaused : (f.marked s).isPaused p = f.isPaused p := rfl
    have hpause : (f.marked s).shouldPause p = f.shouldPause p := rfl
    have hresume : (f.marked s).shouldResume p = f.shouldResume p := rfl
    rw [decideEach, decideEach, hpaused, hpause, hresume]
    split
    · split
      · exact ih { f with paused := f.paused.erase p } { r with resume := p :: r.resume }
      · exact ih f r
    · split
      · exact ih { f with paused := f.paused.insert p () } { r with pause := p :: r.pause }
      · exact ih f r

/-- What is paused and resumed does not depend on the marks of released partitions. -/
theorem reconcile_marked (ps : List Partition) :
    (f.marked s).reconcile ps = ((f.reconcile ps).1, (f.reconcile ps).2.marked s) := by
  rw [reconcile, decideEach_marked]
  rfl

/-- Removal adds its own marks to those that stood before. -/
theorem remove_marked (ps : List Partition) :
    (f.marked s).remove ps =
      (f.remove ps).marked (ps.foldl (fun m p => m.insert p ()) s) := by
  rw [remove_eq, remove_eq]
  rfl

theorem outcome_marked (op : Operation) : (f.marked s).outcome op = f.outcome op := by
  cases op with
  | deliver p size => rfl
  | remove ps => rfl
  | acknowledge p =>
    rw [outcome, outcome, acknowledge?_marked, Option.isSome_map]
  | reconcile ps => rw [outcome, outcome, reconcile_marked]

theorem perform_marked (op : Operation) :
    (f.marked s).perform? op = (f.perform? op).map (marked (op.marks s)) := by
  cases op with
  | deliver p size =>
    have hbacklogs : (f.marked s).backlogs = f.backlogs := rfl
    rw [perform?, perform?, deliver?, deliver?, hbacklogs]
    cases ((f.backlogs.get? p).getD {}).push? size <;> rfl
  | remove ps => exact congrArg some (remove_marked f s ps)
  | acknowledge p =>
    rw [perform?, perform?, acknowledge?_marked]
    cases f.acknowledge? p <;> rfl
  | reconcile ps =>
    rw [perform?, perform?, reconcile_marked]
    rfl

end Marked

end FlowControl

variable {β ν : Type}

namespace Desk

def heldFor? (p : Partition) (d : Desk ν) : Option Int64 := d.mode.held?.bind (·.get? p)

def marked (released : PartitionSet) (d : Desk ν) : Desk ν :=
  { d with flow := d.flow.marked released }

/-- The desk as if the partition had never been seen. -/
def unseen (p : Partition) (d : Desk ν) : Desk ν where
  mode :=
    match d.mode with
    | .grouped batch => .grouped { batch with pending := batch.pending.erase p }
    | .anonymous catchUp => .anonymous catchUp
  notifier := d.notifier
  flow :=
    { thresholds := d.flow.thresholds
      backlogs := d.flow.backlogs.erase p
      paused := d.flow.paused.erase p
      released := d.flow.released.erase p }
  metrics := d.metrics

section Marked

variable (commit : Committer β) (s : PartitionSet) (b : β) (d : Desk ν)

theorem marked_released : d.marked d.flow.released = d := rfl

theorem settle_marked (change : Rebalance) :
    (d.marked s).settle commit change b =
      ((d.settle commit change b).1, (d.settle commit change b).2.marked s) := by
  have hmode : (d.marked s).mode = d.mode := rfl
  cases hm : d.mode with
  | anonymous catchUp => simp only [settle, hmode, hm]
  | grouped batch =>
    cases change with
    | assigned ps => simp only [settle, hmode, hm]
    | revoked ps => simp only [settle, hmode, hm]; rfl
    | lost ps => simp only [settle, hmode, hm]; rfl

theorem release_marked (ps : List Partition) :
    (d.marked s).release ps =
      (d.release ps).marked (ps.foldl (fun m p => m.insert p ()) s) := by
  have hremove := FlowControl.remove_marked d.flow s ps
  simp only [release, marked, hremove]
  rfl

theorem adjustedBy_marked (change : Rebalance) :
    adjustedBy commit change b (d.marked s) =
      ((adjustedBy commit change b d).1,
        (adjustedBy commit change b d).2.marked
          (change.released.foldl (fun m p => m.insert p ()) s)) := by
  cases change with
  | assigned ps => rfl
  | revoked ps => simp only [adjustedBy, settle_marked, release_marked, Rebalance.released]
  | lost ps => simp only [adjustedBy, settle_marked, release_marked, Rebalance.released]

end Marked

inductive Task where
  | track (op : FlowControl.Operation)
  | record (p : Partition) (offset : Int64)
  | flush (forced : Bool) (now : Nat)
  | follow (change : Rebalance)
  deriving Repr

inductive Report where
  | tracked (e : FlowControl.Event)
  | recorded
  | flushed (outcome : FlushOutcome)
  | followed (failure : Option RelayError)
  deriving Repr

namespace Task

def delivers (p : Partition) : Task → Bool
  | .track op => op.delivers p
  | .record _ _ | .flush _ _ | .follow _ => false

def marks (released : PartitionSet) : Task → PartitionSet
  | .track op => op.marks released
  | .follow change => change.released.foldl (fun m p => m.insert p ()) released
  | .record _ _ | .flush _ _ => released

end Task

variable [Notifier ν] (commit : Committer β)

/-- There is nothing left after a delivery that the program does not survive. -/
def perform (task : Task) (b : β) (d : Desk ν) : Report × Option (β × Desk ν) :=
  match task with
  | .track op =>
    (.tracked (d.flow.outcome op), (d.flow.perform? op).map fun flow => (b, { d with flow }))
  | .record p offset =>
    match d.mode with
    | .grouped batch => (.recorded, some (b, { d with mode := .grouped (batch.record p offset) }))
    | .anonymous _ => (.recorded, some (b, d))
  | .flush forced now =>
    match d.mode with
    | .grouped batch =>
      let (outcome, batch, b) := batch.flush commit forced now b
      let metrics := d.metrics.addCommit (if forced then .forced else .interval) outcome
      (.flushed outcome, some (b, { d with mode := .grouped batch, metrics }))
    | .anonymous _ => (.flushed .idle, some (b, d))
  | .follow change =>
    match onRebalance commit change (b, d) with
    | .ok () after => (.followed none, some after)
    | .error e after => (.followed (some e), some after)

/-- Performs tasks one after another, as long as there is something left. -/
def performAll : List Task → β → Desk ν → List Report × Option (β × Desk ν)
  | [], b, d => ([], some (b, d))
  | task :: tasks, b, d =>
    match perform commit task b d with
    | (report, none) => ([report], none)
    | (report, some (b, d)) =>
      let (reports, after) := performAll tasks b d
      (report :: reports, after)

section Performed

variable (s : PartitionSet) (b : β) (d : Desk ν)

def markedAfter (s : PartitionSet) (after : Option (β × Desk ν)) : Option (β × Desk ν) :=
  after.map fun (b, d) => (b, d.marked s)

theorem tell_marked (n : Notification) :
    tell n (d.marked s) =
      match tell n d with
      | .ok u e => .ok u (e.marked s)
      | .error x e => .error x (e.marked s) := by
  have hnotifier : (d.marked s).notifier = d.notifier := rfl
  rw [tell, tell, hnotifier]
  cases Notifier.emit n d.notifier <;> rfl

/-- No task reads the marks of release, and each carries them on by themselves. -/
theorem perform_marked (task : Task) :
    perform commit task b (d.marked s) =
      ((perform commit task b d).1, markedAfter (task.marks s) (perform commit task b d).2) := by
  cases task with
  | track op =>
    simp only [perform, marked, FlowControl.outcome_marked, FlowControl.perform_marked, Task.marks,
      markedAfter]
    cases d.flow.perform? op <;> rfl
  | record p offset =>
    have hmode : (d.marked s).mode = d.mode := rfl
    cases hm : d.mode <;> simp only [perform, hmode, hm] <;> rfl
  | flush forced now =>
    have hmode : (d.marked s).mode = d.mode := rfl
    cases hm : d.mode <;> simp only [perform, hmode, hm] <;> rfl
  | follow change =>
    by_cases hempty : change.partitions = []
    · simp only [perform, onRebalance_of_empty hempty, Task.marks,
        Rebalance.released_of_empty hempty]
      rfl
    · obtain ⟨n, hnews, ho⟩ : ∃ n, change.news = [n] ∧ onRebalance commit change (b, d) = _ :=
        onRebalance_of_some hempty
      obtain ⟨n', hnews', ho'⟩ :
          ∃ n, change.news = [n] ∧ onRebalance commit change (b, d.marked s) = _ :=
        onRebalance_of_some hempty
      rw [hnews] at hnews'
      cases hnews'
      have hcount : (d.marked s).count (.rebalances change.kind) =
          (d.count (.rebalances change.kind)).marked s := rfl
      rw [hcount, adjustedBy_marked, tell_marked] at ho'
      simp only [perform, ho, ho', Task.marks]
      cases tell n (adjustedBy commit change b (d.count (.rebalances change.kind))).2 <;> rfl

/-- Tasks do not read the marks, so marking first and performing first come to the same. -/
theorem performAll_marked (tasks : List Task) :
    performAll commit tasks b (d.marked s) =
      ((performAll commit tasks b d).1,
        markedAfter (tasks.foldl Task.marks s) (performAll commit tasks b d).2) := by
  induction tasks generalizing s b d with
  | nil => rfl
  | cons task tasks ih =>
    have hfirst := perform_marked commit s b d task
    rw [performAll, performAll, hfirst]
    obtain ⟨report, _ | ⟨c, e⟩⟩ := perform commit task b d
    · rfl
    · simp only [markedAfter, Option.map_some, ih, List.foldl_cons]

end Performed

end Desk

section Marks

variable {p : Partition} {s t : PartitionSet}

theorem Desk.Task.marks_congr (task : Desk.Task) (h : s.get? p = t.get? p) :
    (task.marks s).get? p = (task.marks t).get? p := by
  cases task with
  | track op =>
    cases op with
    | deliver q size =>
      simp only [Desk.Task.marks, FlowControl.Operation.marks, PartitionMap.get?_erase, h]
    | remove ps =>
      simp only [Desk.Task.marks, FlowControl.Operation.marks, PartitionMap.get?_foldl_insert, h]
    | acknowledge q => exact h
    | reconcile ps => exact h
  | record q offset => exact h
  | flush forced now => exact h
  | follow change => simp only [Desk.Task.marks, PartitionMap.get?_foldl_insert, h]

theorem Desk.Task.marks_of_delivers {task : Desk.Task} (h : task.delivers p = true) :
    (task.marks s).get? p = none := by
  cases task with
  | track op =>
    cases op with
    | deliver q size =>
      have hq : q = p := of_decide_eq_true h
      rw [Desk.Task.marks, FlowControl.Operation.marks, PartitionMap.get?_erase, if_pos hq]
    | _ => cases h
  | _ => cases h

theorem marks_foldl_congr (tasks : List Desk.Task) (h : s.get? p = t.get? p) :
    (tasks.foldl Desk.Task.marks s).get? p = (tasks.foldl Desk.Task.marks t).get? p := by
  induction tasks generalizing s t with
  | nil => exact h
  | cons task tasks ih => exact ih (task.marks_congr h)

/-- A delivery of the partition takes its mark away, whether there is one or not. -/
theorem marks_foldl_of_delivers {tasks : List Desk.Task}
    (h : ∃ task ∈ tasks, task.delivers p = true) :
    (tasks.foldl Desk.Task.marks s).get? p = (tasks.foldl Desk.Task.marks t).get? p := by
  induction tasks generalizing s t with
  | nil => simp at h
  | cons task tasks ih =>
    by_cases hfirst : task.delivers p = true
    · have hgone : ∀ u, (task.marks u).get? p = none := fun u => Desk.Task.marks_of_delivers hfirst
      exact marks_foldl_congr tasks ((hgone s).trans (hgone t).symm)
    · obtain ⟨later, hmem, hlater⟩ := h
      have hrest : later ∈ tasks := by
        refine (List.mem_cons.1 hmem).resolve_left ?_
        rintro rfl
        exact hfirst hlater
      exact ih ⟨later, hrest, hlater⟩

end Marks

theorem PartitionMap.erase_of_none {α : Type} {m : PartitionMap α} {p : Partition}
    (h : m.get? p = none) : m.erase p = m := by
  refine ext_get? fun q => ?_
  rw [get?_erase]
  split
  · next hq => rw [← hq, h]
  · rfl

namespace Desk

variable {d : Desk ν} {p : Partition}

/-- A desk that keeps nothing of a partition has at most its mark of release. -/
theorem unseen_eq_marked (hflow : d.flow.backlogs.get? p = none)
    (hpaused : d.flow.isPaused p = false) (hheld : d.heldFor? p = none) :
    d.unseen p = d.marked (d.flow.released.erase p) := by
  have hbacklogs := PartitionMap.erase_of_none hflow
  have hpauses : d.flow.paused.erase p = d.flow.paused := by
    apply PartitionMap.erase_of_none
    rwa [FlowControl.isPaused_iff, Option.isSome_eq_false_iff, Option.isNone_iff_eq_none] at hpaused
  rw [unseen, marked, FlowControl.marked, hbacklogs, hpauses]
  cases hm : d.mode with
  | anonymous catchUp => simp only
  | grouped batch =>
    rw [heldFor?, hm] at hheld
    have hpending : batch.pending.erase p = batch.pending := PartitionMap.erase_of_none hheld
    simp only [hpending]

section Adjusted

variable (commit : Committer β) (change : Rebalance) (b : β) (d : Desk ν)

theorem held_settle :
    (d.settle commit change b).2.mode.held? =
      d.mode.held?.map (change.released.foldl PartitionMap.erase) := by
  cases hm : d.mode with
  | anonymous catchUp => simp only [settle, hm]; rfl
  | grouped batch =>
    cases change with
    | assigned ps => simp only [settle, hm]; rfl
    | lost ps =>
      simp only [settle, hm]
      exact congrArg some (CommitBatch.pending_take batch ps)
    | revoked ps =>
      simp only [settle, hm, batch.batch_revoke]
      exact congrArg some (CommitBatch.pending_take batch ps)

theorem frame_settle :
    (d.settle commit change b).2.flow = d.flow ∧
      (d.settle commit change b).2.notifier = d.notifier := by
  cases hm : d.mode with
  | anonymous catchUp => simp [settle, hm]
  | grouped batch => cases change <;> simp [settle, hm]

/-- A batch that gives partitions up asks for at most one commit, that of what they hold. -/
theorem asked_revoke (batch : CommitBatch) (ps : List Partition) (a : Audited β) :
    (batch.revoke (Audited.noting commit) ps a).2.2.asked =
      a.asked ++ ((Rebalance.revoked ps).handsOver (some batch.pending)).toList := by
  have hasked := Audited.endState_noting commit (batch.take ps).1 a
  rw [handsOver_revoked]
  rcases batch.revoke_cases (Audited.noting commit) a ps with
    ⟨hempty, ho⟩ | ⟨hsome, ⟨next, hc, ho⟩ | ⟨e, next, hc, ho⟩⟩
  · rw [ho, hempty]
    exact (List.append_nil _).symm
  · rw [endState_of_ok hc] at hasked
    rw [ho, hsome, hasked]
    rfl
  · rw [endState_of_error hc] at hasked
    rw [ho, hsome, hasked]
    rfl

/-- Settling asks for the commit that is handed over and for no other. -/
theorem asked_settle (a : Audited β) :
    (d.settle (Audited.noting commit) change a).1.asked =
      a.asked ++ (change.handsOver d.mode.held?).toList := by
  cases hm : d.mode with
  | anonymous catchUp =>
    cases change <;> simp only [settle, hm] <;> exact (List.append_nil _).symm
  | grouped batch =>
    cases change with
    | assigned ps => simp only [settle, hm]; exact (List.append_nil _).symm
    | lost ps => simp only [settle, hm]; exact (List.append_nil _).symm
    | revoked ps =>
      simp only [settle, hm]
      exact asked_revoke commit batch ps a

/-- The batch keeps what it holds for the partitions that stay. -/
theorem held_adjustedBy :
    (adjustedBy commit change b d).2.mode.held? =
      d.mode.held?.map (change.released.foldl PartitionMap.erase) := by
  cases change with
  | assigned ps => cases hheld : d.mode.held? <;> simp [adjustedBy, hheld, Rebalance.released]
  | revoked ps => exact held_settle commit (.revoked ps) b d
  | lost ps => exact held_settle commit (.lost ps) b d

theorem flow_adjustedBy :
    (adjustedBy commit change b d).2.flow = d.flow.remove change.released := by
  cases change with
  | assigned ps => rfl
  | revoked ps => exact congrArg (FlowControl.remove ps) (frame_settle commit (.revoked ps) b d).1
  | lost ps => exact congrArg (FlowControl.remove ps) (frame_settle commit (.lost ps) b d).1

theorem notifier_adjustedBy : (adjustedBy commit change b d).2.notifier = d.notifier := by
  cases change with
  | assigned ps => rfl
  | revoked ps => exact (frame_settle commit (.revoked ps) b d).2
  | lost ps => exact (frame_settle commit (.lost ps) b d).2

theorem asked_adjustedBy (a : Audited β) :
    (adjustedBy (Audited.noting commit) change a d).1.asked =
      a.asked ++ (change.handsOver d.mode.held?).toList := by
  cases change with
  | assigned ps => exact (List.append_nil _).symm
  | revoked ps => exact asked_settle commit (.revoked ps) d a
  | lost ps => exact asked_settle commit (.lost ps) d a

theorem adjustedBy_lost (ps : List Partition) : (adjustedBy commit (.lost ps) b d).1 = b := by
  cases hm : d.mode <;> simp only [adjustedBy, settle, hm]

end Adjusted

/-- What the broker and the desk make of a rebalance that takes partitions away. -/
structure Cleared (change : Rebalance) (a : Audited β) (d : Desk ν) (after : Audited β × Desk ν) :
    Prop where
  gone : ∀ p ∈ change.released,
    after.2.flow.entry p = (none, false, true) ∧ after.2.heldFor? p = none
  kept : ∀ q ∉ change.released,
    after.2.flow.entry q = d.flow.entry q ∧ after.2.heldFor? q = d.heldFor? q
  asked : after.1.asked = a.asked ++ (change.handsOver d.mode.held?).toList
  lost : ∀ ps, change = .lost ps → after.1 = a

/-- A removed partition has no usage and no pause, and is marked as released. -/
theorem entry_remove {f : FlowControl} {ps : List Partition} {p : Partition} (hp : p ∈ ps) :
    (f.remove ps).entry p = (none, false, true) := by
  have hpaused := FlowControl.isPaused_remove f hp
  have hreleased : (f.remove ps).wasReleased p = true := by simp [hp]
  have hbacklog : (f.remove ps).backlogs.get? p = none := by
    rw [FlowControl.remove_eq, PartitionMap.get?_foldl_erase, if_pos hp]
  rw [FlowControl.entry, hpaused, hreleased, hbacklog]

theorem heldFor?_of_held {d e : Desk ν} {ps : List Partition}
    (h : e.mode.held? = d.mode.held?.map (ps.foldl PartitionMap.erase)) (p : Partition) :
    e.heldFor? p = if p ∈ ps then none else d.heldFor? p := by
  rw [heldFor?, heldFor?, h]
  cases d.mode.held? with
  | none => simp
  | some held => exact PartitionMap.get?_foldl_erase ps held p

variable [Notifier ν]

theorem cleared_onRebalance (commit : Committer β) {change : Rebalance}
    (hsome : change.partitions ≠ []) (a : Audited β) (d : Desk ν) :
    Cleared change a d (endState (onRebalance (Audited.noting commit) change) (a, d)) := by
  obtain ⟨notifier, hend⟩ := endState_onRebalance_of_some (Audited.noting commit) change a d hsome
  rw [hend]
  have hflow := flow_adjustedBy (Audited.noting commit) change a (d.count (.rebalances change.kind))
  have hheld := heldFor?_of_held
    (held_adjustedBy (Audited.noting commit) change a (d.count (.rebalances change.kind)))
  constructor
  case gone =>
    intro p hp
    refine ⟨?_, (hheld p).trans (if_pos hp)⟩
    rw [hflow]
    exact entry_remove hp
  case kept =>
    intro q hq
    refine ⟨?_, (hheld q).trans (if_neg hq)⟩
    rw [hflow]
    exact FlowControl.entry_remove_of_notMem hq
  case asked => exact asked_adjustedBy commit change _ a
  case lost =>
    rintro ps rfl
    exact adjustedBy_lost (Audited.noting commit) a _ ps

/-- Where partitions are released, the host hears of just these. -/
theorem news_of_released {change : Rebalance} (hsome : change.released ≠ []) :
    change.news = [.unassigned change.released] := by
  cases change with
  | assigned ps => exact absurd rfl hsome
  | revoked ps => exact if_neg hsome
  | lost ps => exact if_neg hsome

/-- The callback succeeds if the host takes the news, whatever became of the commit. -/
theorem onRebalance_of_taken (commit : Committer β) {change : Rebalance}
    (hsome : change.released ≠ []) (b : β) (d : Desk ν) {w : ν}
    (h : Notifier.emit (.unassigned change.released) d.notifier = .ok () w) :
    onRebalance commit change (b, d) = .ok () (endState (onRebalance commit change) (b, d)) := by
  have hpartitions : change.partitions ≠ [] := mt Rebalance.released_of_empty hsome
  obtain ⟨n, hnews, ho⟩ : ∃ n, change.news = [n] ∧ onRebalance commit change (b, d) = _ :=
    onRebalance_of_some hpartitions
  rw [news_of_released hsome, List.singleton_inj] at hnews
  have hnotifier := notifier_adjustedBy commit change b (d.count (.rebalances change.kind))
  rw [endState, ho, tell, hnotifier, ← hnews]
  have hcount : (d.count (.rebalances change.kind)).notifier = d.notifier := rfl
  rw [hcount, h]

structure SameDesk (p : Partition) (tasks : List Task) (d e : Desk ν) : Prop where
  desk : e = d.marked e.flow.released
  others : ∀ q, q ≠ p → e.flow.wasReleased q = d.flow.wasReleased q
  delivered : (∃ task ∈ tasks, task.delivers p = true) →
    e.flow.wasReleased p = d.flow.wasReleased p

/-- Two runs of the same tasks that cannot be told apart by anything else. The program survives both
of them or neither. -/
structure SameBut (p : Partition) (tasks : List Task)
    (r s : List Report × Option (β × Desk ν)) : Prop where
  reports : s.1 = r.1
  broker : s.2.map Prod.fst = r.2.map Prod.fst
  desk : ∀ d ∈ r.2.map Prod.snd, ∀ e ∈ s.2.map Prod.snd, SameDesk p tasks d e

/-- A desk that keeps nothing of a partition goes on as if it had never seen it. -/
theorem sameBut_unseen (commit : Committer β) {p : Partition} (tasks : List Task) (b : β)
    {d : Desk ν} (hentry : d.flow.entry p = (none, false, true)) (hheld : d.heldFor? p = none) :
    SameBut p tasks (performAll commit tasks b d) (performAll commit tasks b (d.unseen p)) := by
  rw [FlowControl.entry, Prod.mk.injEq, Prod.mk.injEq] at hentry
  have hrun := performAll_marked commit d.flow.released b d tasks
  rw [marked_released] at hrun
  have hunseen := performAll_marked commit (d.flow.released.erase p) b d tasks
  rw [← unseen_eq_marked hentry.1 hentry.2.1 hheld] at hunseen
  rw [hunseen]
  cases hafter : (performAll commit tasks b d).2 with
  | none => exact ⟨rfl, by rw [hafter]; rfl, fun e he => by rw [hafter] at he; cases he⟩
  | some after =>
    obtain ⟨c, e⟩ := after
    have hreleased : e.flow.released = tasks.foldl Task.marks d.flow.released := by
      rw [hafter] at hrun
      have hmarked := congrArg Prod.snd hrun
      simp only [hafter, markedAfter, Option.map_some, Option.some.injEq, Prod.mk.injEq] at hmarked
      rw [hmarked.2]
      rfl
    refine ⟨rfl, by rw [hafter]; rfl, ?_⟩
    rw [hafter]
    rintro _ ⟨rfl⟩ _ ⟨rfl⟩
    constructor
    case desk => rfl
    case others =>
      intro q hq
      rw [FlowControl.wasReleased_iff, FlowControl.wasReleased_iff, hreleased]
      refine congrArg Option.isSome (marks_foldl_congr tasks ?_)
      rw [PartitionMap.get?_erase, if_neg (Ne.symm hq)]
    case delivered =>
      intro hdelivers
      rw [FlowControl.wasReleased_iff, FlowControl.wasReleased_iff, hreleased]
      exact congrArg Option.isSome (marks_foldl_of_delivers hdelivers)

/-- A rebalance that takes partitions away leaves nothing of them behind, whatever becomes of the
commit, and nothing that is done later depends on their past. -/
theorem released_leaves_nothing_behind (commit : Committer β) {change : Rebalance}
    (hsome : change.released ≠ []) (a : Audited β) (d : Desk ν) :
    let after := endState (onRebalance (Audited.noting commit) change) (a, d)
    Cleared change a d after ∧
      (∀ w, Notifier.emit (.unassigned change.released) d.notifier = .ok () w →
        onRebalance (Audited.noting commit) change (a, d) = .ok () after) ∧
      ∀ p ∈ change.released, ∀ tasks,
        SameBut p tasks (performAll (Audited.noting commit) tasks after.1 after.2)
          (performAll (Audited.noting commit) tasks after.1 (after.2.unseen p)) := by
  have hpartitions : change.partitions ≠ [] := mt Rebalance.released_of_empty hsome
  have hcleared := cleared_onRebalance commit hpartitions a d
  refine ⟨hcleared, fun w hw => onRebalance_of_taken _ hsome a d hw, fun p hp tasks => ?_⟩
  obtain ⟨hentry, hheld⟩ := hcleared.gone p hp
  exact sameBut_unseen _ tasks _ hentry hheld

def pausedDesk : Desk Host where
  mode := .grouped { pending := .ofList [(⟨"t", 0⟩, 4), (⟨"t", 1⟩, 7)], interval := 5000 }
  notifier := .listening
  flow := (FlowControl.after? FlowControl.noRoom FlowControl.twoPaused).getD {}

def refuse : Committer Unit := fun _ => throw (.rejected "commit" "refused")

def takenAway : Rebalance := .revoked [⟨"t", 0⟩, ⟨"t", 2⟩, ⟨"t", 0⟩]

def comesBack : List Task :=
  [.follow (.assigned [⟨"t", 0⟩]), .track (.acknowledge ⟨"t", 0⟩), .track (.deliver ⟨"t", 0⟩ 5),
    .track (.reconcile [⟨"t", 0⟩]), .track (.acknowledge ⟨"t", 0⟩), .record ⟨"t", 0⟩ 2,
    .flush true 0]

theorem released_leaves_nothing_behind_of_refused_commit :
    let after := endState (onRebalance (Audited.noting refuse) takenAway) (⟨(), []⟩, pausedDesk)
    takenAway.released ≠ [] ∧
      pausedDesk.flow.isPaused ⟨"t", 0⟩ = true ∧ pausedDesk.heldFor? ⟨"t", 0⟩ = some 4 ∧
      after.1.asked.map (·.entries) = [[(⟨"t", 0⟩, 4)]] ∧ after.2.heldFor? ⟨"t", 1⟩ = some 7 ∧
      Cleared takenAway ⟨(), []⟩ pausedDesk after ∧
      onRebalance (Audited.noting refuse) takenAway (⟨(), []⟩, pausedDesk) = .ok () after ∧
      SameBut ⟨"t", 0⟩ comesBack (performAll (Audited.noting refuse) comesBack after.1 after.2)
        (performAll (Audited.noting refuse) comesBack after.1 (after.2.unseen ⟨"t", 0⟩)) := by
  have hsome : takenAway.released ≠ [] := by decide
  have hleaves := released_leaves_nothing_behind refuse hsome ⟨(), []⟩ pausedDesk
  exact ⟨hsome, by decide +kernel, by decide +kernel, by decide +kernel, by decide +kernel,
    hleaves.1, hleaves.2.1 _ rfl, hleaves.2.2 ⟨"t", 0⟩ (by decide) comesBack⟩

end Desk

end AckRelay
