import AckRelay.Proofs.FlowControl.History
import Mathlib.Algebra.Order.BigOperators.Group.List
import Mathlib.Algebra.Order.Group.Nat
import Mathlib.Data.List.DropRight

namespace AckRelay.FlowControl

inductive Event where
  | delivered (p : Partition) (size : UInt64)
  | acknowledged (p : Partition)
  | refused (p : Partition)
  | removed (ps : List Partition)
  | reconciled (decided : Reconciliation)
  deriving DecidableEq, Repr

def outcome (f : FlowControl) : Operation → Event
  | .deliver p size => .delivered p size
  | .acknowledge p => if (f.acknowledge? p).isSome then .acknowledged p else .refused p
  | .remove ps => .removed ps
  | .reconcile assigned => .reconciled (f.reconcile assigned).1

/-- What operations came to, one after another. A record for which there is no room is the last
thing that comes to pass. -/
def outcomes (f : FlowControl) : List Operation → List Event
  | [] => []
  | op :: ops =>
    f.outcome op ::
      match f.perform? op with
      | some g => g.outcomes ops
      | none => []

def history (t : Thresholds) (ops : List Operation) : List Event :=
  ({ thresholds := t } : FlowControl).outcomes ops

section Outcomes

variable {f g : FlowControl} {op : Operation} {ops : List Operation} {t : Thresholds}

theorem outcomes_cons (h : f.perform? op = some g) (ops : List Operation) :
    f.outcomes (op :: ops) = f.outcome op :: g.outcomes ops := by
  rw [outcomes, h]

theorem outcomes_cons_of_none (h : f.perform? op = none) (ops : List Operation) :
    f.outcomes (op :: ops) = [f.outcome op] := by
  rw [outcomes, h]

theorem outcomes_append (h : f.performAll? ops = some g) (more : List Operation) :
    f.outcomes (ops ++ more) = f.outcomes ops ++ g.outcomes more := by
  induction ops generalizing f with
  | nil =>
    cases h
    rfl
  | cons op ops ih =>
    obtain ⟨next, hnext, hrest⟩ := performAll?_cons.1 h
    rw [List.cons_append, outcomes_cons hnext, outcomes_cons hnext, ih hrest, List.cons_append]

theorem history_concat (h : after? t ops = some f) (op : Operation) :
    history t (ops ++ [op]) = history t ops ++ [f.outcome op] := by
  have hlast : f.outcomes [op] = [f.outcome op] := by
    rw [outcomes]
    cases f.perform? op <;> rfl
  rw [history, outcomes_append h, hlast, history]

end Outcomes

section Since

variable (p : Partition)

def Event.removes : Event → Bool
  | .removed ps => decide (p ∈ ps)
  | _ => false

def Event.delivery? : Event → Option UInt64
  | .delivered q size => if q = p then some size else none
  | _ => none

def since (h : List Event) : List Event := h.rtakeWhile fun e => !e.removes p

def delivered (h : List Event) : List UInt64 := (since p h).filterMap (Event.delivery? p)

def acknowledged (h : List Event) : Nat := (since p h).count (.acknowledged p)

/-- The sizes of the records that are neither acknowledged nor removed. -/
def waiting (h : List Event) : List UInt64 := (delivered p h).drop (acknowledged p h)

variable {p} {e : Event} (h : List Event)

theorem since_concat_of_removes (he : e.removes p = true) : since p (h ++ [e]) = [] :=
  List.rtakeWhile_concat_neg _ _ _ (by simp [he])

theorem since_concat (he : e.removes p = false) : since p (h ++ [e]) = since p h ++ [e] :=
  List.rtakeWhile_concat_pos _ _ _ (by simp [he])

theorem delivered_concat (he : e.removes p = false) :
    delivered p (h ++ [e]) = delivered p h ++ (e.delivery? p).toList := by
  rw [delivered, since_concat h he, List.filterMap_append, delivered]
  cases hd : e.delivery? p <;> simp [hd]

theorem acknowledged_concat (he : e.removes p = false) :
    acknowledged p (h ++ [e]) = acknowledged p h + if e = .acknowledged p then 1 else 0 := by
  rw [acknowledged, since_concat h he, List.count_append, List.count_singleton, acknowledged]
  simp only [beq_iff_eq]

end Since

structure Follows (p : Partition) (h : List Event) (f : FlowControl) : Prop where
  acknowledged_le : acknowledged p h ≤ (delivered p h).length
  sizes : f.sizes p = waiting p h
  tracked : f.isTracked p = true ↔ delivered p h ≠ []
  released : f.wasReleased p = true ↔ (∃ e ∈ h, e.removes p = true) ∧ delivered p h = []

namespace Follows

variable {p : Partition} {h : List Event} {f : FlowControl}

/-- A record that comes waits behind the others. -/
theorem waiting_delivered (hf : Follows p h f) (size : UInt64) :
    waiting p (h ++ [.delivered p size]) = waiting p h ++ [size] := by
  have hkept : (Event.delivered p size).removes p = false := rfl
  have hdelivered : delivered p (h ++ [.delivered p size]) = delivered p h ++ [size] := by
    rw [delivered_concat h hkept, Event.delivery?, if_pos rfl, Option.toList_some]
  have hacknowledged : acknowledged p (h ++ [.delivered p size]) = acknowledged p h := by
    rw [acknowledged_concat h hkept, if_neg nofun, Nat.add_zero]
  rw [waiting, waiting, hdelivered, hacknowledged,
    List.drop_append_of_le_length hf.acknowledged_le]

theorem delivers {g : FlowControl} (hf : Follows p h f) {q : Partition} {size : UInt64}
    (hg : f.deliver? q size = some g) : Follows p (h ++ [.delivered q size]) g := by
  have hkept : (Event.delivered q size).removes p = false := rfl
  have hdelivered := delivered_concat h hkept
  have hacknowledged : acknowledged p (h ++ [.delivered q size]) = acknowledged p h := by
    rw [acknowledged_concat h hkept, if_neg nofun, Nat.add_zero]
  have hsizes := sizes_deliver hg p
  have htracked := isTracked_deliver hg p
  have hreleased := wasReleased_deliver hg p
  by_cases hq : q = p
  · subst hq
    have hnew : delivered q (h ++ [.delivered q size]) = delivered q h ++ [size] := by
      rw [hdelivered, Event.delivery?, if_pos rfl, Option.toList_some]
    constructor
    · rw [hacknowledged, hnew, List.length_append]
      exact Nat.le_add_right_of_le hf.acknowledged_le
    · rw [hsizes, if_pos rfl, hf.sizes, waiting_delivered hf]
    · simp [htracked, hnew]
    · simp [hreleased, hnew]
  · have hsame : delivered p (h ++ [.delivered q size]) = delivered p h := by
      rw [hdelivered, Event.delivery?, if_neg hq, Option.toList_none, List.append_nil]
    constructor
    · rw [hacknowledged, hsame]
      exact hf.acknowledged_le
    · rw [hsizes, if_neg hq, List.append_nil, hf.sizes, waiting, waiting, hacknowledged, hsame]
    · simp [htracked, hq, hsame, hf.tracked]
    · simp [hreleased, hq, hsame, hf.released, Event.removes]

/-- What neither removes the partition nor moves its queue leaves all as it was. -/
theorem of_same {g : FlowControl} {e : Event} (hf : Follows p h f) (hkept : e.removes p = false)
    (hnothing : e.delivery? p = none) (hnone : e ≠ .acknowledged p)
    (hsizes : g.sizes p = f.sizes p) (htracked : g.isTracked p = f.isTracked p)
    (hreleased : g.wasReleased p = f.wasReleased p) : Follows p (h ++ [e]) g := by
  have hdelivered : delivered p (h ++ [e]) = delivered p h := by
    rw [delivered_concat h hkept, hnothing, Option.toList_none, List.append_nil]
  have hacknowledged : acknowledged p (h ++ [e]) = acknowledged p h := by
    rw [acknowledged_concat h hkept, if_neg hnone, Nat.add_zero]
  constructor
  · rw [hacknowledged, hdelivered]
    exact hf.acknowledged_le
  · rw [hsizes, hf.sizes, waiting, waiting, hacknowledged, hdelivered]
  · rw [htracked, hdelivered]
    exact hf.tracked
  · rw [hreleased, hdelivered, hf.released]
    simp [hkept]

theorem releases {g : FlowControl} (hf : Follows p h f) (q : Partition)
    (hg : f.acknowledge? q = some g) : Follows p (h ++ [.acknowledged q]) g := by
  obtain ⟨size, holdest, hothers⟩ := sizes_acknowledge hg
  have htracked := isTracked_acknowledge hg p
  have hreleased : g.wasReleased p = f.wasReleased p := by
    rw [wasReleased, wasReleased, (acknowledge_eq hg).2.2]
  by_cases hq : q = p
  · subst hq
    have hkept : (Event.acknowledged q).removes q = false := rfl
    have hdelivered : delivered q (h ++ [.acknowledged q]) = delivered q h := by
      rw [delivered_concat h hkept]
      exact List.append_nil _
    have hacknowledged : acknowledged q (h ++ [.acknowledged q]) = acknowledged q h + 1 := by
      rw [acknowledged_concat h hkept, if_pos rfl]
    have hwaiting : size :: g.sizes q = (delivered q h).drop (acknowledged q h) :=
      holdest.symm.trans hf.sizes
    have hlt : acknowledged q h < (delivered q h).length := by
      apply List.length_lt_of_drop_ne_nil
      rw [← hwaiting]
      exact List.cons_ne_nil _ _
    constructor
    · rw [hacknowledged, hdelivered]
      exact hlt
    · rw [waiting, hacknowledged, hdelivered, ← List.tail_drop, ← hwaiting, List.tail_cons]
    · rw [htracked, hdelivered]
      exact hf.tracked
    · rw [hreleased, hdelivered, hf.released]
      simp [hkept]
  · refine hf.of_same rfl rfl ?_ (hothers p hq) htracked hreleased
    rintro ⟨⟩
    exact hq rfl

theorem removes (hf : Follows p h f) (ps : List Partition) :
    Follows p (h ++ [.removed ps]) (f.remove ps) := by
  by_cases hp : p ∈ ps
  · have hremoves : (Event.removed ps).removes p = true := by simp [Event.removes, hp]
    have hdelivered : delivered p (h ++ [.removed ps]) = [] := by
      rw [delivered, since_concat_of_removes h hremoves, List.filterMap_nil]
    have hacknowledged : acknowledged p (h ++ [.removed ps]) = 0 := by
      rw [acknowledged, since_concat_of_removes h hremoves, List.count_nil]
    constructor
    · rw [hacknowledged]
      exact Nat.zero_le _
    · rw [sizes_remove, if_pos hp, waiting, hdelivered, List.drop_nil]
    · simp [hp, hdelivered]
    · simp [hp, hdelivered, hremoves]
  · refine hf.of_same ?_ rfl nofun ?_ ?_ ?_
    · simp [Event.removes, hp]
    · rw [sizes_remove, if_neg hp]
    · simp [hp]
    · simp [hp]

/-- Every operation carries the queue of a partition on as its outcome says. -/
theorem perform {g : FlowControl} (hf : Follows p h f) {op : Operation} (hg : f.perform? op = some g) :
    Follows p (h ++ [f.outcome op]) g := by
  cases op with
  | deliver q size => exact hf.delivers hg
  | acknowledge q =>
    cases hg
    rw [outcome]
    cases hq : f.acknowledge? q with
    | none =>
      have hnone : Event.refused q ≠ .acknowledged p := by simp
      exact hf.of_same rfl rfl hnone rfl rfl rfl
    | some g => exact hf.releases q hq
  | remove ps =>
    cases hg
    exact hf.removes ps
  | reconcile assigned =>
    cases hg
    have hnone : Event.reconciled (f.reconcile assigned).1 ≠ .acknowledged p := by simp
    refine hf.of_same rfl rfl hnone (sizes_reconcile f p assigned) ?_ ?_
    · rw [reconcile_frame]
      rfl
    · rw [reconcile_frame]
      rfl

end Follows

/-- At the start no partition has a queue, and none is released. -/
theorem follows_start (t : Thresholds) (p : Partition) : Follows p [] { thresholds := t } where
  acknowledged_le := Nat.le_refl 0
  sizes := rfl
  tracked := ⟨nofun, fun h => absurd rfl h⟩
  released := ⟨nofun, fun ⟨⟨_, he, _⟩, _⟩ => nomatch he⟩

theorem follows_history {t : Thresholds} {ops : List Operation} {f : FlowControl}
    (h : after? t ops = some f) (p : Partition) : Follows p (history t ops) f := by
  -- by induction on the operations from the last one, since a history grows at its end
  induction ops using List.reverseRecOn generalizing f with
  | nil =>
    cases h
    exact follows_start t p
  | append_singleton ops op ih =>
    obtain ⟨before, hbefore, hlast⟩ := after?_concat.1 h
    rw [history_concat hbefore]
    exact (ih hbefore).perform hlast

theorem total_le_of_sublist {sizes more : List UInt64} (h : sizes.Sublist more) :
    Backlog.total sizes ≤ Backlog.total more := by
  induction h with
  | slnil => exact Nat.le_refl _
  | cons size _ ih => exact ih.trans (Nat.le_add_left _ _)
  | cons_cons size _ ih => exact Nat.add_le_add_left ih _

section Fits

variable {p : Partition}

/-- At every time the pending records of the partition have less than 2 ^ 64 bytes together. -/
def Fits (t : Thresholds) (ops : List Operation) (p : Partition) : Prop :=
  ∀ before, before <+: ops → Backlog.total (waiting p (history t before)) < 2 ^ 64

theorem Fits.before {t : Thresholds} {ops before : List Operation} (h : Fits t ops p)
    (hbefore : before <+: ops) : Fits t before p :=
  fun _ hearlier => h _ (hearlier.trans hbefore)

/-- Operations whose records fit go through. -/
theorem exists_after {t : Thresholds} {ops : List Operation} (hfits : ∀ p, Fits t ops p) :
    ∃ f, after? t ops = some f := by
  induction ops using List.reverseRecOn with
  | nil => exact ⟨_, rfl⟩
  | append_singleton ops op ih =>
    obtain ⟨f, hf⟩ := ih fun p => (hfits p).before (List.prefix_append ops [op])
    have hnext : ∃ g, f.perform? op = some g := by
      cases op with
      | deliver q size =>
        have hfollows := follows_history hf q
        have hroom := hfits q _ List.prefix_rfl
        rw [history_concat hf, outcome, hfollows.waiting_delivered, Backlog.total_concat,
          ← hfollows.sizes] at hroom
        exact exists_deliver_iff.2 hroom
      | acknowledge q => exact ⟨_, rfl⟩
      | remove ps => exact ⟨_, rfl⟩
      | reconcile assigned => exact ⟨_, rfl⟩
    obtain ⟨g, hg⟩ := hnext
    exact ⟨g, after?_concat.2 ⟨f, hf, hg⟩⟩

def Operation.delivery? (p : Partition) : Operation → Option UInt64
  | .deliver q size => if q = p then some size else none
  | .acknowledge _ | .remove _ | .reconcile _ => none

def offered (p : Partition) (ops : List Operation) : List UInt64 :=
  ops.filterMap (Operation.delivery? p)

theorem delivery?_outcome (f : FlowControl) (op : Operation) :
    (f.outcome op).delivery? p = op.delivery? p := by
  cases op with
  | deliver q size => rfl
  | acknowledge q =>
    rw [outcome]
    cases f.acknowledge? q <;> rfl
  | remove ps => rfl
  | reconcile assigned => rfl

theorem deliveries_outcomes (f : FlowControl) (ops : List Operation) :
    ((f.outcomes ops).filterMap (Event.delivery? p)).Sublist (offered p ops) := by
  induction ops generalizing f with
  | nil => exact List.Sublist.refl _
  | cons op ops ih =>
    cases hg : f.perform? op with
    | some g =>
      rw [outcomes_cons hg, List.filterMap_cons, delivery?_outcome, offered, List.filterMap_cons]
      cases op.delivery? p with
      | none => exact ih g
      | some size => exact (ih g).cons_cons size
    | none =>
      have hsingle : [op].Sublist (op :: ops) := (List.nil_sublist ops).cons_cons op
      have hfirst : [f.outcome op].filterMap (Event.delivery? p) = offered p [op] := by
        rw [offered, List.filterMap_cons, List.filterMap_cons, delivery?_outcome]
        rfl
      rw [outcomes_cons_of_none hg, hfirst]
      exact hsingle.filterMap _

/-- What is delivered of the partition in all bounds what is pending of it at any time. -/
theorem fits_of_offered {t : Thresholds} {ops : List Operation}
    (h : Backlog.total (offered p ops) < 2 ^ 64) : Fits t ops p := by
  intro before hbefore
  apply Nat.lt_of_le_of_lt _ h
  calc
    Backlog.total (waiting p (history t before))
    _ ≤ Backlog.total (delivered p (history t before)) :=
      total_le_of_sublist (List.drop_sublist _ _)
    _ ≤ Backlog.total ((history t before).filterMap (Event.delivery? p)) :=
      total_le_of_sublist ((List.rtakeWhile_suffix _ _).sublist.filterMap _)
    _ ≤ Backlog.total (offered p before) := total_le_of_sublist (deliveries_outcomes _ before)
    _ ≤ Backlog.total (offered p ops) := total_le_of_sublist (hbefore.sublist.filterMap _)

end Fits

section Others

def Operation.partitions : Operation → List Partition
  | .deliver p _ | .acknowledge p => [p]
  | .remove ps | .reconcile ps => ps

/-- All that is kept of a partition: its backlog, and whether it is paused or released. -/
def entry (f : FlowControl) (p : Partition) : Option Backlog × Bool × Bool :=
  (f.backlogs.get? p, f.isPaused p, f.wasReleased p)

variable {q : Partition}

/-- Decisions about other partitions leave the pause state alone, also repeated ones. -/
theorem isPaused_decideEach (ps : List Partition) (r : Reconciliation) (f : FlowControl)
    (hq : q ∉ ps) : (decideEach ps r f).2.isPaused q = f.isPaused q := by
  induction ps generalizing r f with
  | nil => rfl
  | cons p ps ih =>
    have hpq := List.ne_of_not_mem_cons hq
    have hq := List.not_mem_of_not_mem_cons hq
    rw [decideEach]
    split
    · split
      · rw [ih _ _ hq]
        simp [isPaused, PartitionMap.contains_erase, Ne.symm hpq]
      · exact ih _ _ hq
    · split
      · rw [ih _ _ hq]
        simp [isPaused, PartitionMap.contains_insert, Ne.symm hpq]
      · exact ih _ _ hq

theorem entry_remove_of_notMem {f : FlowControl} {ps : List Partition} (hq : q ∉ ps) :
    (f.remove ps).entry q = f.entry q := by
  have hpaused : (f.remove ps).isPaused q = f.isPaused q := by
    rw [isPaused_iff, paused_remove, PartitionMap.get?_foldl_erase, if_neg hq, isPaused_iff]
  have hreleased : (f.remove ps).wasReleased q = f.wasReleased q := by simp [hq]
  rw [entry, entry, hpaused, hreleased, remove_eq, PartitionMap.get?_foldl_erase, if_neg hq]

theorem entry_perform {f g : FlowControl} {op : Operation} (hg : f.perform? op = some g)
    (hq : q ∉ op.partitions) : g.entry q = f.entry q := by
  cases op with
  | deliver p size =>
    have hpq : p ≠ q := fun h => hq (List.mem_singleton.2 h.symm)
    have hreleased := wasReleased_deliver hg q
    obtain ⟨b, -, rfl⟩ := deliver?_eq_some_iff.1 hg
    rw [decide_eq_true hpq, Bool.true_and] at hreleased
    rw [entry, entry, hreleased, PartitionMap.get?_insert, if_neg hpq]
    rfl
  | acknowledge p =>
    have hpq : p ≠ q := fun h => hq (List.mem_singleton.2 h.symm)
    cases hg
    cases hg : f.acknowledge? p with
    | none => rfl
    | some g =>
      obtain ⟨b, c, -, -, rfl⟩ := acknowledge?_eq_some_iff.1 hg
      simp [entry, PartitionMap.get?_insert, hpq, isPaused, wasReleased]
  | remove ps =>
    cases hg
    exact entry_remove_of_notMem hq
  | reconcile assigned =>
    cases hg
    have hpaused : (f.reconcile assigned).2.isPaused q = f.isPaused q :=
      isPaused_decideEach assigned ⟨[], []⟩ f hq
    rw [entry, entry, hpaused, reconcile_frame]
    rfl

end Others

/-- What flow control tells of a partition is what its history says. -/
structure TellsHistory (p : Partition) (h : List Event) (f : FlowControl) : Prop where
  acknowledged_le : acknowledged p h ≤ (delivered p h).length
  pending : f.pending p = (delivered p h).length - acknowledged p h
  bytes : f.pendingBytes p = Backlog.total ((delivered p h).rtake (f.pending p))
  oldest_le : ∀ b size rest, f.backlogs.get? p = some b → b.sizes = size :: rest → size ≤ b.bytes
  refused : f.acknowledge? p = none ↔ f.pending p = 0
  unchanged : f.acknowledge? p = none → f.perform? (.acknowledge p) = some f
  tracked : f.isTracked p = true ↔ delivered p h ≠ []
  released : f.wasReleased p = true ↔ (∃ e ∈ h, e.removes p = true) ∧ delivered p h = []
  not_both : ¬(f.isTracked p = true ∧ f.wasReleased p = true)

theorem Follows.tellsHistory {p : Partition} {h : List Event} {f : FlowControl}
    (hf : Follows p h f) : TellsHistory p h f := by
  have hpending : f.pending p = (delivered p h).length - acknowledged p h := by
    rw [pending_eq_length, hf.sizes, waiting, List.length_drop]
  constructor
  case acknowledged_le => exact hf.acknowledged_le
  case pending => exact hpending
  case bytes =>
    rw [pendingBytes_eq_total, hf.sizes, waiting, List.rtake, hpending,
      Nat.sub_sub_self hf.acknowledged_le]
  case oldest_le =>
    intro b size rest hb hs
    have hbytes := b.toNat_bytes
    rw [hs, Backlog.total_cons] at hbytes
    rw [UInt64.le_iff_toNat_le, hbytes]
    exact Nat.le_add_right _ _
  case refused => exact acknowledge?_eq_none_iff
  case unchanged =>
    intro hnone
    rw [perform?, hnone, Option.getD_none]
  case tracked => exact hf.tracked
  case released => exact hf.released
  case not_both =>
    rintro ⟨htracked, hreleased⟩
    exact hf.tracked.1 htracked (hf.released.1 hreleased).2

/-- Operations whose pending records fit into a word go through. Flow control is then a plain queue
for each partition, and an operation is about no other partitions than those that it names. -/
theorem queues_follow_history (t : Thresholds) (ops : List Operation) (hfits : ∀ p, Fits t ops p) :
    ∃ f, after? t ops = some f ∧
      (∀ p, TellsHistory p (history t ops) f) ∧
      ∀ op g, f.perform? op = some g → ∀ q, q ∉ op.partitions → g.entry q = f.entry q := by
  obtain ⟨f, hf⟩ := exists_after hfits
  refine ⟨f, hf, fun p => ?_, fun op g hg q hq => entry_perform hg hq⟩
  exact (follows_history hf p).tellsHistory

def secondOwnership : List Operation :=
  [.deliver ⟨"t", 0⟩ 10, .deliver ⟨"t", 0⟩ 20, .acknowledge ⟨"t", 0⟩, .remove [⟨"t", 0⟩],
    .acknowledge ⟨"t", 0⟩, .deliver ⟨"t", 0⟩ 30, .deliver ⟨"t", 0⟩ 40, .deliver ⟨"t", 0⟩ 50,
    .acknowledge ⟨"t", 0⟩]

/-- Of the first ownership nothing counts any more, the late acknowledgement included. -/
theorem queues_follow_history_after_removal :
    (∀ p, Fits {} secondOwnership p) ∧
      delivered ⟨"t", 0⟩ (history {} secondOwnership) = [30, 40, 50] ∧
      ∃ f, after? {} secondOwnership = some f ∧
        f.pending ⟨"t", 0⟩ = 2 ∧ f.pendingBytes ⟨"t", 0⟩ = 90 ∧
        TellsHistory ⟨"t", 0⟩ (history {} secondOwnership) f := by
  have hfits : ∀ p, Fits {} secondOwnership p := by
    intro p
    apply fits_of_offered
    by_cases hp : ⟨"t", 0⟩ = p
    · subst hp
      decide
    · simp [offered, secondOwnership, List.filterMap_cons, Operation.delivery?, hp, Backlog.total]
  obtain ⟨f, hf, htells, -⟩ := queues_follow_history {} _ hfits
  have hcounts : (after? {} secondOwnership).map (fun f => (f.pending ⟨"t", 0⟩,
      f.pendingBytes ⟨"t", 0⟩)) = some (2, 90) := by decide
  rw [hf, Option.map_some, Option.some_inj, Prod.mk.injEq] at hcounts
  exact ⟨hfits, by decide, f, hf, hcounts.1, hcounts.2, htells _⟩

end AckRelay.FlowControl
