import AckRelay.Proofs.FlowControl.Hysteresis
import AckRelay.Proofs.FlowControl.Queues
import Mathlib.Data.List.Defs

/-!
The pauses and resumptions of a partition over its whole history. They take turns, beginning with a
pause, and begin afresh when the partition is removed. If the bands are apart, a partition is
resumed only after an acknowledgement and paused again only after a delivery (`switches_alternate`).
-/

namespace AckRelay

inductive Switch where
  | pause
  | resume
  deriving DecidableEq, Repr

def Switch.other : Switch → Switch
  | .pause => .resume
  | .resume => .pause

def Reconciliation.switches (p : Partition) (r : Reconciliation) : List Switch :=
  List.replicate (r.pause.count p) .pause ++ List.replicate (r.resume.count p) .resume

theorem Thresholds.not_overlap_of_lt {t : Thresholds} (hbytes : t.resumeBytes < t.pauseBytes)
    (hmessages : t.resumeMessages < t.pauseMessages) : ¬t.Overlap := by
  rw [Overlap]
  omega

/-- What has to be paused has to be paused with a greater backlog too. -/
theorem Thresholds.PausesAt.mono {t : Thresholds} {pending more bytes moreBytes : Nat}
    (h : t.PausesAt pending bytes) (hpending : pending ≤ more) (hbytes : bytes ≤ moreBytes) :
    t.PausesAt more moreBytes := by
  rw [PausesAt] at h ⊢
  omega

namespace FlowControl

variable {p : Partition}

def Event.switches (p : Partition) : Event → List Switch
  | .reconciled decided => decided.switches p
  | .delivered _ _ | .acknowledged _ | .refused _ | .removed _ => []

def switches (p : Partition) (h : List Event) : List Switch := h.flatMap (Event.switches p)

def Operation.NamesOnce : Operation → Prop
  | .reconcile assigned => assigned.Nodup
  | .deliver _ _ | .acknowledge _ | .remove _ => True

instance (op : Operation) : Decidable op.NamesOnce := by
  cases op <;> (unfold Operation.NamesOnce; infer_instance)

section Switches

variable (f : FlowControl)

def nextSwitch (p : Partition) : Switch := if f.isPaused p then .resume else .pause

theorem count_sort_filter (decision : Partition → Bool) {ps : List Partition} (hn : ps.Nodup) :
    (Partition.sort (ps.filter decision).reverse).count p =
      if p ∈ ps ∧ decision p = true then 1 else 0 := by
  have hcount : (Partition.sort (ps.filter decision).reverse).count p =
      (ps.filter decision).reverse.count p := (List.mergeSort_perm _ _).count_eq p
  rw [hcount, List.count_reverse, (hn.filter decision).count]
  simp only [List.mem_filter]

theorem switches_reconcile {ps : List Partition} (hn : ps.Nodup) :
    (f.reconcile ps).1.switches p =
      List.replicate (if p ∈ ps ∧ f.pausing p = true then 1 else 0) .pause ++
        List.replicate (if p ∈ ps ∧ f.resuming p = true then 1 else 0) .resume := by
  rw [Reconciliation.switches, reconcile_eq f hn, count_sort_filter f.pausing hn,
    count_sort_filter f.resuming hn]

/-- Whatever is done, a partition that is not removed is switched as is due, or not at all. -/
theorem switches_perform {g : FlowControl} {op : Operation} (hg : f.perform? op = some g)
    (hop : op.NamesOnce) (hkept : (f.outcome op).removes p = false) :
    ((f.outcome op).switches p = [] ∧ g.nextSwitch p = f.nextSwitch p) ∨
      ((f.outcome op).switches p = [f.nextSwitch p] ∧ g.nextSwitch p = (f.nextSwitch p).other) := by
  cases op with
  | deliver q size =>
    refine Or.inl ⟨rfl, ?_⟩
    rw [nextSwitch, isPaused, (deliver_eq hg).2]
    rfl
  | acknowledge q =>
    cases hg
    rw [outcome]
    cases hg : f.acknowledge? q with
    | none => exact Or.inl ⟨rfl, rfl⟩
    | some g =>
      refine Or.inl ⟨rfl, ?_⟩
      rw [Option.getD_some, nextSwitch, isPaused, (acknowledge_eq hg).2.1]
      rfl
  | remove ps =>
    cases hg
    have hp : p ∉ ps := of_decide_eq_false hkept
    refine Or.inl ⟨rfl, ?_⟩
    rw [nextSwitch, isPaused_iff, paused_remove, PartitionMap.get?_foldl_erase, if_neg hp]
    rfl
  | reconcile assigned =>
    cases hg
    have hswitches := switches_reconcile f (p := p) hop
    by_cases hp : p ∈ assigned
    · have hpaused := isPaused_of_reconcile f hop hp
      rw [outcome, Event.switches, hswitches, nextSwitch, nextSwitch, hpaused]
      cases hbefore : f.isPaused p with
      | true =>
        cases hresume : f.shouldResume p <;>
          simp [pausing, resuming, hp, hbefore, hresume, Switch.other]
      | false =>
        cases hpause : f.shouldPause p <;>
          simp [pausing, resuming, hp, hbefore, hpause, Switch.other]
    · refine Or.inl ⟨?_, ?_⟩
      · rw [outcome, Event.switches, hswitches, if_neg (fun h => hp h.1), if_neg (fun h => hp h.1)]
        rfl
      · rw [nextSwitch, reconcile, isPaused_decideEach assigned _ f hp]
        rfl

theorem isPaused_remove {ps : List Partition} (hp : p ∈ ps) : (f.remove ps).isPaused p = false := by
  rw [isPaused_iff, paused_remove, PartitionMap.get?_foldl_erase, if_pos hp]
  rfl

theorem removed_of_outcome {op : Operation} (h : (f.outcome op).removes p = true) :
    ∃ ps, op = .remove ps ∧ p ∈ ps := by
  cases op with
  | remove ps => exact ⟨ps, rfl, of_decide_eq_true h⟩
  | deliver q size => cases h
  | reconcile assigned => cases h
  | acknowledge q =>
    rw [outcome] at h
    split at h <;> cases h

/-- What is paused after an operation was so before, or had to be. -/
theorem isPaused_perform {g : FlowControl} {op : Operation} (hg : f.perform? op = some g)
    (hop : op.NamesOnce) (h : g.isPaused p = true) :
    f.isPaused p = true ∨ f.shouldPause p = true := by
  cases op with
  | deliver q size =>
    rw [isPaused, (deliver_eq hg).2] at h
    exact Or.inl h
  | acknowledge q =>
    cases hg
    cases hq : f.acknowledge? q with
    | none =>
      rw [hq] at h
      exact Or.inl h
    | some g =>
      rw [hq, Option.getD_some, isPaused, (acknowledge_eq hq).2.1] at h
      exact Or.inl h
  | remove ps =>
    cases hg
    rw [isPaused_iff, paused_remove, PartitionMap.get?_foldl_erase] at h
    split at h
    · cases h
    · exact Or.inl h
  | reconcile assigned =>
    cases hg
    by_cases hp : p ∈ assigned
    · rw [isPaused_of_reconcile f hop hp, pausing] at h
      simp only [Bool.or_eq_true, Bool.and_eq_true] at h
      exact h.elim (fun h => Or.inr h.2) (fun h => Or.inl h.1)
    · rw [reconcile, isPaused_decideEach assigned _ f hp] at h
      exact Or.inl h

end Switches

def Alternate (first : Switch) (switches : List Switch) : Prop :=
  ∃ n, switches = List.iterate Switch.other first n

theorem alternate_nil (first : Switch) : Alternate first [] := ⟨0, rfl⟩

theorem Alternate.cons {first : Switch} {switches : List Switch}
    (h : Alternate first.other switches) : Alternate first (first :: switches) := by
  obtain ⟨n, rfl⟩ := h
  exact ⟨n + 1, rfl⟩

/-- From any state on, pauses and resumptions take turns, beginning with the one that is next, and
after each removal with a pause. -/
theorem alternate_outcomes (f : FlowControl) {ops : List Operation}
    (hops : ∀ op ∈ ops, op.NamesOnce) :
    ∃ first rest, (f.outcomes ops).splitOnP (Event.removes p) = first :: rest ∧
      Alternate (f.nextSwitch p) (switches p first) ∧
      ∀ segment ∈ rest, Alternate .pause (switches p segment) := by
  induction ops generalizing f with
  | nil => exact ⟨[], [], rfl, alternate_nil _, nofun⟩
  | cons op ops ih =>
    obtain ⟨hop, hops⟩ := List.forall_mem_cons.1 hops
    cases hg : f.perform? op with
    | none =>
      obtain ⟨q, size, rfl⟩ := delivery_of_perform_eq_none hg
      refine ⟨[.delivered q size], [], ?_, alternate_nil _, nofun⟩
      rw [outcomes_cons_of_none hg]
      rfl
    | some g =>
      obtain ⟨first, rest, hsplit, hfirst, hrest⟩ := ih g hops
      rw [outcomes_cons hg, List.splitOnP_cons_eq_if_modifyHead, hsplit]
      by_cases hremoves : (f.outcome op).removes p = true
      · -- a segment ends here, and the next one begins with a partition that is not paused
        refine ⟨[], first :: rest, if_pos hremoves, alternate_nil _, ?_⟩
        obtain ⟨ps, rfl, hp⟩ := removed_of_outcome f hremoves
        cases hg
        have hnext : (f.remove ps).nextSwitch p = .pause := by
          rw [nextSwitch, isPaused_remove f hp]
          rfl
        rw [hnext] at hfirst
        intro segment hsegment
        rcases List.mem_cons.1 hsegment with rfl | hsegment
        · exact hfirst
        · exact hrest segment hsegment
      · refine ⟨f.outcome op :: first, rest, if_neg hremoves, ?_, hrest⟩
        rw [switches, List.flatMap_cons]
        rcases switches_perform f hg hop (Bool.not_eq_true _ ▸ hremoves) with
          ⟨hnone, hsame⟩ | ⟨hone, hother⟩
        · rw [hnone, List.nil_append, ← hsame]
          exact hfirst
        · rw [hother] at hfirst
          rw [hone, List.singleton_append]
          exact hfirst.cons

section Between

variable {f g : FlowControl} {op : Operation} {ops : List Operation}

theorem pausesAt_iff :
    f.shouldPause p = true ↔
      f.thresholds.PausesAt (f.sizes p).length (Backlog.total (f.sizes p)) := by
  rw [shouldPause_iff, pending_eq_length, pendingBytes_eq_total]

/-- A queue that is part of another asks for a pause only if the other one does. -/
theorem shouldPause_of_sublist (hsame : g.thresholds = f.thresholds)
    (hsizes : (f.sizes p).Sublist (g.sizes p)) (h : f.shouldPause p = true) :
    g.shouldPause p = true := by
  rw [pausesAt_iff, hsame]
  exact (pausesAt_iff.1 h).mono hsizes.length_le (total_le_of_sublist hsizes)

/-- The queue of a partition that is not removed gets shorter only by an acknowledgement. -/
theorem sizes_sublist_perform (hg : f.perform? op = some g) (hkept : (f.outcome op).removes p = false)
    (hack : f.outcome op ≠ .acknowledged p) : (f.sizes p).Sublist (g.sizes p) := by
  cases op with
  | deliver q size =>
    rw [sizes_deliver hg]
    exact List.sublist_append_left _ _
  | acknowledge q =>
    cases hg
    cases hg : f.acknowledge? q with
    | none => exact List.Sublist.refl _
    | some g =>
      obtain ⟨-, -, hothers⟩ := sizes_acknowledge hg
      have hq : q ≠ p := by
        rintro rfl
        exact hack (by rw [outcome, hg]; rfl)
      rw [Option.getD_some, hothers p hq]
  | remove ps =>
    cases hg
    rw [sizes_remove, if_neg (of_decide_eq_false hkept)]
  | reconcile assigned =>
    cases hg
    rw [sizes_reconcile]

/-- It gets longer only by a delivery. -/
theorem perform_sizes_sublist (hg : f.perform? op = some g)
    (hdelivery : ∀ size, f.outcome op ≠ .delivered p size) :
    (g.sizes p).Sublist (f.sizes p) := by
  cases op with
  | deliver q size =>
    have hq : q ≠ p := by
      rintro rfl
      exact hdelivery size rfl
    rw [sizes_deliver hg, if_neg hq, List.append_nil]
  | acknowledge q =>
    cases hg
    cases hg : f.acknowledge? q with
    | none => exact List.Sublist.refl _
    | some g =>
      obtain ⟨size, holdest, hothers⟩ := sizes_acknowledge hg
      rw [Option.getD_some]
      by_cases hq : q = p
      · subst hq
        rw [holdest]
        exact List.sublist_cons_self _ _
      · rw [hothers p hq]
  | remove ps =>
    cases hg
    rw [sizes_remove]
    split
    · exact List.nil_sublist _
    · exact List.Sublist.refl _
  | reconcile assigned =>
    cases hg
    rw [sizes_reconcile]

def PausedRightly (p : Partition) (f : FlowControl) : Prop :=
  f.isPaused p = true → f.shouldPause p = true

theorem PausedRightly.perform (hg : f.perform? op = some g) (hop : op.NamesOnce)
    (hack : f.outcome op ≠ .acknowledged p) (h : PausedRightly p f) : PausedRightly p g := by
  intro hpaused
  have hkept : (f.outcome op).removes p = false := by
    rw [← Bool.not_eq_true]
    intro hremoves
    obtain ⟨ps, rfl, hp⟩ := removed_of_outcome f hremoves
    cases hg
    rw [isPaused_remove f hp] at hpaused
    cases hpaused
  have hbefore : f.shouldPause p = true := (isPaused_perform f hg hop hpaused).elim h id
  exact shouldPause_of_sublist (thresholds_perform hg) (sizes_sublist_perform hg hkept hack) hbefore

/-- Without an acknowledgement a partition stays paused rightly. -/
theorem PausedRightly.performAll (hg : f.performAll? ops = some g) (hops : ∀ op ∈ ops, op.NamesOnce)
    (hack : .acknowledged p ∉ f.outcomes ops) (h : PausedRightly p f) : PausedRightly p g := by
  induction ops generalizing f with
  | nil =>
    cases hg
    exact h
  | cons op ops ih =>
    obtain ⟨next, hnext, hrest⟩ := performAll?_cons.1 hg
    obtain ⟨hop, hops⟩ := List.forall_mem_cons.1 hops
    rw [outcomes_cons hnext, List.mem_cons, not_or] at hack
    exact ih hrest hops hack.2 (h.perform hnext hop (Ne.symm hack.1))

/-- Without a delivery a partition that need not be paused need not be paused later. -/
theorem not_shouldPause_performAll (hg : f.performAll? ops = some g)
    (hdelivery : ∀ size, .delivered p size ∉ f.outcomes ops) (h : f.shouldPause p = false) :
    g.shouldPause p = false := by
  induction ops generalizing f with
  | nil =>
    cases hg
    exact h
  | cons op ops ih =>
    obtain ⟨next, hnext, hrest⟩ := performAll?_cons.1 hg
    simp only [outcomes_cons hnext, List.mem_cons, not_or, forall_and] at hdelivery
    apply ih hrest hdelivery.2
    rw [← Bool.not_eq_true] at h ⊢
    refine mt (shouldPause_of_sublist (thresholds_perform hnext).symm ?_) h
    exact perform_sizes_sublist hnext fun size hsize => hdelivery.1 size hsize.symm

end Between

/-- Between a pause and any later resumption an acknowledgement of the partition succeeded. -/
def ResumedByAcknowledgement (p : Partition) (h : List Event) : Prop :=
  ∀ before first between second rest,
    h = before ++ .reconciled first :: (between ++ .reconciled second :: rest) →
      p ∈ first.pause → p ∈ second.resume → .acknowledged p ∈ between

/-- Between a resumption and any later pause a record of the partition was delivered. -/
def PausedByDelivery (p : Partition) (h : List Event) : Prop :=
  ∀ before first between second rest,
    h = before ++ .reconciled first :: (between ++ .reconciled second :: rest) →
      p ∈ first.resume → p ∈ second.pause → ∃ size, .delivered p size ∈ between

section Split

variable {f : FlowControl} {ops : List Operation}

/-- What comes after some outcomes comes of the operations after those. -/
theorem outcomes_eq_append {past later : List Event} {e : Event}
    (h : f.outcomes ops = past ++ e :: later) :
    ∃ before op after g, ops = before ++ op :: after ∧ f.performAll? before = some g ∧
      f.outcomes before = past ∧ g.outcomes (op :: after) = e :: later := by
  induction past generalizing f ops with
  | nil =>
    cases ops with
    | nil => cases h
    | cons op ops => exact ⟨[], op, ops, f, rfl, rfl, rfl, h⟩
  | cons first past ih =>
    cases ops with
    | nil => cases h
    | cons op ops =>
      cases hnext : f.perform? op with
      | none =>
        rw [outcomes_cons_of_none hnext] at h
        cases past <;> cases h
      | some next =>
        rw [outcomes_cons hnext] at h
        obtain ⟨hfirst, hrest⟩ := List.cons.inj h
        obtain ⟨before, last, after, g, rfl, hg, hpast, hlater⟩ := ih hrest
        refine ⟨op :: before, last, after, g, rfl, performAll?_cons.2 ⟨next, hnext, hg⟩, ?_, hlater⟩
        rw [outcomes_cons hnext, hfirst, hpast]

theorem outcome_eq_reconciled {op : Operation} {r : Reconciliation}
    (h : f.outcome op = .reconciled r) : ∃ assigned, op = .reconcile assigned ∧
      (f.reconcile assigned).1 = r := by
  cases op with
  | reconcile assigned => exact ⟨assigned, rfl, Event.reconciled.inj h⟩
  | deliver q size => cases h
  | remove ps => cases h
  | acknowledge q =>
    rw [outcome] at h
    split at h <;> cases h

theorem outcomes_eq_reconciled {op : Operation} {r : Reconciliation} {later : List Event}
    (h : f.outcomes (op :: ops) = .reconciled r :: later) :
    ∃ assigned, op = .reconcile assigned ∧ (f.reconcile assigned).1 = r ∧
      (f.reconcile assigned).2.outcomes ops = later := by
  rw [outcomes] at h
  obtain ⟨hfirst, hlater⟩ := List.cons.inj h
  obtain ⟨assigned, rfl, hdecided⟩ := outcome_eq_reconciled hfirst
  exact ⟨assigned, rfl, hdecided, hlater⟩

/-- Two decisions of a history, and flow control as each of them is made. -/
theorem exists_decisions {t : Thresholds} {before between rest : List Event}
    {first second : Reconciliation}
    (h : history t ops = before ++ .reconciled first :: (between ++ .reconciled second :: rest)) :
    ∃ (f g : FlowControl) (assigned : List Partition) (mid : List Operation)
      (again : List Partition), f.thresholds = t ∧ .reconcile assigned ∈ ops ∧ (∀ op ∈ mid, op ∈ ops) ∧
        .reconcile again ∈ ops ∧ (f.reconcile assigned).1 = first ∧
        (f.reconcile assigned).2.performAll? mid = some g ∧
        (f.reconcile assigned).2.outcomes mid = between ∧ (g.reconcile again).1 = second := by
  obtain ⟨past, op, after, f, rfl, hf, -, hfirst⟩ := outcomes_eq_append h
  obtain ⟨assigned, rfl, hdecided, hlater⟩ := outcomes_eq_reconciled hfirst
  obtain ⟨mid, op, later, g, rfl, hg, hbetween, hsecond⟩ := outcomes_eq_append hlater
  obtain ⟨again, rfl, hagain, -⟩ := outcomes_eq_reconciled hsecond
  exact ⟨f, g, assigned, mid, again, thresholds_after hf, by simp, fun op hop => by simp [hop],
    by simp, hdecided, hg, hbetween, hagain⟩

end Split

section Decided

variable {f : FlowControl} {ps : List Partition}

theorem mem_pause_iff (hn : ps.Nodup) :
    p ∈ (f.reconcile ps).1.pause ↔ p ∈ ps ∧ f.isPaused p = false ∧ f.shouldPause p = true := by
  simp [reconcile_eq f hn, mem_sort, pausing]

theorem mem_resume_iff (hn : ps.Nodup) :
    p ∈ (f.reconcile ps).1.resume ↔ p ∈ ps ∧ f.isPaused p = true ∧ f.shouldResume p = true := by
  simp [reconcile_eq f hn, mem_sort, resuming]

/-- A decision leaves alone what it was made from. -/
theorem shouldPause_reconcile : (f.reconcile ps).2.shouldPause p = f.shouldPause p := by
  rw [reconcile_frame]
  rfl

end Decided

section Apart

variable {t : Thresholds} {ops : List Operation} (hops : ∀ op ∈ ops, op.NamesOnce)
  (hapart : ¬t.Overlap)
include hops hapart

theorem resumed_by_acknowledgement : ResumedByAcknowledgement p (history t ops) := by
  intro before first between second rest hsplit hpause hresume
  obtain ⟨f, g, assigned, mid, again, rfl, hassigned, hmid, hagain, rfl, hg, rfl, rfl⟩ :=
    exists_decisions hsplit
  obtain ⟨-, -, hpause⟩ := (mem_pause_iff (hops _ hassigned)).1 hpause
  obtain ⟨-, hpaused, hresume⟩ := (mem_resume_iff (hops _ hagain)).1 hresume
  by_contra hack
  have hstart : PausedRightly p (f.reconcile assigned).2 :=
    fun _ => shouldPause_reconcile.trans hpause
  have hstill := hstart.performAll hg (fun op hop => hops op (hmid op hop)) hack hpaused
  have hthresholds : g.thresholds = f.thresholds := by
    rw [thresholds_performAll hg, reconcile_frame]
  rw [← hthresholds] at hapart
  rw [not_both hapart hstill] at hresume
  cases hresume

theorem paused_by_delivery : PausedByDelivery p (history t ops) := by
  intro before first between second rest hsplit hresume hpause
  obtain ⟨f, g, assigned, mid, again, rfl, hassigned, hmid, hagain, rfl, hg, rfl, rfl⟩ :=
    exists_decisions hsplit
  obtain ⟨-, -, hresume⟩ := (mem_resume_iff (hops _ hassigned)).1 hresume
  obtain ⟨-, -, hpause⟩ := (mem_pause_iff (hops _ hagain)).1 hpause
  by_contra hnone
  have hstart : (f.reconcile assigned).2.shouldPause p = false := by
    rw [shouldPause_reconcile, ← Bool.not_eq_true]
    intro hboth
    rw [not_both hapart hboth] at hresume
    cases hresume
  have hstill := not_shouldPause_performAll hg (not_exists.1 hnone) hstart
  rw [hstill] at hpause
  cases hpause

end Apart

/-- Between two removals a partition is paused and resumed in turn, beginning with a pause. If the
bands are apart, it takes an acknowledgement to resume it and a delivery to pause it again. -/
theorem switches_alternate (t : Thresholds) {ops : List Operation}
    (hops : ∀ assigned, .reconcile assigned ∈ ops → assigned.Nodup) (p : Partition) :
    (∀ segment ∈ (history t ops).splitOnP (Event.removes p),
        ∃ n, switches p segment = List.iterate Switch.other .pause n) ∧
      (t.resumeBytes < t.pauseBytes → t.resumeMessages < t.pauseMessages →
        ResumedByAcknowledgement p (history t ops) ∧ PausedByDelivery p (history t ops)) := by
  have hnames : ∀ op ∈ ops, op.NamesOnce := by
    intro op hop
    cases op with
    | reconcile assigned => exact hops assigned hop
    | deliver q size => exact trivial
    | acknowledge q => exact trivial
    | remove ps => exact trivial
  constructor
  · obtain ⟨first, rest, hsplit, hfirst, hrest⟩ :=
      alternate_outcomes (p := p) ({ thresholds := t } : FlowControl) hnames
    intro segment hsegment
    rw [history, hsplit] at hsegment
    rcases List.mem_cons.1 hsegment with rfl | hsegment
    · exact hfirst
    · exact hrest segment hsegment
  · intro hbytes hmessages
    have hapart := Thresholds.not_overlap_of_lt hbytes hmessages
    exact ⟨resumed_by_acknowledgement hnames hapart, paused_by_delivery hnames hapart⟩

def narrowBand : Thresholds where
  pauseMinMessages := 1
  pauseBytes := 100
  pauseMessages := 3
  resumeBytes := 10
  resumeMessages := 1

def twoOwnerships : List Operation :=
  [.deliver ⟨"t", 0⟩ 1, .deliver ⟨"t", 0⟩ 1, .deliver ⟨"t", 0⟩ 1, .reconcile [⟨"t", 0⟩, ⟨"t", 1⟩],
    .acknowledge ⟨"t", 0⟩, .acknowledge ⟨"t", 0⟩, .reconcile [⟨"t", 0⟩, ⟨"t", 1⟩],
    .deliver ⟨"t", 0⟩ 99, .reconcile [⟨"t", 0⟩], .remove [⟨"t", 0⟩], .reconcile [⟨"t", 1⟩],
    .deliver ⟨"t", 0⟩ 100, .reconcile [⟨"t", 0⟩]]

theorem switches_alternate_over_two_ownerships :
    let h := history narrowBand twoOwnerships
    (∀ assigned, .reconcile assigned ∈ twoOwnerships → assigned.Nodup) ∧
      (h.splitOnP (Event.removes ⟨"t", 0⟩)).map (switches ⟨"t", 0⟩) =
        [[.pause, .resume, .pause], [.pause]] ∧
      (∀ segment ∈ h.splitOnP (Event.removes ⟨"t", 0⟩),
        ∃ n, switches ⟨"t", 0⟩ segment = List.iterate Switch.other .pause n) ∧
      ResumedByAcknowledgement ⟨"t", 0⟩ h ∧ PausedByDelivery ⟨"t", 0⟩ h := by
  have hnodup : ∀ assigned, .reconcile assigned ∈ twoOwnerships → assigned.Nodup := by
    simp [twoOwnerships]
  have halternate := switches_alternate narrowBand hnodup ⟨"t", 0⟩
  exact ⟨hnodup, by decide +kernel, halternate.1, halternate.2 (by decide) (by decide)⟩

end FlowControl

end AckRelay
