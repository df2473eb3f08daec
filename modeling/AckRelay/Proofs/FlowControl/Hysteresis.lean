import AckRelay.Proofs.Config.Environment
import AckRelay.Proofs.FlowControl.History
import Mathlib.Algebra.BigOperators.Group.List.Basic
import Mathlib.Data.List.Nodup

/-!
Partitions are paused above one band of backlogs and resumed below another. Unless the bands overlap
(`Thresholds.Overlap`), no backlog ever asks for both, and a partition whose state has just changed
keeps it until records come or are acknowledged. The settings are loaded one by one, so that nothing
but their choice keeps the bands apart.
-/

namespace AckRelay

namespace Thresholds

variable {t : Thresholds} {pending bytes : Nat}

def PausesAt (t : Thresholds) (pending bytes : Nat) : Prop :=
  t.pauseMinMessages ≤ pending ∧ (t.pauseBytes ≤ bytes ∨ t.pauseMessages ≤ pending)

def ResumesAt (t : Thresholds) (pending bytes : Nat) : Prop :=
  pending < t.pauseMinMessages ∨ bytes ≤ t.resumeBytes ∧ pending ≤ t.resumeMessages

/-- Some backlog is in both bands. It holds a record unless it has no bytes. -/
def Overlap (t : Thresholds) : Prop :=
  t.pauseMinMessages ≤ t.resumeMessages ∧
    (t.pauseMessages ≤ t.resumeMessages ∨
      t.pauseBytes ≤ t.resumeBytes ∧ (0 < t.resumeMessages ∨ t.pauseBytes = 0))

instance (t : Thresholds) : Decidable t.Overlap := by
  unfold Overlap
  infer_instance

theorem resumesAt_nothing (t : Thresholds) : t.ResumesAt 0 0 := by
  rw [ResumesAt]
  omega

theorem overlap_of_both (hnothing : pending = 0 → bytes = 0) (hpause : t.PausesAt pending bytes)
    (hresume : t.ResumesAt pending bytes) : t.Overlap := by
  rw [PausesAt] at hpause
  rw [ResumesAt] at hresume
  rw [Overlap]
  omega

theorem both_of_overlap (h : t.Overlap) :
    ∃ pending bytes, (pending = 0 → bytes = 0) ∧ bytes ≤ t.pauseBytes ∧
      t.PausesAt pending bytes ∧ t.ResumesAt pending bytes := by
  simp only [PausesAt, ResumesAt]
  obtain ⟨hmin, hmessages | ⟨hbytes, hsome⟩⟩ := h
  · exact ⟨max t.pauseMinMessages t.pauseMessages, 0, by omega, by omega, by omega, by omega⟩
  · exact ⟨max t.pauseMinMessages (min 1 t.pauseBytes), t.pauseBytes, by omega, by omega, by omega,
      by omega⟩

end Thresholds

def Reconciliation.changed (r : Reconciliation) : List Partition := r.pause ++ r.resume

namespace FlowControl

variable {f : FlowControl} {p : Partition} {ps : List Partition}

theorem shouldPause_iff :
    f.shouldPause p = true ↔ f.thresholds.PausesAt (f.pending p) (f.pendingBytes p) := by
  simp [shouldPause, Thresholds.PausesAt]

theorem shouldResume_iff :
    f.shouldResume p = true ↔ f.thresholds.ResumesAt (f.pending p) (f.pendingBytes p) := by
  simp [shouldResume, Thresholds.ResumesAt]

/-- Unless the bands overlap no state of a partition asks for both. -/
theorem not_both (ht : ¬f.thresholds.Overlap) (hpause : f.shouldPause p = true) :
    f.shouldResume p = false := by
  rw [← Bool.not_eq_true]
  intro hresume
  exact ht (Thresholds.overlap_of_both pendingBytes_eq_zero (shouldPause_iff.1 hpause)
    (shouldResume_iff.1 hresume))

section Load

/-- Deliveries of one partition that fit into a word together line up in its queue. -/
theorem exists_deliveries (f : FlowControl) (p : Partition) {sizes : List UInt64}
    (hfits : Backlog.total (f.sizes p ++ sizes) < UInt64.size) :
    ∃ g, f.performAll? (sizes.map (.deliver p)) = some g ∧ g.sizes p = f.sizes p ++ sizes ∧
      g.paused = f.paused := by
  induction sizes generalizing f with
  | nil => exact ⟨f, rfl, (List.append_nil _).symm, rfl⟩
  | cons size sizes ih =>
    have hsplit : f.sizes p ++ size :: sizes = (f.sizes p ++ [size]) ++ sizes := by simp
    have hroom : Backlog.total (f.sizes p) + size.toNat < UInt64.size := by
      rw [hsplit, Backlog.total_append, Backlog.total_concat] at hfits
      exact Nat.lt_of_le_of_lt (Nat.le_add_right _ _) hfits
    obtain ⟨next, hnext⟩ := exists_deliver_iff.2 hroom
    have hsizes : next.sizes p = f.sizes p ++ [size] := by rw [sizes_deliver hnext, if_pos rfl]
    rw [hsplit, ← hsizes] at hfits ⊢
    obtain ⟨g, hg, hqueue, hpaused⟩ := ih next hfits
    exact ⟨g, performAll?_cons.2 ⟨next, hnext, hg⟩, hqueue, hpaused.trans (deliver_eq hnext).2⟩

theorem total_empty_records (n : Nat) : Backlog.total (List.replicate n 0) = 0 := by
  induction n with
  | zero => rfl
  | succ n ih => rw [List.replicate_succ, Backlog.total_cons, ih, UInt64.toNat_zero]

/-- Any backlog comes about while the partition is not paused, if it holds a record or no bytes. -/
theorem exists_backlog (t : Thresholds) (p : Partition) {n bytes : Nat}
    (hnothing : n = 0 → bytes = 0) (hfits : bytes < UInt64.size) :
    ∃ ops f, after? t ops = some f ∧ f.pending p = n ∧ f.pendingBytes p = bytes ∧
      f.isPaused p = false := by
  have hsizes : ∃ sizes : List UInt64, sizes.length = n ∧ Backlog.total sizes = bytes := by
    cases n with
    | zero => exact ⟨[], rfl, (hnothing rfl).symm⟩
    | succ n =>
      refine ⟨UInt64.ofNat bytes :: List.replicate n 0, by simp, ?_⟩
      rw [Backlog.total_cons, total_empty_records, Nat.add_zero, UInt64.toNat_ofNat_of_lt' hfits]
  obtain ⟨sizes, hlength, htotal⟩ := hsizes
  have hroom : Backlog.total ([] ++ sizes) < UInt64.size := by rwa [List.nil_append, htotal]
  obtain ⟨f, hf, hqueue, hpaused⟩ := exists_deliveries { thresholds := t } p hroom
  have hsame : f.sizes p = sizes := hqueue
  refine ⟨_, f, hf, ?_, ?_, ?_⟩
  · rw [pending_eq_length, hsame, hlength]
  · rw [pendingBytes_eq_total, hsame, htotal]
  · rw [isPaused, hpaused]
    rfl

end Load

section Twice

theorem isPaused_of_reconcile (f : FlowControl) (hn : ps.Nodup) (hp : p ∈ ps) :
    (f.reconcile ps).2.isPaused p = (f.pausing p || (f.isPaused p && !f.resuming p)) := by
  have hmem : ∀ decision : Partition → Bool, p ∈ ps.filter decision ↔ decision p = true := by
    intro decision
    rw [List.mem_filter, and_iff_right hp]
  rw [reconcile_eq f hn, isPaused_iff, get?_repause]
  simp only [hmem]
  cases hpaused : f.isPaused p with
  | true =>
    have hpausing : f.pausing p = false := by simp [pausing, hpaused]
    rw [isPaused_iff] at hpaused
    cases f.resuming p <;> simp [hpausing, hpaused]
  | false =>
    have hresuming : f.resuming p = false := by simp [resuming, hpaused]
    rw [isPaused_iff] at hpaused
    cases f.pausing p <;> simp [hresuming, hpaused]

theorem mem_changed (f : FlowControl) (hn : ps.Nodup) :
    p ∈ (f.reconcile ps).1.changed ↔ p ∈ ps ∧ (f.pausing p = true ∨ f.resuming p = true) := by
  simp only [Reconciliation.changed, reconcile_eq f hn, List.mem_append, mem_sort,
    List.mem_reverse, List.mem_filter]
  tauto

theorem nodup_sort {l : List Partition} (h : l.Nodup) : (Partition.sort l).Nodup :=
  (List.mergeSort_perm l _).nodup_iff.2 h

theorem nodup_changed (f : FlowControl) (hn : ps.Nodup) : (f.reconcile ps).1.changed.Nodup := by
  rw [reconcile_eq f hn]
  have hnodup : ∀ decision : Partition → Bool, (Partition.sort (ps.filter decision).reverse).Nodup :=
    fun decision => nodup_sort (List.nodup_reverse.2 (hn.filter decision))
  refine List.nodup_append.2 ⟨hnodup _, hnodup _, fun p hpause q hresume hpq => ?_⟩
  subst hpq
  rw [mem_sort, List.mem_reverse, List.mem_filter] at hpause hresume
  simp only [pausing, resuming, Bool.and_eq_true, Bool.not_eq_true'] at hpause hresume
  rw [hpause.2.1] at hresume
  cases hresume.2.1

def removeEach (f : FlowControl) (gone : List (List Partition)) : FlowControl :=
  gone.foldl (fun f ps => f.remove ps) f

theorem thresholds_removeEach (f : FlowControl) (gone : List (List Partition)) :
    (f.removeEach gone).thresholds = f.thresholds := by
  induction gone generalizing f with
  | nil => rfl
  | cons ps gone ih => exact (ih (f.remove ps)).trans (thresholds_remove f ps)

/-- A partition that is removed meanwhile is as at the start, and another one as it was. -/
theorem removed_or_kept (f : FlowControl) (p : Partition) (gone : List (List Partition)) :
    let g := f.removeEach gone
    (g.sizes p = [] ∧ g.isPaused p = false) ∨
      g.sizes p = f.sizes p ∧ g.isPaused p = f.isPaused p := by
  induction gone generalizing f with
  | nil => exact Or.inr ⟨rfl, rfl⟩
  | cons ps gone ih =>
    have hpaused : (f.remove ps).isPaused p = if p ∈ ps then false else f.isPaused p := by
      rw [isPaused_iff, paused_remove, PartitionMap.get?_foldl_erase]
      split <;> rfl
    have hsizes := sizes_remove f p ps
    rcases ih (f.remove ps) with hremoved | ⟨hqueue, hkept⟩
    · exact Or.inl hremoved
    · by_cases hp : p ∈ ps
      · rw [if_pos hp] at hpaused hsizes
        exact Or.inl ⟨hqueue.trans hsizes, hkept.trans hpaused⟩
      · rw [if_neg hp] at hpaused hsizes
        exact Or.inr ⟨hqueue.trans hsizes, hkept.trans hpaused⟩

/-- A partition that has just changed its state does not change it again, as long as no record comes
or is acknowledged. -/
theorem not_changed_again (ht : ¬f.thresholds.Overlap) (hn : ps.Nodup)
    (gone : List (List Partition)) (h : p ∈ (f.reconcile ps).1.changed) :
    p ∉ (((f.reconcile ps).2.removeEach gone).reconcile ps).1.changed := by
  obtain ⟨hp, hchange⟩ := (mem_changed f hn).1 h
  have hpaused := isPaused_of_reconcile f hn hp
  have hsame := removed_or_kept (f.reconcile ps).2 p gone
  have hqueue : (f.reconcile ps).2.sizes p = f.sizes p := sizes_reconcile f p ps
  have hthresholds : ((f.reconcile ps).2.removeEach gone).thresholds = f.thresholds := by
    rw [thresholds_removeEach, reconcile_frame]
  rw [hqueue] at hsame
  generalize (f.reconcile ps).2.removeEach gone = g at hsame hthresholds ⊢
  rw [mem_changed g hn, and_iff_right hp]
  rw [← hthresholds] at ht
  rcases hsame with ⟨hnone, hfree⟩ | ⟨hsizes, hkept⟩
  · have hresume : g.shouldResume p = true := by
      rw [shouldResume_iff, pending_eq_length, pendingBytes_eq_total, hnone]
      exact Thresholds.resumesAt_nothing _
    have hpause : g.shouldPause p = false := by
      rw [← Bool.not_eq_true]
      intro hpause
      rw [not_both ht hpause] at hresume
      cases hresume
    simp [pausing, resuming, hfree, hpause]
  · have hpause : g.shouldPause p = f.shouldPause p := by
      rw [Bool.eq_iff_iff, shouldPause_iff, shouldPause_iff, hthresholds]
      simp only [pending_eq_length, pendingBytes_eq_total, hsizes]
    have hresume : g.shouldResume p = f.shouldResume p := by
      rw [Bool.eq_iff_iff, shouldResume_iff, shouldResume_iff, hthresholds]
      simp only [pending_eq_length, pendingBytes_eq_total, hsizes]
    have hexclusive := not_both (p := p) ht
    simp only [pausing, resuming, hkept, hpaused, hpause, hresume] at hchange hexclusive ⊢
    grind

end Twice

end FlowControl

namespace Thresholds

variable {t : Thresholds}

/-- Whatever is delivered, acknowledged, removed and decided, no partition is ever one that has to
be paused and one that can go on. -/
def NeverBoth (t : Thresholds) : Prop :=
  ∀ (ops : List FlowControl.Operation) (f : FlowControl), FlowControl.after? t ops = some f →
    ∀ p, ¬(f.shouldPause p = true ∧ f.shouldResume p = true)

/-- Two decisions about the same partitions, with no record delivered or acknowledged between them,
change the state of none of them twice. -/
def NeverFlaps (t : Thresholds) : Prop :=
  ∀ (ops : List FlowControl.Operation) (f : FlowControl), FlowControl.after? t ops = some f →
    ∀ (ps : List Partition) (gone : List (List Partition)), ps.Nodup →
      let first := f.reconcile ps
      let second := (first.2.removeEach gone).reconcile ps
      (first.1.changed ++ second.1.changed).Nodup

theorem neverBoth_of_apart (h : ¬t.Overlap) : t.NeverBoth := by
  intro ops f hf p hboth
  rw [← FlowControl.thresholds_after hf] at h
  rw [FlowControl.not_both h hboth.1] at hboth
  cases hboth.2

theorem neverFlaps_of_apart (h : ¬t.Overlap) : t.NeverFlaps := by
  intro ops f hf ps gone hn
  rw [← FlowControl.thresholds_after hf] at h
  refine List.nodup_append.2 ⟨FlowControl.nodup_changed _ hn, FlowControl.nodup_changed _ hn, ?_⟩
  rintro p hfirst q hsecond rfl
  exact FlowControl.not_changed_again h hn gone hfirst hsecond

/-- If the bands overlap, a backlog in both comes about. -/
theorem both_of_fits (hfits : t.Fits) (h : t.Overlap) (p : Partition) :
    ∃ ops f, FlowControl.after? t ops = some f ∧ f.shouldPause p = true ∧
      f.shouldResume p = true ∧ f.isPaused p = false := by
  obtain ⟨n, bytes, hnothing, hbytes, hpauses, hresumes⟩ := both_of_overlap h
  have hsize : bytes < UInt64.size := Nat.lt_of_le_of_lt hbytes hfits.pauseBytes
  obtain ⟨ops, f, hf, hn, hb, hunpaused⟩ := FlowControl.exists_backlog t p hnothing hsize
  refine ⟨ops, f, hf, ?_, ?_, hunpaused⟩
  · rw [FlowControl.shouldPause_iff, FlowControl.thresholds_after hf, hn, hb]
    exact hpauses
  · rw [FlowControl.shouldResume_iff, FlowControl.thresholds_after hf, hn, hb]
    exact hresumes

theorem not_neverFlaps_of_both {ops : List FlowControl.Operation} {f : FlowControl}
    {p : Partition} (hf : FlowControl.after? t ops = some f) (hpause : f.shouldPause p = true)
    (hresume : f.shouldResume p = true) (hunpaused : f.isPaused p = false) : ¬t.NeverFlaps := by
  intro h
  have hone : [p].Nodup := List.nodup_singleton p
  have hnodup := h ops f hf [p] [] hone
  have hfirst : p ∈ (f.reconcile [p]).1.changed := by
    rw [FlowControl.mem_changed _ hone]
    simp [FlowControl.pausing, hunpaused, hpause]
  have hpaused := FlowControl.isPaused_of_reconcile f hone (List.mem_singleton_self p)
  rw [FlowControl.pausing, hunpaused, hpause] at hpaused
  have hagain : (f.reconcile [p]).2.shouldResume p = true := by
    rw [FlowControl.reconcile_frame]
    exact hresume
  have hsecond : p ∈ ((f.reconcile [p]).2.reconcile [p]).1.changed := by
    rw [FlowControl.mem_changed _ hone]
    simp [FlowControl.resuming, hpaused, hagain]
  exact (List.nodup_append.1 hnodup).2.2 p hfirst p hsecond rfl

end Thresholds

/-- The accepted settings whose thresholds form a band are those whose thresholds do not overlap. -/
theorem Settings.thresholds_form_a_band_iff {env : Environment} {s : Settings}
    (h : Settings.load env = .ok s) :
    (s.relaySettings.thresholds.NeverBoth ↔ ¬s.relaySettings.thresholds.Overlap) ∧
      (s.relaySettings.thresholds.NeverFlaps ↔ ¬s.relaySettings.thresholds.Overlap) := by
  have hfits := Thresholds.fits_of_load (Settings.thresholds_of_load h)
  constructor
  · refine ⟨fun hnever hoverlap => ?_, Thresholds.neverBoth_of_apart⟩
    obtain ⟨ops, f, hf, hpause, hresume, -⟩ := Thresholds.both_of_fits hfits hoverlap ⟨"", 0⟩
    exact hnever ops f hf ⟨"", 0⟩ ⟨hpause, hresume⟩
  · refine ⟨fun hnever hoverlap => ?_, Thresholds.neverFlaps_of_apart⟩
    obtain ⟨ops, f, hf, hpause, hresume, hunpaused⟩ :=
      Thresholds.both_of_fits hfits hoverlap ⟨"", 0⟩
    exact Thresholds.not_neverFlaps_of_both hf hpause hresume hunpaused hnever

/-- With the standard thresholds there is a band. -/
theorem Settings.standard_thresholds_form_a_band :
    ∃ s, Settings.load (fun name => if name = "KAFKA_CONSUMER_TOPICS" then some "t" else none) =
        .ok s ∧ s.relaySettings.thresholds.NeverBoth ∧ s.relaySettings.thresholds.NeverFlaps := by
  have hload : ∃ s, Settings.load
      (fun name => if name = "KAFKA_CONSUMER_TOPICS" then some "t" else none) = .ok s := ⟨_, rfl⟩
  obtain ⟨s, hs⟩ := hload
  have hiff := Settings.thresholds_form_a_band_iff hs
  have hapart : ¬s.relaySettings.thresholds.Overlap := by
    cases hs
    decide
  exact ⟨s, hs, hiff.1.2 hapart, hiff.2.2 hapart⟩

def pausesAtTwo : Environment
  | "KAFKA_CONSUMER_TOPICS" => some "t"
  | "BACKPRESSURE_PAUSE_MESSAGES" => some "2"
  | _ => none

/-- Two records have the partition paused and resumed at once. -/
theorem Settings.low_pause_threshold_flaps :
    ∃ s, Settings.load pausesAtTwo = .ok s ∧ ¬s.relaySettings.thresholds.NeverBoth ∧
      ¬s.relaySettings.thresholds.NeverFlaps := by
  have hload : ∃ s, Settings.load pausesAtTwo = .ok s ∧
      s.relaySettings.thresholds = { pauseMessages := 2 } := ⟨_, rfl, rfl⟩
  obtain ⟨s, hs, ht⟩ := hload
  have hrun : ∃ f, FlowControl.after? { pauseMessages := 2 }
      [.deliver ⟨"t", 0⟩ 0, .deliver ⟨"t", 0⟩ 0] = some f ∧ f.shouldPause ⟨"t", 0⟩ = true ∧
        f.shouldResume ⟨"t", 0⟩ = true ∧ f.isPaused ⟨"t", 0⟩ = false :=
    ⟨_, rfl, by decide, by decide, by decide⟩
  obtain ⟨f, hf, hpause, hresume, hunpaused⟩ := hrun
  refine ⟨s, hs, fun h => ?_, ?_⟩
  · rw [ht] at h
    exact h _ f hf _ ⟨hpause, hresume⟩
  · rw [ht]
    exact Thresholds.not_neverFlaps_of_both hf hpause hresume hunpaused

end AckRelay
