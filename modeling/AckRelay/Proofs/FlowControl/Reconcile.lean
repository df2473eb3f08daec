import AckRelay.Proofs.FlowControl.Steps

/-!
What is decided about pauses. Over partitions without repetition the decisions do not depend on each
other: each partition is paused or resumed by its own state (`reconcile_eq`), and pausing and
resuming what was decided makes of any set of paused partitions what flow control makes of its own.
-/

namespace AckRelay.FlowControl

variable (f : FlowControl) {p q : Partition} {ps : List Partition}

def pausing (p : Partition) : Bool := !f.isPaused p && f.shouldPause p

def resuming (p : Partition) : Bool := f.isPaused p && f.shouldResume p

def repause (pause resume : List Partition) (paused : PartitionSet) : PartitionSet :=
  resume.foldl PartitionMap.erase (pause.foldl (fun m p => m.insert p ()) paused)

theorem get?_repause (pause resume : List Partition) (paused : PartitionSet) (q : Partition) :
    (repause pause resume paused).get? q =
      if q ∈ resume then none else if q ∈ pause then some () else paused.get? q := by
  rw [repause, PartitionMap.get?_foldl_erase, PartitionMap.get?_foldl_insert]

/-- The pause state of one partition does not matter for the others. -/
theorem filter_paused_congr {paused : PartitionSet} (hp : p ∉ ps)
    (hsame : ∀ q, q ≠ p → paused.get? q = f.paused.get? q) :
    ps.filter ({ f with paused } : FlowControl).pausing = ps.filter f.pausing ∧
      ps.filter ({ f with paused } : FlowControl).resuming = ps.filter f.resuming := by
  have hpaused : ∀ q ∈ ps, ({ f with paused } : FlowControl).isPaused q = f.isPaused q := by
    intro q hq
    rw [isPaused_iff, isPaused_iff, hsame q (fun h => hp (h ▸ hq))]
  constructor
  · refine List.filter_congr fun q hq => ?_
    rw [pausing, pausing, hpaused q hq]
    rfl
  · refine List.filter_congr fun q hq => ?_
    rw [resuming, resuming, hpaused q hq]
    rfl

theorem decideEach_eq (hn : ps.Nodup) (r : Reconciliation) :
    decideEach ps r f =
      (⟨(ps.filter f.pausing).reverse ++ r.pause, (ps.filter f.resuming).reverse ++ r.resume⟩,
        { f with paused := repause (ps.filter f.pausing) (ps.filter f.resuming) f.paused }) := by
  -- by induction on the list: what is decided about the first partition changes only its own pause
  -- state, and the partition does not come again
  induction ps generalizing f r with
  | nil => rfl
  | cons p ps ih =>
    obtain ⟨hp, hn⟩ := List.nodup_cons.1 hn
    have hnp : p ∉ ps.filter f.pausing := fun h => hp (List.mem_filter.1 h).1
    rw [decideEach]
    split
    · next hpaused =>
      have hpausing : f.pausing p = false := by simp [pausing, hpaused]
      split
      · next hresume =>
        have hresuming : f.resuming p = true := by simp [resuming, hpaused, hresume]
        have hsame : ∀ q, q ≠ p → (f.paused.erase p).get? q = f.paused.get? q := by
          intro q hq
          rw [PartitionMap.get?_erase, if_neg hq.symm]
        obtain ⟨hfp, hfr⟩ := filter_paused_congr f hp hsame
        rw [ih _ hn, hfp, hfr]
        simp only [List.filter_cons, hpausing, hresuming, Bool.false_eq_true, ↓reduceIte,
          List.reverse_cons, List.append_assoc, List.singleton_append, Prod.mk.injEq, true_and]
        congr 1
        refine PartitionMap.ext_get? fun q => ?_
        simp only [get?_repause, PartitionMap.get?_erase, List.mem_cons]
        by_cases hq : p = q
        · subst hq
          simp [hnp]
        · simp [hq, Ne.symm hq]
      · next hresume =>
        have hresuming : f.resuming p = false := by simp [resuming, hresume]
        rw [ih _ hn]
        simp only [List.filter_cons, hpausing, hresuming, Bool.false_eq_true, ↓reduceIte]
    · next hpaused =>
      have hresuming : f.resuming p = false := by simp [resuming, hpaused]
      have hnr : p ∉ ps.filter f.resuming := fun h => hp (List.mem_filter.1 h).1
      split
      · next hpause =>
        have hpausing : f.pausing p = true := by simp [pausing, hpaused, hpause]
        have hsame : ∀ q, q ≠ p → (f.paused.insert p ()).get? q = f.paused.get? q := by
          intro q hq
          rw [PartitionMap.get?_insert, if_neg hq.symm]
        obtain ⟨hfp, hfr⟩ := filter_paused_congr f hp hsame
        rw [ih _ hn, hfp, hfr]
        simp only [List.filter_cons, hpausing, hresuming, Bool.false_eq_true, ↓reduceIte,
          List.reverse_cons, List.append_assoc, List.singleton_append, Prod.mk.injEq, true_and]
        congr 1
      · next hpause =>
        have hpausing : f.pausing p = false := by simp [pausing, hpause]
        rw [ih _ hn]
        simp only [List.filter_cons, hpausing, hresuming, Bool.false_eq_true, ↓reduceIte]

theorem reconcile_eq (hn : ps.Nodup) :
    f.reconcile ps =
      (⟨Partition.sort (ps.filter f.pausing).reverse, Partition.sort (ps.filter f.resuming).reverse⟩,
        { f with paused := repause (ps.filter f.pausing) (ps.filter f.resuming) f.paused }) := by
  rw [reconcile, decideEach_eq f hn]
  simp only [List.append_nil]

theorem mem_sort {l : List Partition} : p ∈ Partition.sort l ↔ p ∈ l := List.mem_mergeSort

/-- Pausing and resuming what was decided makes of the same set the same set. -/
theorem repause_decided (hn : ps.Nodup) (paused : PartitionSet) (h : paused = f.paused) :
    repause (f.reconcile ps).1.pause (f.reconcile ps).1.resume paused =
      (f.reconcile ps).2.paused := by
  rw [h, reconcile_eq f hn]
  refine PartitionMap.ext_get? fun q => ?_
  simp only [get?_repause, mem_sort, List.mem_reverse]

/-- The decisions change nothing but which partitions are paused, whatever they are made about. -/
theorem decideEach_frame (ps : List Partition) (r : Reconciliation) :
    (decideEach ps r f).2 = { f with paused := (decideEach ps r f).2.paused } := by
  -- no repetition is excluded here, so that it holds of any assignment
  induction ps generalizing f r with
  | nil => rfl
  | cons p ps ih =>
    rw [decideEach]
    split
    · split
      · exact ih _ _
      · exact ih _ _
    · split
      · exact ih _ _
      · exact ih _ _

theorem reconcile_frame (ps : List Partition) :
    (f.reconcile ps).2 = { f with paused := (f.reconcile ps).2.paused } :=
  decideEach_frame f ps ⟨[], []⟩

theorem sizes_reconcile (q : Partition) (ps : List Partition) :
    (f.reconcile ps).2.sizes q = f.sizes q := by
  rw [reconcile_frame]
  rfl

/-- A partition that should be paused and should not be resumed is paused after the decision. -/
theorem isPaused_reconcile (hn : ps.Nodup) (hp : p ∈ ps) (hpause : f.shouldPause p = true)
    (hresume : f.shouldResume p = false) : (f.reconcile ps).2.isPaused p = true := by
  rw [reconcile_eq f hn, isPaused_iff, get?_repause, if_neg (by simp [resuming, hresume])]
  split
  · rfl
  · next hnot =>
    have hpaused : f.isPaused p = true := by
      simpa [pausing, hp, hpause] using hnot
    exact hpaused

end AckRelay.FlowControl
