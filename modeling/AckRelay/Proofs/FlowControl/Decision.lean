import AckRelay.Proofs.FlowControl.Alternation
import Mathlib.Data.List.Basic

/-!
What a decision about distinct partitions comes to. Each of them is paused or resumed by its own
state, in ascending order, and nothing else changes (`Decides`); in which order the partitions are
listed makes no difference.
-/

namespace AckRelay

namespace Partition

variable {a b c : Partition} {ps qs : List Partition}

theorem le_trans (hab : a ≤ b) (hbc : b ≤ c) : a ≤ c := by
  intro hca
  rcases lt_trichotomy a b with h | rfl | h
  · exact hbc (lt_trans hca h)
  · exact hbc hca
  · exact hab h

theorem le_total (a b : Partition) : a ≤ b ∨ b ≤ a := by
  rcases lt_trichotomy a b with h | rfl | h
  · exact Or.inl (lt_asymm h)
  · exact Or.inl (lt_irrefl a)
  · exact Or.inr (lt_asymm h)

theorem lt_of_le_of_ne (hab : a ≤ b) (hne : a ≠ b) : a < b := by
  rcases lt_trichotomy a b with h | h | h
  · exact h
  · exact absurd h hne
  · exact absurd h hab

theorem le_antisymm (hab : a ≤ b) (hba : b ≤ a) : a = b := by
  by_contra hne
  exact hba (lt_of_le_of_ne hab hne)

theorem pairwise_le_sort (ps : List Partition) : (sort ps).Pairwise (· ≤ ·) := by
  have hsorted : (sort ps).Pairwise fun a b => decide (a ≤ b) = true := by
    refine List.pairwise_mergeSort (fun a b c hab hbc => ?_) (fun a b => ?_) ps
    · exact decide_eq_true (le_trans (of_decide_eq_true hab) (of_decide_eq_true hbc))
    · simpa using le_total a b
  exact hsorted.imp of_decide_eq_true

/-- Without repetition the order is strict. -/
theorem pairwise_lt_sort (hn : ps.Nodup) : (sort ps).Pairwise (· < ·) :=
  (pairwise_le_sort ps).imp₂ (fun _ _ => lt_of_le_of_ne) (FlowControl.nodup_sort hn)

theorem sort_eq_of_perm (h : ps.Perm qs) : sort ps = sort qs := by
  have hperm : (sort ps).Perm (sort qs) :=
    (List.mergeSort_perm ps _).trans (h.trans (List.mergeSort_perm qs _).symm)
  exact hperm.eq_of_pairwise (fun _ _ _ _ => le_antisymm) (pairwise_le_sort ps)
    (pairwise_le_sort qs)

end Partition

namespace FlowControl

variable {f g : FlowControl} {ps qs : List Partition} {r : Reconciliation}

structure Decides (ps : List Partition) (f : FlowControl) (r : Reconciliation) (g : FlowControl) :
    Prop where
  mem_pause : ∀ p, p ∈ r.pause ↔ p ∈ ps ∧ f.isPaused p = false ∧ f.shouldPause p = true
  mem_resume : ∀ p, p ∈ r.resume ↔ p ∈ ps ∧ f.isPaused p = true ∧ f.shouldResume p = true
  pause_ascends : r.pause.Pairwise (· < ·)
  resume_ascends : r.resume.Pairwise (· < ·)
  disjoint : r.pause.Disjoint r.resume
  isPaused_iff : ∀ p, g.isPaused p = true ↔ (f.isPaused p = true ∨ p ∈ r.pause) ∧ p ∉ r.resume
  kept : ∀ p ∉ ps, g.isPaused p = f.isPaused p
  backlogs : g.backlogs = f.backlogs
  released : g.released = f.released
  thresholds : g.thresholds = f.thresholds

theorem isPaused_reconcile_iff (f : FlowControl) (hn : ps.Nodup) (p : Partition) :
    (f.reconcile ps).2.isPaused p = true ↔
      (f.isPaused p = true ∨ p ∈ (f.reconcile ps).1.pause) ∧ p ∉ (f.reconcile ps).1.resume := by
  rw [isPaused_iff, ← repause_decided f hn f.paused rfl, get?_repause, isPaused_iff]
  by_cases hresume : p ∈ (f.reconcile ps).1.resume
  · simp [hresume]
  · by_cases hpause : p ∈ (f.reconcile ps).1.pause
    · simp [hresume, hpause]
    · simp [hresume, hpause]

theorem decides_reconcile (f : FlowControl) (hn : ps.Nodup) :
    Decides ps f (f.reconcile ps).1 (f.reconcile ps).2 := by
  have hframe := reconcile_frame f ps
  have hlists := congrArg Prod.fst (reconcile_eq f hn)
  refine ⟨fun p => mem_pause_iff hn, fun p => mem_resume_iff hn, ?_, ?_, ?_,
    isPaused_reconcile_iff f hn, ?_, ?_, ?_, ?_⟩
  · rw [hlists]
    exact Partition.pairwise_lt_sort (List.nodup_reverse.2 (hn.filter f.pausing))
  · rw [hlists]
    exact Partition.pairwise_lt_sort (List.nodup_reverse.2 (hn.filter f.resuming))
  · intro p hpause hresume
    obtain ⟨-, hfree, -⟩ := (mem_pause_iff hn).1 hpause
    obtain ⟨-, hpaused, -⟩ := (mem_resume_iff hn).1 hresume
    rw [hfree] at hpaused
    cases hpaused
  · intro p hp
    have hpause : p ∉ (f.reconcile ps).1.pause := fun h => hp ((mem_pause_iff hn).1 h).1
    have hresume : p ∉ (f.reconcile ps).1.resume := fun h => hp ((mem_resume_iff hn).1 h).1
    rw [Bool.eq_iff_iff, isPaused_reconcile_iff f hn]
    simp [hpause, hresume]
  · rw [hframe]
  · rw [hframe]
  · rw [hframe]

theorem repause_congr {pause pause' resume resume' : List Partition} (paused : PartitionSet)
    (hpause : ∀ p, p ∈ pause ↔ p ∈ pause') (hresume : ∀ p, p ∈ resume ↔ p ∈ resume') :
    repause pause resume paused = repause pause' resume' paused := by
  refine PartitionMap.ext_get? fun q => ?_
  simp only [get?_repause, hpause, hresume]

theorem reconcile_perm (f : FlowControl) (hn : ps.Nodup) (h : qs.Perm ps) :
    f.reconcile qs = f.reconcile ps := by
  have hfilter (decision : Partition → Bool) : (qs.filter decision).Perm (ps.filter decision) :=
    h.filter decision
  have hsort (decision : Partition → Bool) :
      Partition.sort (qs.filter decision).reverse = Partition.sort (ps.filter decision).reverse :=
    Partition.sort_eq_of_perm
      ((List.reverse_perm _).trans ((hfilter decision).trans (List.reverse_perm _).symm))
  have hpaused : repause (qs.filter f.pausing) (qs.filter f.resuming) f.paused =
      repause (ps.filter f.pausing) (ps.filter f.resuming) f.paused :=
    repause_congr f.paused (fun _ => (hfilter f.pausing).mem_iff)
      fun _ => (hfilter f.resuming).mem_iff
  rw [reconcile_eq f (h.nodup_iff.2 hn), reconcile_eq f hn, hsort, hsort, hpaused]

/-- Whatever the state and the thresholds are, each of distinct partitions is decided by its own
state, and their order makes no difference. -/
theorem decisions_are_made_apart (f : FlowControl) (hn : ps.Nodup) :
    Decides ps f (f.reconcile ps).1 (f.reconcile ps).2 ∧
      ∀ qs, qs.Perm ps → f.reconcile qs = f.reconcile ps :=
  ⟨decides_reconcile f hn, fun _ => reconcile_perm f hn⟩

def oneDrained : List Operation :=
  [.deliver ⟨"t", 1⟩ 1, .deliver ⟨"t", 1⟩ 1000000, .reconcile [⟨"t", 1⟩],
    .acknowledge ⟨"t", 1⟩, .acknowledge ⟨"t", 1⟩,
    .deliver ⟨"t", 0⟩ 1, .deliver ⟨"t", 0⟩ 1000000,
    .deliver ⟨"t", 2⟩ 1, .deliver ⟨"t", 2⟩ 1000000,
    .deliver ⟨"s", 7⟩ 1, .deliver ⟨"s", 7⟩ 1000000]

theorem decisions_are_made_apart_of_three :
    let ps : List Partition := [⟨"t", 2⟩, ⟨"t", 1⟩, ⟨"t", 0⟩]
    ps.Nodup ∧ ∃ f, after? {} oneDrained = some f ∧
      Decides ps f (f.reconcile ps).1 (f.reconcile ps).2 ∧
      ⟨"t", 0⟩ ∈ (f.reconcile ps).1.pause ∧ ⟨"t", 1⟩ ∈ (f.reconcile ps).1.resume ∧
      ⟨"s", 7⟩ ∉ (f.reconcile ps).1.pause ∧
      f.reconcile [⟨"t", 0⟩, ⟨"t", 1⟩, ⟨"t", 2⟩] = f.reconcile ps := by
  intro ps
  have hn : ps.Nodup := by decide
  have hperm : [(⟨"t", 0⟩ : Partition), ⟨"t", 1⟩, ⟨"t", 2⟩].Perm ps := by decide
  have hstate : ∃ f, after? {} oneDrained = some f ∧
      (f.isPaused ⟨"t", 0⟩ = false ∧ f.shouldPause ⟨"t", 0⟩ = true) ∧
      f.isPaused ⟨"t", 1⟩ = true ∧ f.shouldResume ⟨"t", 1⟩ = true :=
    ⟨_, rfl, by decide, by decide⟩
  obtain ⟨f, hf, hpauses, hresumes⟩ := hstate
  obtain ⟨hdecides, horder⟩ := decisions_are_made_apart f hn
  refine ⟨hn, f, hf, hdecides, ?_, ?_, ?_, horder _ hperm⟩
  · exact (hdecides.mem_pause _).2 ⟨by decide, hpauses⟩
  · exact (hdecides.mem_resume _).2 ⟨by decide, hresumes⟩
  · exact fun h => absurd ((hdecides.mem_pause _).1 h).1 (by decide)

end FlowControl

end AckRelay
