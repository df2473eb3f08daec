import AckRelay.Proofs.FlowControl.Alternation

namespace AckRelay

/-- What can go on can go on with a smaller backlog too. -/
theorem Thresholds.ResumesAt.anti {t : Thresholds} {pending fewer bytes fewerBytes : Nat}
    (h : t.ResumesAt pending bytes) (hpending : fewer ≤ pending) (hbytes : fewerBytes ≤ bytes) :
    t.ResumesAt fewer fewerBytes := by
  rw [ResumesAt] at h ⊢
  omega

namespace FlowControl

variable {p : Partition} {f g : FlowControl} {op : Operation} {ops : List Operation}

namespace Operation

variable (p)

def delivers : Operation → Bool
  | .deliver q _ => decide (q = p)
  | .acknowledge _ | .remove _ | .reconcile _ => false

def removes : Operation → Bool
  | .remove ps => decide (p ∈ ps)
  | .deliver _ _ | .acknowledge _ | .reconcile _ => false

end Operation

def Undelivered (p : Partition) (ops : List Operation) : Prop := ∀ op ∈ ops, op.delivers p = false

def Kept (p : Partition) (ops : List Operation) : Prop := ∀ op ∈ ops, op.removes p = false

instance (p : Partition) (ops : List Operation) : Decidable (Undelivered p ops) :=
  inferInstanceAs (Decidable (∀ op ∈ ops, _))

instance (p : Partition) (ops : List Operation) : Decidable (Kept p ops) :=
  inferInstanceAs (Decidable (∀ op ∈ ops, _))

section Pending

theorem pending_acknowledge_getD (f : FlowControl) (q : Partition) :
    ((f.acknowledge? q).getD f).pending p = f.pending p - if q = p then 1 else 0 := by
  cases hg : f.acknowledge? q with
  | some g => rw [Option.getD_some, pending_acknowledge hg p, Nat.add_sub_cancel]
  | none =>
    have hnothing := acknowledge?_eq_none_iff.1 hg
    rw [Option.getD_none]
    by_cases hq : q = p
    · subst hq
      rw [hnothing, Nat.zero_sub]
    · rw [if_neg hq, Nat.sub_zero]

theorem pending_reconcile (f : FlowControl) (assigned : List Partition) :
    (f.reconcile assigned).2.pending p = f.pending p := by
  rw [reconcile_frame]
  rfl

/-- Only an acknowledgement takes a record off a partition that is not removed. -/
theorem pending_le_perform (hg : f.perform? op = some g) (hkept : op.removes p = false) :
    f.pending p ≤ g.pending p + if op = .acknowledge p then 1 else 0 := by
  cases op with
  | deliver q size =>
    rw [pending_deliver hg]
    omega
  | acknowledge q =>
    cases hg
    rw [pending_acknowledge_getD]
    simp only [Operation.acknowledge.injEq]
    omega
  | remove ps =>
    cases hg
    have hp : p ∉ ps := of_decide_eq_false hkept
    rw [pending_remove, if_neg hp]
    exact Nat.le_add_right _ _
  | reconcile assigned =>
    cases hg
    rw [pending_reconcile]
    exact Nat.le_add_right _ _

/-- Every acknowledgement takes one off, as long as there is one and none is delivered. -/
theorem pending_perform_le (hg : f.perform? op = some g) (hnone : op.delivers p = false) :
    g.pending p ≤ f.pending p - if op = .acknowledge p then 1 else 0 := by
  cases op with
  | deliver q size =>
    have hq : q ≠ p := of_decide_eq_false hnone
    have hother : Operation.deliver q size ≠ .acknowledge p := by simp
    rw [pending_deliver hg, if_neg hq, if_neg hother]
    exact Nat.le_refl _
  | acknowledge q =>
    cases hg
    rw [pending_acknowledge_getD]
    simp only [Operation.acknowledge.injEq]
    exact Nat.le_refl _
  | remove ps =>
    cases hg
    have hother : Operation.remove ps ≠ .acknowledge p := by simp
    rw [pending_remove, if_neg hother]
    split
    · exact Nat.zero_le _
    · exact Nat.le_refl _
  | reconcile assigned =>
    cases hg
    have hother : Operation.reconcile assigned ≠ .acknowledge p := by simp
    rw [pending_reconcile, if_neg hother]
    exact Nat.le_refl _

theorem outcome_eq_refused (h : f.outcome op = .refused p) :
    op = .acknowledge p ∧ f.pending p = 0 := by
  cases op with
  | deliver q size => cases h
  | remove ps => cases h
  | reconcile assigned => cases h
  | acknowledge q =>
    rw [outcome] at h
    cases hg : f.acknowledge? q with
    | some g =>
      rw [hg] at h
      cases h
    | none =>
      rw [hg] at h
      cases h
      exact ⟨rfl, acknowledge?_eq_none_iff.1 hg⟩

/-- As many acknowledgements as records are pending succeed. -/
theorem not_refused (hkept : Kept p ops) (hcount : ops.count (.acknowledge p) ≤ f.pending p) :
    .refused p ∉ f.outcomes ops := by
  induction ops generalizing f with
  | nil => exact List.not_mem_nil
  | cons op ops ih =>
    obtain ⟨hop, hops⟩ := List.forall_mem_cons.1 hkept
    simp only [List.count_cons, beq_iff_eq] at hcount
    have hfirst : .refused p ≠ f.outcome op := by
      intro hrefused
      obtain ⟨rfl, hnothing⟩ := outcome_eq_refused hrefused.symm
      rw [if_pos rfl] at hcount
      omega
    cases hg : f.perform? op with
    | none =>
      rw [outcomes_cons_of_none hg, List.mem_singleton]
      exact hfirst
    | some g =>
      have hstep := pending_le_perform hg hop
      rw [outcomes_cons hg, List.mem_cons, not_or]
      exact ⟨hfirst, ih hops (by omega)⟩

/-- After as many acknowledgements as records were pending, none is. -/
theorem pending_performAll_eq_zero (hg : f.performAll? ops = some g) (hnone : Undelivered p ops)
    (hcount : f.pending p ≤ ops.count (.acknowledge p)) : g.pending p = 0 := by
  induction ops generalizing f with
  | nil =>
    cases hg
    exact Nat.le_zero.1 hcount
  | cons op ops ih =>
    obtain ⟨next, hnext, hrest⟩ := performAll?_cons.1 hg
    obtain ⟨hop, hops⟩ := List.forall_mem_cons.1 hnone
    simp only [List.count_cons, beq_iff_eq] at hcount
    have hstep := pending_perform_le hnext hop
    exact ih hrest hops (by omega)

/-- With nothing pending a partition can go on, whatever the thresholds are. -/
theorem shouldResume_of_nothing (hnothing : f.pending p = 0) : f.shouldResume p = true := by
  rw [shouldResume_iff, hnothing, pendingBytes_eq_zero hnothing]
  exact Thresholds.resumesAt_nothing _

end Pending

section Paused

theorem resumed_or_paused_decideEach (ps : List Partition) (r : Reconciliation)
    (f : FlowControl) (h : p ∈ r.resume ∨ f.isPaused p = true) :
    p ∈ (decideEach ps r f).1.resume ∨ (decideEach ps r f).2.isPaused p = true := by
  induction ps generalizing r f with
  | nil => exact h
  | cons q ps ih =>
    rw [decideEach]
    split
    · split
      · apply ih
        by_cases hq : q = p
        · subst hq
          exact Or.inl List.mem_cons_self
        · refine h.imp (List.mem_cons_of_mem _) fun hpaused => ?_
          simpa [isPaused, PartitionMap.contains_erase, hq] using hpaused
      · exact ih r f h
    · split
      · apply ih
        refine h.imp_right fun hpaused => ?_
        rw [isPaused] at hpaused ⊢
        simp [PartitionMap.contains_insert, hpaused]
      · exact ih r f h

/-- A paused partition that is not removed is resumed by a decision, or stays paused. -/
theorem resumed_or_paused_perform (hg : f.perform? op = some g) (hkept : op.removes p = false)
    (h : f.isPaused p = true) :
    (∃ r, f.outcome op = .reconciled r ∧ p ∈ r.resume) ∨ g.isPaused p = true := by
  cases op with
  | deliver q size =>
    rw [isPaused, (deliver_eq hg).2]
    exact Or.inr h
  | acknowledge q =>
    cases hg
    cases hq : f.acknowledge? q with
    | none => exact Or.inr h
    | some g =>
      rw [Option.getD_some, isPaused, (acknowledge_eq hq).2.1]
      exact Or.inr h
  | remove ps =>
    cases hg
    have hp : p ∉ ps := of_decide_eq_false hkept
    rw [isPaused_iff, paused_remove, PartitionMap.get?_foldl_erase, if_neg hp]
    exact Or.inr h
  | reconcile assigned =>
    cases hg
    refine (resumed_or_paused_decideEach assigned ⟨[], []⟩ f (Or.inr h)).imp_left fun hresumed => ?_
    exact ⟨(f.reconcile assigned).1, rfl, mem_sort.2 hresumed⟩

theorem resumed_or_paused (hg : f.performAll? ops = some g) (hkept : Kept p ops)
    (h : f.isPaused p = true) :
    (∃ r, .reconciled r ∈ f.outcomes ops ∧ p ∈ r.resume) ∨ g.isPaused p = true := by
  induction ops generalizing f with
  | nil =>
    cases hg
    exact Or.inr h
  | cons op ops ih =>
    obtain ⟨next, hnext, hrest⟩ := performAll?_cons.1 hg
    obtain ⟨hop, hops⟩ := List.forall_mem_cons.1 hkept
    rw [outcomes_cons hnext]
    rcases resumed_or_paused_perform hnext hop h with ⟨r, houtcome, hresumed⟩ | hpaused
    · exact Or.inl ⟨r, houtcome ▸ List.mem_cons_self, hresumed⟩
    · exact (ih hrest hops hpaused).imp_left fun ⟨r, hr, hresumed⟩ =>
        ⟨r, List.mem_cons_of_mem _ hr, hresumed⟩

end Paused

section Sizes

theorem Operation.delivery?_of_not_delivers (h : op.delivers p = false) :
    op.delivery? p = none := by
  cases op with
  | deliver q size => exact if_neg (of_decide_eq_false h)
  | acknowledge q => rfl
  | remove ps => rfl
  | reconcile assigned => rfl

/-- Without a delivery the queue of a partition gets no longer. -/
theorem performAll_sizes_sublist (hg : f.performAll? ops = some g) (hnone : Undelivered p ops) :
    (g.sizes p).Sublist (f.sizes p) := by
  induction ops generalizing f with
  | nil =>
    cases hg
    exact List.Sublist.refl _
  | cons op ops ih =>
    obtain ⟨next, hnext, hrest⟩ := performAll?_cons.1 hg
    obtain ⟨hop, hops⟩ := List.forall_mem_cons.1 hnone
    refine (ih hrest hops).trans (perform_sizes_sublist hnext fun size hsize => ?_)
    have hdelivery := delivery?_outcome (p := p) f op
    rw [hsize, Operation.delivery?_of_not_delivers hop, Event.delivery?, if_pos rfl] at hdelivery
    cases hdelivery

theorem removes_outcome (f : FlowControl) (op : Operation) :
    (f.outcome op).removes p = op.removes p := by
  cases op with
  | deliver q size => rfl
  | remove ps => rfl
  | reconcile assigned => rfl
  | acknowledge q =>
    rw [outcome]
    split <;> rfl

/-- Without an acknowledgement and a removal it gets no shorter. -/
theorem sizes_sublist_performAll (hg : f.performAll? ops = some g) (hkept : Kept p ops)
    (hack : .acknowledge p ∉ ops) : (f.sizes p).Sublist (g.sizes p) := by
  induction ops generalizing f with
  | nil =>
    cases hg
    exact List.Sublist.refl _
  | cons op ops ih =>
    obtain ⟨next, hnext, hrest⟩ := performAll?_cons.1 hg
    obtain ⟨hop, hops⟩ := List.forall_mem_cons.1 hkept
    obtain ⟨hfirst, hlater⟩ := not_or.1 (mt List.mem_cons.2 hack)
    have hnotRemoved : (f.outcome op).removes p = false := (removes_outcome f op).trans hop
    refine (sizes_sublist_perform hnext hnotRemoved ?_).trans (ih hrest hops hlater)
    intro hacknowledged
    cases op with
    | acknowledge q =>
      rw [outcome] at hacknowledged
      split at hacknowledged
      · cases hacknowledged
        exact hfirst rfl
      · cases hacknowledged
    | deliver q size => cases hacknowledged
    | remove ps => cases hacknowledged
    | reconcile assigned => cases hacknowledged

/-- A queue that is part of one with which the partition can go on lets it go on too. -/
theorem shouldResume_of_sublist (hsame : g.thresholds = f.thresholds)
    (hsizes : (g.sizes p).Sublist (f.sizes p)) (h : f.shouldResume p = true) :
    g.shouldResume p = true := by
  rw [shouldResume_iff, pending_eq_length, pendingBytes_eq_total] at h ⊢
  rw [hsame]
  exact h.anti hsizes.length_le (total_le_of_sublist hsizes)

end Sizes

/-- A paused partition goes on once it is acknowledged as often as it has records pending. -/
structure Drains (p : Partition) (f : FlowControl) : Prop where
  proceeds : ∀ more, (∀ op ∈ more, ∀ q size, op ≠ .deliver q size) →
    ∃ g, f.performAll? more = some g
  accepted : ∀ more, Kept p more → more.count (.acknowledge p) ≤ f.pending p →
    .refused p ∉ f.outcomes more
  drained : ∀ more g, f.performAll? more = some g → Undelivered p more →
    f.pending p ≤ more.count (.acknowledge p) → g.shouldResume p = true
  resumed : f.isPaused p = true → ∀ more g, f.performAll? more = some g → Kept p more →
    g.shouldResume p = true → ∀ assigned : List Partition, assigned.Nodup → p ∈ assigned →
      (∃ r, .reconciled r ∈ f.outcomes more ∧ p ∈ r.resume) ∨
        (p ∈ (g.reconcile assigned).1.resume ∧ (g.reconcile assigned).2.isPaused p = false)

/-- Acknowledgements bring a partition no nearer to a pause, and deliveries no farther from one. -/
structure Steady (p : Partition) (f : FlowControl) : Prop where
  goes_on : f.shouldResume p = true → ∀ more g, f.performAll? more = some g → Undelivered p more →
    g.shouldResume p = true
  not_paused : f.shouldPause p = false → ∀ more g, f.performAll? more = some g →
    Undelivered p more → g.shouldPause p = false
  pauses : f.shouldPause p = true → ∀ more g, f.performAll? more = some g → Kept p more →
    .acknowledge p ∉ more → g.shouldPause p = true

theorem drains (f : FlowControl) (p : Partition) : Drains p f := by
  constructor
  case proceeds =>
    intro more hmore
    exact exists_performAll hmore
  case accepted =>
    intro more hkept hcount
    exact not_refused hkept hcount
  case drained =>
    intro more g hg hnone hcount
    exact shouldResume_of_nothing (pending_performAll_eq_zero hg hnone hcount)
  case resumed =>
    intro hpaused more g hg hkept hresume assigned hnodup hp
    refine (resumed_or_paused hg hkept hpaused).imp_right fun hstill => ?_
    refine ⟨(mem_resume_iff hnodup).2 ⟨hp, hstill, hresume⟩, ?_⟩
    rw [isPaused_of_reconcile _ hnodup hp, pausing, resuming, hstill, hresume]
    rfl

theorem steady (f : FlowControl) (p : Partition) : Steady p f := by
  constructor
  case goes_on =>
    intro hresume more g hg hnone
    exact shouldResume_of_sublist (thresholds_performAll hg) (performAll_sizes_sublist hg hnone) hresume
  case not_paused =>
    intro hpause more g hg hnone
    rw [← Bool.not_eq_true] at hpause ⊢
    have hsizes := performAll_sizes_sublist hg hnone
    exact mt (shouldPause_of_sublist (thresholds_performAll hg).symm hsizes) hpause
  case pauses =>
    intro hpause more g hg hkept hack
    have hsizes := sizes_sublist_performAll hg hkept hack
    exact shouldPause_of_sublist (thresholds_performAll hg) hsizes hpause

/-- In whatever state flow control is and whatever the thresholds are, a paused partition goes on
once its records are acknowledged. -/
theorem never_stuck_paused (f : FlowControl) (p : Partition) : Drains p f ∧ Steady p f :=
  ⟨drains f p, steady f p⟩

def noRoom : Thresholds where
  pauseMinMessages := 0
  pauseBytes := 0
  pauseMessages := 0
  resumeBytes := 0
  resumeMessages := 0

def twoPaused : List Operation :=
  [.deliver ⟨"t", 0⟩ 5, .deliver ⟨"t", 0⟩ 7, .reconcile [⟨"t", 0⟩]]

/-- After one acknowledgement the partition still waits, and after the second one it can go on. -/
theorem never_stuck_paused_with_no_room :
    let acks : List Operation := [.acknowledge ⟨"t", 0⟩, .acknowledge ⟨"t", 0⟩]
    ∃ f, after? noRoom twoPaused = some f ∧ f.isPaused ⟨"t", 0⟩ = true ∧
      (f.perform? (.acknowledge ⟨"t", 0⟩)).map (·.shouldResume ⟨"t", 0⟩) = some false ∧
      .refused ⟨"t", 0⟩ ∉ f.outcomes acks ∧
      ∃ g, f.performAll? acks = some g ∧ g.shouldResume ⟨"t", 0⟩ = true ∧
        ⟨"t", 0⟩ ∈ (g.reconcile [⟨"t", 0⟩]).1.resume := by
  intro acks
  have hpaused : ∃ f, after? noRoom twoPaused = some f ∧ f.isPaused ⟨"t", 0⟩ = true ∧
      f.pending ⟨"t", 0⟩ = 2 ∧
      (f.perform? (.acknowledge ⟨"t", 0⟩)).map (·.shouldResume ⟨"t", 0⟩) = some false ∧
      f.outcomes acks = [.acknowledged ⟨"t", 0⟩, .acknowledged ⟨"t", 0⟩] :=
    ⟨_, rfl, by decide, by decide, by decide, by decide⟩
  obtain ⟨f, hf, hpaused, hpending, hwaits, houtcomes⟩ := hpaused
  obtain ⟨hdrains, -⟩ := never_stuck_paused f ⟨"t", 0⟩
  have haccepted := hdrains.accepted acks (by decide) (by rw [hpending]; decide)
  obtain ⟨g, hg⟩ := hdrains.proceeds acks (by simp [acks])
  have hresume := hdrains.drained acks g hg (by decide) (by rw [hpending]; decide)
  have hnext := hdrains.resumed hpaused acks g hg (by decide) hresume [⟨"t", 0⟩] (by decide)
    (by decide)
  rw [houtcomes] at hnext
  refine ⟨f, hf, hpaused, hwaits, haccepted, g, hg, hresume, ?_⟩
  rcases hnext with ⟨r, hr, -⟩ | ⟨hresumed, -⟩
  · simp at hr
  · exact hresumed

end FlowControl

end AckRelay
