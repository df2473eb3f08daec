import AckRelay.Proofs.FlowControl.Reconcile

namespace AckRelay.FlowControl

inductive Operation where
  | deliver (p : Partition) (size : UInt64)
  | acknowledge (p : Partition)
  | remove (ps : List Partition)
  | reconcile (assigned : List Partition)
  deriving DecidableEq, Repr

/-- Flow control after an operation, if it survives that. An acknowledgement with nothing to release
changes nothing. -/
def perform? (f : FlowControl) : Operation → Option FlowControl
  | .deliver p size => f.deliver? p size
  | .acknowledge p => some ((f.acknowledge? p).getD f)
  | .remove ps => some (f.remove ps)
  | .reconcile assigned => some (f.reconcile assigned).2

def performAll? (f : FlowControl) (ops : List Operation) : Option FlowControl :=
  ops.foldlM perform? f

/-- Flow control with the given thresholds, after some operations from its start. -/
def after? (t : Thresholds) (ops : List Operation) : Option FlowControl :=
  ({ thresholds := t } : FlowControl).performAll? ops

variable {f g : FlowControl} {op : Operation} {ops more : List Operation} {t : Thresholds}

theorem performAll?_cons :
    f.performAll? (op :: ops) = some g ↔
      ∃ next, f.perform? op = some next ∧ next.performAll? ops = some g := by
  rw [performAll?, List.foldlM_cons, Option.bind_eq_bind, Option.bind_eq_some_iff]
  rfl

theorem performAll?_append :
    f.performAll? (ops ++ more) = some g ↔
      ∃ next, f.performAll? ops = some next ∧ next.performAll? more = some g := by
  rw [performAll?, List.foldlM_append, Option.bind_eq_bind, Option.bind_eq_some_iff]
  rfl

theorem after?_append :
    after? t (ops ++ more) = some g ↔
      ∃ f, after? t ops = some f ∧ f.performAll? more = some g :=
  performAll?_append

/-- Flow control after one more operation. -/
theorem after?_concat :
    after? t (ops ++ [op]) = some g ↔ ∃ f, after? t ops = some f ∧ f.perform? op = some g := by
  simp [after?_append, performAll?]

/-- What every operation keeps, any operations keep. -/
theorem performAll?_induction {I : FlowControl → Prop}
    (hstep : ∀ {f op g}, f.perform? op = some g → I f → I g) (hf : I f)
    (h : f.performAll? ops = some g) : I g := by
  induction ops generalizing f with
  | nil =>
    cases h
    exact hf
  | cons op ops ih =>
    obtain ⟨next, hnext, hrest⟩ := performAll?_cons.1 h
    exact ih (hstep hnext hf) hrest

theorem thresholds_perform (h : f.perform? op = some g) : g.thresholds = f.thresholds := by
  cases op with
  | deliver p size => exact (deliver_eq h).1
  | acknowledge p =>
    cases h
    cases ha : f.acknowledge? p with
    | none => rfl
    | some g => exact (acknowledge_eq ha).1
  | remove ps =>
    cases h
    exact thresholds_remove f ps
  | reconcile assigned =>
    cases h
    rw [reconcile_frame]

theorem thresholds_performAll (h : f.performAll? ops = some g) : g.thresholds = f.thresholds :=
  performAll?_induction (I := fun g => g.thresholds = f.thresholds)
    (fun h hf => (thresholds_perform h).trans hf) rfl h

theorem thresholds_after (h : after? t ops = some f) : f.thresholds = t := thresholds_performAll h

/-- Only a delivery takes room. -/
theorem delivery_of_perform_eq_none (h : f.perform? op = none) :
    ∃ p size, op = .deliver p size := by
  cases op with
  | deliver p size => exact ⟨p, size, rfl⟩
  | acknowledge p => cases h
  | remove ps => cases h
  | reconcile assigned => cases h

/-- Without a delivery every operation goes through. -/
theorem exists_performAll (hops : ∀ op ∈ ops, ∀ p size, op ≠ .deliver p size) :
    ∃ g, f.performAll? ops = some g := by
  induction ops generalizing f with
  | nil => exact ⟨f, rfl⟩
  | cons op ops ih =>
    obtain ⟨hop, hops⟩ := List.forall_mem_cons.1 hops
    cases hnext : f.perform? op with
    | none =>
      obtain ⟨p, size, rfl⟩ := delivery_of_perform_eq_none hnext
      exact absurd rfl (hop p size)
    | some next =>
      obtain ⟨g, hg⟩ := ih (f := next) hops
      exact ⟨g, performAll?_cons.2 ⟨next, hnext, hg⟩⟩

end AckRelay.FlowControl
