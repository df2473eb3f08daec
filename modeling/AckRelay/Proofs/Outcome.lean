import AckRelay.Broker.Interface

namespace AckRelay

variable {ε σ α β : Type}

/-- Operations run one after another, up to one that fails. -/
@[simp]
theorem bind_apply (op : EStateM ε σ α) (f : α → EStateM ε σ β) (s : σ) :
    (op >>= f) s =
      match op s with
      | .ok a t => f a t
      | .error e t => .error e t := rfl

@[simp]
theorem pure_apply (a : α) (s : σ) : (pure a : EStateM ε σ α) s = .ok a s := rfl

@[simp]
theorem get_apply (s : σ) : (get : EStateM ε σ σ) s = .ok s s := rfl

@[simp]
theorem set_apply (s t : σ) : (set t : EStateM ε σ PUnit) s = .ok () t := rfl

@[simp]
theorem modify_apply (f : σ → σ) (s : σ) : (modify f : EStateM ε σ PUnit) s = .ok () (f s) := rfl

/-- What succeeds in two steps succeeds in each of them. -/
theorem bind_eq_ok {op : EStateM ε σ α} {f : α → EStateM ε σ β} {s u : σ} {b : β} :
    (op >>= f) s = .ok b u ↔ ∃ a t, op s = .ok a t ∧ f a t = .ok b u := by
  rw [bind_apply]
  constructor
  · intro h
    cases hs : op s with
    | ok a t =>
      rw [hs] at h
      exact ⟨a, t, rfl, h⟩
    | error e t =>
      rw [hs] at h
      cases h
  · rintro ⟨a, t, hs, h⟩
    rw [hs]
    exact h

/-- The same of what has no state. -/
theorem Except.bind_eq_ok {x : Except ε α} {f : α → Except ε β} {b : β} :
    (x >>= f) = .ok b ↔ ∃ a, x = .ok a ∧ f a = .ok b := by
  constructor
  · intro h
    cases x with
    | error e => cases h
    | ok a => exact ⟨a, rfl, h⟩
  · rintro ⟨a, rfl, h⟩
    exact h

def endState (op : EStateM ε σ α) (s : σ) : σ :=
  match op s with
  | .ok _ t => t
  | .error _ t => t

theorem endState_of_ok {op : EStateM ε σ α} {s t : σ} {a : α} (h : op s = .ok a t) :
    endState op s = t := by
  rw [endState, h]

theorem endState_of_error {op : EStateM ε σ α} {s t : σ} {e : ε} (h : op s = .error e t) :
    endState op s = t := by
  rw [endState, h]

/-- Operations with the same outcome end in the same state. -/
theorem endState_congr {op : EStateM ε σ α} {op' : EStateM ε σ α} {s s' : σ}
    (h : op s = op' s') : endState op s = endState op' s' := by
  rw [endState, endState, h]

theorem endState_bind_pure (op : EStateM ε σ α) (b : β) (s : σ) :
    endState (op >>= fun _ => pure b) s = endState op s := by
  simp only [endState, bind_apply]
  cases op s <;> rfl

/-- What is returned in the end does not change how an operation ran. -/
theorem ok_of_bind_pure {op : EStateM ε σ Unit} {b c : β} {s t : σ}
    (h : (op >>= fun _ => pure b) s = .ok c t) : op s = .ok () t := by
  obtain ⟨_, u, hop, h⟩ := bind_eq_ok.1 h
  cases h
  exact hop

theorem error_of_bind_pure {op : EStateM ε σ α} {b : β} {e : ε} {s t : σ}
    (h : (op >>= fun _ => pure b) s = .error e t) : op s = .error e t := by
  rw [bind_apply] at h
  cases ho : op s with
  | ok a u =>
    rw [ho] at h
    cases h
  | error e' u =>
    rw [ho] at h
    cases h
    rfl

structure Ends (R : σ → σ → Prop) (E : σ → ε → σ → Prop) (op : EStateM ε σ α) : Prop where
  ok : ∀ {s a t}, op s = .ok a t → R s t
  error : ∀ {s e t}, op s = .error e t → E s e t

structure Chains (R : σ → σ → Prop) (E : σ → ε → σ → Prop) : Prop where
  refl : ∀ s, R s s
  trans : ∀ {s t u}, R s t → R t u → R s u
  error : ∀ {s t e u}, R s t → E t e u → E s e u

namespace Ends

variable {R R' : σ → σ → Prop} {E E' : σ → ε → σ → Prop} {op : EStateM ε σ α}

theorem of_apply {f : σ → α × σ} (h : ∀ s, op s = .ok (f s).1 (f s).2) (hr : ∀ s, R s (f s).2) :
    Ends R E op := by
  constructor
  · intro s a t hs
    rw [h s] at hs
    cases hs
    exact hr s
  · intro s e t hs
    rw [h s] at hs
    cases hs

theorem modify {f : σ → σ} (hf : ∀ s, R s (f s)) : Ends R E (modify f : EStateM ε σ PUnit) :=
  of_apply (f := fun s => ((), f s)) (fun _ => rfl) hf

theorem throw {e : ε} (he : ∀ s, E s e s) : Ends R E (MonadExcept.throw e : EStateM ε σ α) := by
  constructor
  · intro s a t hs
    cases hs
  · intro s e' t hs
    cases hs
    exact he s

/-- What is said of the ends of an operation may be weakened. -/
theorem mono (hr : ∀ {s t}, R s t → R' s t) (he : ∀ {s e t}, E s e t → E' s e t)
    (h : Ends R E op) : Ends R' E' op :=
  ⟨fun hs => hr (h.ok hs), fun hs => he (h.error hs)⟩

theorem atEnd {S : σ → σ → Prop} (h : Ends S (fun s _ t => S s t) op) (s : σ) :
    S s (endState op s) := by
  cases hs : op s with
  | ok a t =>
    rw [endState_of_ok hs]
    exact h.ok hs
  | error e t =>
    rw [endState_of_error hs]
    exact h.error hs

theorem of_atEnd {S : σ → σ → Prop} (h : ∀ s, S s (endState op s)) :
    Ends S (fun s _ t => S s t) op := by
  constructor
  · intro s a t hs
    have hend := h s
    rwa [endState_of_ok hs] at hend
  · intro s e t hs
    have hend := h s
    rwa [endState_of_error hs] at hend

section Chains

variable (hc : Chains R E)
include hc

theorem pure (a : α) : Ends R E (Pure.pure a : EStateM ε σ α) :=
  of_apply (f := fun s => (a, s)) (fun _ => rfl) hc.refl

theorem get : Ends R E (MonadState.get : EStateM ε σ σ) :=
  of_apply (f := fun s => (s, s)) (fun _ => rfl) hc.refl

/-- Two operations in a row end as described, if each of them does and the description carries over.
-/
theorem bind {f : α → EStateM ε σ β} (hop : Ends R E op) (hf : ∀ a, Ends R E (f a)) :
    Ends R E (op >>= f) := by
  constructor
  · intro s b u h
    rw [bind_apply] at h
    cases hs : op s with
    | ok a t =>
      rw [hs] at h
      exact hc.trans (hop.ok hs) ((hf a).ok h)
    | error e t =>
      rw [hs] at h
      cases h
  · intro s e u h
    rw [bind_apply] at h
    cases hs : op s with
    | ok a t =>
      rw [hs] at h
      exact hc.error (hop.ok hs) ((hf a).error h)
    | error e' t =>
      rw [hs] at h
      cases h
      exact hop.error hs

/-- So does an operation that is run for each element of a list. -/
theorem mapM {f : α → EStateM ε σ β} (hf : ∀ a, Ends R E (f a)) (as : List α) :
    Ends R E (as.mapM f) := by
  induction as with
  | nil => exact pure hc []
  | cons a as ih =>
    rw [List.mapM_cons]
    exact bind hc (hf a) fun b => bind hc ih fun bs => pure hc (b :: bs)

end Chains

end Ends

end AckRelay
