import AckRelay.Proofs.Outcome

namespace AckRelay

variable {ε σ τ α β : Type}

inductive Agree (S : σ → τ → Prop) : EStateM.Result ε σ α → EStateM.Result ε τ α → Prop
  | ok (a : α) {s : σ} {t : τ} (h : S s t) : Agree S (.ok a s) (.ok a t)
  | error (e : ε) {s : σ} {t : τ} (h : S s t) : Agree S (.error e s) (.error e t)

def Alike (S : σ → τ → Prop) (op : EStateM ε σ α) (op' : EStateM ε τ α) : Prop :=
  ∀ ⦃s t⦄, S s t → Agree S (op s) (op' t)

namespace Alike

variable {S : σ → τ → Prop} {op : EStateM ε σ α} {op' : EStateM ε τ α}

theorem pure (a : α) : Alike S (Pure.pure a : EStateM ε σ α) (Pure.pure a) :=
  fun _ _ h => .ok a h

theorem throw (e : ε) :
    Alike S (MonadExcept.throw e : EStateM ε σ α) (MonadExcept.throw e : EStateM ε τ α) :=
  fun _ _ h => .error e h

theorem modify {f : σ → σ} {g : τ → τ} (hfg : ∀ {s t}, S s t → S (f s) (g t)) :
    Alike S (modify f : EStateM ε σ PUnit) (modify g : EStateM ε τ PUnit) :=
  fun _ _ h => .ok PUnit.unit (hfg h)

theorem bind {f : α → EStateM ε σ β} {g : α → EStateM ε τ β} (hop : Alike S op op')
    (hfg : ∀ a, Alike S (f a) (g a)) : Alike S (op >>= f) (op' >>= g) := by
  intro s t h
  rw [bind_apply, bind_apply]
  have hst := hop h
  generalize op s = x, op' t = y at hst
  cases hst with
  | ok a h => exact hfg a h
  | error e h => exact .error e h

/-- Operations that look at their state first. -/
theorem get_bind {f : σ → EStateM ε σ β} {g : τ → EStateM ε τ β}
    (hfg : ∀ {s t}, S s t → Alike S (f s) (g t)) : Alike S (get >>= f) (get >>= g) :=
  fun _ _ h => hfg h h

theorem atEnd (hop : Alike S op op') {s : σ} {t : τ} (h : S s t) :
    S (endState op s) (endState op' t) := by
  rw [endState, endState]
  have hst := hop h
  generalize op s = x, op' t = y at hst
  cases hst with
  | ok a h => exact h
  | error e h => exact h

end Alike

end AckRelay
