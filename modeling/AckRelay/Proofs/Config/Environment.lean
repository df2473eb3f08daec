import AckRelay.Config.Settings
import AckRelay.Proofs.Outcome
import AckRelay.Proofs.Text.Decimal

namespace AckRelay

namespace Environment

variable {α : Type} {env : Environment} {name : String} {read : String → Option α}

theorem optional_eq_ok {o : Option α} :
    env.optional name read = .ok o ↔
      (env name = none ∧ o = none) ∨ ∃ text a, env name = some text ∧ read text = some a ∧
        o = some a := by
  rw [optional]
  cases htext : env name with
  | none => simp [eq_comm]
  | some text =>
    cases ha : read text with
    | none => simp [ha]
    | some a => simp [ha, eq_comm]

theorem orDefault_eq_ok {default a : α} :
    env.orDefault name read default = .ok a ↔
      (env name = none ∧ a = default) ∨ ∃ text, env name = some text ∧ read text = some a := by
  rw [orDefault, Except.bind_eq_ok]
  constructor
  · rintro ⟨o, ho, h⟩
    cases h
    rcases optional_eq_ok.1 ho with ⟨hunset, rfl⟩ | ⟨text, a, htext, hread, rfl⟩
    · exact Or.inl ⟨hunset, rfl⟩
    · exact Or.inr ⟨text, htext, hread⟩
  · rintro (⟨hunset, rfl⟩ | ⟨text, htext, hread⟩)
    · exact ⟨none, optional_eq_ok.2 (Or.inl ⟨hunset, rfl⟩), rfl⟩
    · exact ⟨some a, optional_eq_ok.2 (Or.inr ⟨text, a, htext, hread, rfl⟩), rfl⟩

theorem required_eq_ok {a : α} :
    env.required name read = .ok a ↔ ∃ text, env name = some text ∧ read text = some a := by
  rw [required, Except.bind_eq_ok]
  constructor
  · rintro ⟨o, ho, h⟩
    rcases optional_eq_ok.1 ho with ⟨-, rfl⟩ | ⟨text, a', htext, hread, rfl⟩
    · cases h
    · cases h
      exact ⟨text, htext, hread⟩
  · rintro ⟨text, htext, hread⟩
    exact ⟨some a, optional_eq_ok.2 (Or.inr ⟨text, a, htext, hread, rfl⟩), rfl⟩

/-- A count that is loaded fits a word, if its default does. -/
theorem count_lt {default n : Nat} (hdefault : default < UInt64.size)
    (h : env.orDefault name Setting.count default = .ok n) : n < UInt64.size := by
  rcases orDefault_eq_ok.1 h with ⟨-, rfl⟩ | ⟨text, -, hread⟩
  · exact hdefault
  · exact Nat.lt_of_le_pred (by decide) (Text.readNat?_eq_some_iff.1 hread).2

end Environment

namespace Thresholds

/-- Every threshold fits a word. -/
structure Fits (t : Thresholds) : Prop where
  pauseMinMessages : t.pauseMinMessages < UInt64.size
  pauseBytes : t.pauseBytes < UInt64.size
  pauseMessages : t.pauseMessages < UInt64.size
  resumeBytes : t.resumeBytes < UInt64.size
  resumeMessages : t.resumeMessages < UInt64.size

theorem fits_of_load {env : Environment} {t : Thresholds} (h : load env = .ok t) : t.Fits := by
  obtain ⟨pauseMinMessages, h₁, h⟩ := Except.bind_eq_ok.1 h
  obtain ⟨pauseBytes, h₂, h⟩ := Except.bind_eq_ok.1 h
  obtain ⟨pauseMessages, h₃, h⟩ := Except.bind_eq_ok.1 h
  obtain ⟨resumeBytes, h₄, h⟩ := Except.bind_eq_ok.1 h
  obtain ⟨resumeMessages, h₅, h⟩ := Except.bind_eq_ok.1 h
  cases h
  constructor
  · exact Environment.count_lt (by decide) h₁
  · exact Environment.count_lt (by decide) h₂
  · exact Environment.count_lt (by decide) h₃
  · exact Environment.count_lt (by decide) h₄
  · exact Environment.count_lt (by decide) h₅

end Thresholds

/-- The thresholds of the relay are those that the environment gives. -/
theorem Settings.thresholds_of_load {env : Environment} {s : Settings}
    (h : Settings.load env = .ok s) : Thresholds.load env = .ok s.relaySettings.thresholds := by
  iterate 11 obtain ⟨_, -, h⟩ := Except.bind_eq_ok.1 h
  obtain ⟨t, ht, h⟩ := Except.bind_eq_ok.1 h
  cases h
  exact ht

end AckRelay
