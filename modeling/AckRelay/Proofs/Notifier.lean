import AckRelay.Host.Notifier

namespace AckRelay

def Notification.isOfRecords : Notification → Bool
  | .record _ | .unassigned _ => true
  | .consuming | .caughtUp | .assigned _ | .committed _ => false

inductive Takes {ν : Type} [Notifier ν] : List Notification → ν → ν → Prop
  | nothing (w : ν) : Takes [] w w
  | next {n : Notification} {ns : List Notification} {u v w : ν} :
      Notifier.emit n u = .ok () v → Takes ns v w → Takes (n :: ns) u w

namespace Takes

variable {ν : Type} [Notifier ν] {n : Notification} {ms ns : List Notification} {u v w : ν}

theorem one (h : Notifier.emit n u = .ok () v) : Takes [n] u v :=
  .next h (.nothing v)

theorem append (hm : Takes ms u v) (hn : Takes ns v w) : Takes (ms ++ ns) u w := by
  induction hm with
  | nothing _ => exact hn
  | next he _ ih => exact .next he (ih hn)

/-- A transcript holds what the host took. -/
theorem sent {t t' : Transcript ν} (h : Takes ns t t') : t'.sent = t.sent ++ ns := by
  induction h with
  | nothing t => exact (List.append_nil _).symm
  | @next n ns t u t' he _ ih =>
    have hlog : u.log = n :: t.log := by
      simp only [Notifier.emit] at he
      cases hn : Notifier.emit n t.through with
      | ok _ x =>
        rw [hn] at he
        cases he
        rfl
      | error e x =>
        rw [hn] at he
        cases he
    rw [ih, Transcript.sent, Transcript.sent, hlog, List.reverse_cons, List.append_assoc,
      List.singleton_append]

end Takes

def HearsNoRecords {ν : Type} [Notifier ν] (u v : ν) : Prop :=
  ∃ ns, Takes ns u v ∧ ∀ n ∈ ns, n.isOfRecords = false

namespace HearsNoRecords

variable {ν : Type} [Notifier ν] {u v w : ν}

theorem refl (w : ν) : HearsNoRecords w w :=
  ⟨[], .nothing w, fun _ h => by cases h⟩

theorem trans (hv : HearsNoRecords u v) (hw : HearsNoRecords v w) : HearsNoRecords u w := by
  obtain ⟨ms, hms, hm⟩ := hv
  obtain ⟨ns, hns, hn⟩ := hw
  refine ⟨ms ++ ns, hms.append hns, fun n h => ?_⟩
  exact (List.mem_append.1 h).elim (hm n) (hn n)

theorem one {n : Notification} (h : Takes [n] u v) (hn : n.isOfRecords = false) :
    HearsNoRecords u v := by
  refine ⟨[n], h, fun k hk => ?_⟩
  rw [List.mem_singleton.1 hk]
  exact hn

end HearsNoRecords

end AckRelay
