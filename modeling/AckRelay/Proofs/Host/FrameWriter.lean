import AckRelay.Host.FrameWriter
import AckRelay.Proofs.Host.Frame
import AckRelay.Proofs.Host.Notification
import AckRelay.Proofs.Notifier
import AckRelay.Proofs.Outcome

namespace AckRelay

/-- The sink takes all bytes and flushes whenever it is told to. -/
def Sink.TakesAll (s : Sink) : Prop := s.room = none ∧ s.failingFlushes = []

theorem Sink.contents_take (s : Sink) (bs : List UInt8) :
    (s.take bs).contents = s.contents ++ bs := by
  rw [contents, take, List.reverse_cons, List.flatten_append, List.flatten_singleton]
  rfl

namespace FrameWriter

variable {n : Notification} {w : FrameWriter}

def afterFrame (body : List UInt8) (w : FrameWriter) : FrameWriter :=
  ⟨{ w.sink.take (Frame.encode body) with flushes := w.sink.flushes + 1 }⟩

theorem contents_afterFrame (body : List UInt8) (w : FrameWriter) :
    (afterFrame body w).sink.contents = w.sink.contents ++ Frame.encode body :=
  Sink.contents_take w.sink (Frame.encode body)

/-- A frame that fits into whatever room there is is taken whole, and then there is one flush. -/
theorem emit_whole (hn : n.body.length ≤ Frame.maxLength)
    (hfits : ∀ size, w.sink.room = some size → (Frame.encode n.body).length ≤ size) :
    Notifier.emit n w =
      if w.sink.flushes + 1 ∈ w.sink.failingFlushes then
        .error (.io hostWentAway) (afterFrame n.body w)
      else .ok () (afterFrame n.body w) := by
  have hwrite : Sink.writeAll (Frame.encode n.body) w.sink =
      .ok () (w.sink.take (Frame.encode n.body)) := by
    rw [Sink.writeAll]
    cases hroom : w.sink.room with
    | none => rfl
    | some size => exact if_pos (hfits size hroom)
  have hflush : Sink.flush (w.sink.take (Frame.encode n.body)) =
      if w.sink.flushes + 1 ∈ w.sink.failingFlushes then
        .error (.io hostWentAway) (afterFrame n.body w).sink
      else .ok () (afterFrame n.body w).sink := rfl
  simp only [Notifier.emit, write, hn, ↓reduceIte, bind_apply, hwrite, hflush]
  by_cases hfails : w.sink.flushes + 1 ∈ w.sink.failingFlushes
  · rw [if_pos hfails, if_pos hfails]
  · rw [if_neg hfails, if_neg hfails]

/-- A body that a frame can announce is written as one frame, and the sink is as willing as
before. -/
theorem emit_eq_ok (hn : n.body.length ≤ Frame.maxLength) (hw : w.sink.TakesAll) :
    ∃ v, Notifier.emit n w = .ok () v ∧ v.sink.TakesAll ∧
      v.sink.contents = w.sink.contents ++ Frame.encode n.body := by
  obtain ⟨hroom, hflushes⟩ := hw
  have hfits : ∀ size, w.sink.room = some size → (Frame.encode n.body).length ≤ size := by
    intro size hsize
    rw [hroom] at hsize
    cases hsize
  have hnever : w.sink.flushes + 1 ∉ w.sink.failingFlushes := by
    rw [hflushes]
    exact List.not_mem_nil
  refine ⟨afterFrame n.body w, ?_, ⟨?_, hflushes⟩, contents_afterFrame n.body w⟩
  · rw [emit_whole hn hfits, if_neg hnever]
  · change w.sink.room.map _ = none
    rw [hroom]
    rfl

/-- A willing sink takes all notifications with bodies that frames can announce, one frame for each
of them. -/
theorem takes_frames {ns : List Notification}
    (hns : ∀ n ∈ ns, n.body.length ≤ Frame.maxLength) (hw : w.sink.TakesAll) :
    ∃ v, Takes ns w v ∧ v.sink.TakesAll ∧ v.sink.contents =
      w.sink.contents ++ ((ns.map Notification.body).map Frame.encode).flatten := by
  induction ns generalizing w with
  | nil => exact ⟨w, .nothing w, hw, (List.append_nil _).symm⟩
  | cons n ns ih =>
    obtain ⟨u, hemit, hu, hcontents⟩ := emit_eq_ok (hns n List.mem_cons_self) hw
    obtain ⟨v, htakes, hv, hrest⟩ := ih (fun k hk => hns k (List.mem_cons_of_mem _ hk)) hu
    refine ⟨v, .next hemit htakes, hv, ?_⟩
    rw [hrest, hcontents, List.append_assoc]
    rfl

/-- What is written for some notifications is split into as many frames with nothing left over, and
these hold the notifications in order. -/
theorem frames_round_trip (ns : List Notification) (hns : ∀ n ∈ ns, n.body.length < 2 ^ 32)
    (hw : w.sink.TakesAll) :
    ∃ v written bodies, Takes ns w v ∧ v.sink.contents = w.sink.contents ++ written ∧
      Frame.split written = (bodies, []) ∧ bodies.length = ns.length ∧
      bodies.map Notification.parse = ns.map .ok := by
  have hmax : ∀ n ∈ ns, n.body.length ≤ Frame.maxLength := fun n hn => Nat.le_of_lt_succ (hns n hn)
  obtain ⟨v, htakes, -, hcontents⟩ := takes_frames hmax hw
  refine ⟨v, _, ns.map Notification.body, htakes, hcontents, ?_, List.length_map _, ?_⟩
  · apply Frame.split_encode
    intro body hbody
    obtain ⟨n, hn, rfl⟩ := List.mem_map.1 hbody
    exact hmax n hn
  · rw [List.map_map]
    exact List.map_congr_left fun n _ => n.parse_body

theorem frames_round_trip_of_extremes :
    let ns : List Notification :=
      [.record ⟨⟨"é\"\n", -1⟩, Int64.minValue, Int64.maxValue, [0, 255]⟩, .consuming,
        .committed [⟨⟨"\\", 0⟩, -1⟩]]
    (∀ n ∈ ns, n.body.length < 2 ^ 32) ∧ ({} : Sink).TakesAll ∧
      ∃ v written bodies, Takes ns (⟨{}⟩ : FrameWriter) v ∧
        v.sink.contents = ({} : Sink).contents ++ written ∧ Frame.split written = (bodies, []) ∧
        bodies.length = ns.length ∧ bodies.map Notification.parse = ns.map .ok := by
  intro ns
  have hns : ∀ n ∈ ns, n.body.length < 2 ^ 32 := by decide +kernel
  have hsink : ({} : Sink).TakesAll := ⟨rfl, rfl⟩
  exact ⟨hns, hsink, frames_round_trip ns hns hsink⟩

end FrameWriter

end AckRelay
