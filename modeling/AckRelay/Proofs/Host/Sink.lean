import AckRelay.Proofs.Cut
import AckRelay.Proofs.Host.FrameWriter
import AckRelay.Proofs.Outcome

namespace AckRelay

namespace Sink

variable {bs left : List UInt8} {s t : Sink} {n : Nat}

inductive TakesInTurn : List UInt8 → Sink → List UInt8 → Sink → Prop
  | all (s : Sink) : TakesInTurn [] s [] s
  | full {bs : List UInt8} {s : Sink} : bs ≠ [] → s.room = some 0 → TakesInTurn bs s bs s
  | piece {piece rest left : List UInt8} {s t : Sink} :
      piece ≠ [] → (∀ n, s.room = some n → piece.length ≤ n) →
      TakesInTurn rest (s.take piece) left t → TakesInTurn (piece ++ rest) s left t

/-- Whatever the pieces are, the sink ends up with the bytes that fit. -/
theorem TakesInTurn.contents (h : TakesInTurn bs s left t) (hroom : s.room = some n) :
    t.contents = s.contents ++ bs.take n ∧ left = bs.drop n := by
  induction h generalizing n with
  | all s => exact ⟨by rw [List.take_nil, List.append_nil], List.drop_nil.symm⟩
  | full hne hzero =>
    obtain rfl := Option.some.inj (hroom.symm.trans hzero)
    exact ⟨by rw [List.take_zero, List.append_nil], rfl⟩
  | @piece piece rest left s t hne hfits _ ih =>
    have hn := hfits n hroom
    have hrest : (s.take piece).room = some (n - piece.length) := by
      rw [take, hroom]
      rfl
    obtain ⟨hcontents, hleft⟩ := ih hrest
    rw [hcontents, hleft, contents_take, List.take_append, List.drop_append,
      List.take_of_length_le hn, List.drop_of_length_le hn, List.append_assoc]
    exact ⟨rfl, rfl⟩

end Sink

namespace FrameWriter

variable {n : Notification} {ms ns : List Notification} {u v w : FrameWriter} {size : Nat}

def frames (ns : List Notification) : List UInt8 :=
  ((ns.map Notification.body).map Frame.encode).flatten

theorem frames_append (ms ns : List Notification) : frames (ms ++ ns) = frames ms ++ frames ns := by
  simp only [frames, List.map_append, List.flatten_append]

theorem frames_singleton (n : Notification) : frames [n] = Frame.encode n.body :=
  List.append_nil _

def emitAll (ns : List Notification) (w : FrameWriter) : FrameWriter :=
  ns.foldl (fun w n => endState (Notifier.emit n) w) w

structure Wrote (ns : List Notification) (size : Nat) (w v : FrameWriter) : Prop where
  room : v.sink.room = some (size - (frames ns).length)
  contents : v.sink.contents = w.sink.contents ++ (frames ns).take size
  failingFlushes : v.sink.failingFlushes = w.sink.failingFlushes
  flushes : (frames ns).length ≤ size → v.sink.flushes = w.sink.flushes + ns.length

namespace Wrote

theorem nothing (hroom : w.sink.room = some size) : Wrote [] size w w where
  room := hroom
  contents := by
    rw [show frames [] = [] from rfl, List.take_nil, List.append_nil]
  failingFlushes := rfl
  flushes _ := rfl

theorem append (hm : Wrote ms size w u) (hn : Wrote ns (size - (frames ms).length) u v) :
    Wrote (ms ++ ns) size w v where
  room := by
    rw [hn.room, frames_append, List.length_append, Nat.sub_sub]
  contents := by
    rw [hn.contents, hm.contents, frames_append, List.take_append, List.append_assoc]
  failingFlushes := hn.failingFlushes.trans hm.failingFlushes
  flushes hfits := by
    rw [frames_append, List.length_append] at hfits
    rw [hn.flushes (by omega), hm.flushes (by omega), List.length_append, Nat.add_assoc]

end Wrote

/-- A frame that fits is taken whole, and then there is one flush. -/
theorem emit_fitting (hn : n.body.length ≤ Frame.maxLength) (hroom : w.sink.room = some size)
    (hfits : (Frame.encode n.body).length ≤ size) :
    Notifier.emit n w =
      if w.sink.flushes + 1 ∈ w.sink.failingFlushes then
        .error (.io hostWentAway) (afterFrame n.body w)
      else .ok () (afterFrame n.body w) := by
  apply emit_whole hn
  intro m hm
  rw [hroom] at hm
  cases hm
  exact hfits

/-- A frame that does not fit is cut short, and there is no flush. -/
theorem emit_cut (hn : n.body.length ≤ Frame.maxLength) (hroom : w.sink.room = some size)
    (hfits : ¬(Frame.encode n.body).length ≤ size) :
    Notifier.emit n w = .error (.io "failed to write whole buffer")
      ⟨w.sink.take ((Frame.encode n.body).take size)⟩ := by
  have hwrite : Sink.writeAll (Frame.encode n.body) w.sink =
      .error (.io "failed to write whole buffer")
        (w.sink.take ((Frame.encode n.body).take size)) := by
    rw [Sink.writeAll, hroom]
    exact if_neg hfits
  simp only [Notifier.emit, write, hn, ↓reduceIte, bind_apply, hwrite]

/-- One notification is written as far as there is room, and flushed if there is room for all. -/
theorem wrote_emit (hn : n.body.length ≤ Frame.maxLength) (hroom : w.sink.room = some size) :
    Wrote [n] size w (endState (Notifier.emit n) w) ∧
      (endState (Notifier.emit n) w).sink.flushes =
        w.sink.flushes + if (Frame.encode n.body).length ≤ size then 1 else 0 := by
  by_cases hfits : (Frame.encode n.body).length ≤ size
  · have hend : endState (Notifier.emit n) w = afterFrame n.body w := by
      have hemit := emit_fitting hn hroom hfits
      split at hemit
      · exact endState_of_error hemit
      · exact endState_of_ok hemit
    rw [hend, if_pos hfits]
    refine ⟨⟨?_, ?_, rfl, fun _ => rfl⟩, rfl⟩
    · change w.sink.room.map _ = _
      rw [hroom, frames_singleton]
      rfl
    · rw [contents_afterFrame, frames_singleton, List.take_of_length_le hfits]
  · rw [endState_of_error (emit_cut hn hroom hfits), if_neg hfits]
    refine ⟨⟨?_, ?_, rfl, fun h => ?_⟩, rfl⟩
    · change w.sink.room.map _ = _
      rw [hroom, frames_singleton, List.length_take, Option.map_some]
      congr 1
      omega
    · rw [Sink.contents_take, frames_singleton]
    · rw [frames_singleton] at h
      exact absurd h hfits

theorem wrote_emitAll (hns : ∀ n ∈ ns, n.body.length ≤ Frame.maxLength)
    (hroom : w.sink.room = some size) : Wrote ns size w (emitAll ns w) := by
  induction ns generalizing w size with
  | nil => exact .nothing hroom
  | cons n ns ih =>
    have hone := (wrote_emit (hns n List.mem_cons_self) hroom).1
    exact hone.append (ih (fun k hk => hns k (List.mem_cons_of_mem _ hk)) hone.room)

/-- A notification gets through if its frame fits and its flush is none of those that fail. -/
theorem emit_eq_ok_iff (hn : n.body.length ≤ Frame.maxLength) (hroom : w.sink.room = some size) :
    (∃ v, Notifier.emit n w = .ok () v) ↔
      (Frame.encode n.body).length ≤ size ∧ w.sink.flushes + 1 ∉ w.sink.failingFlushes := by
  by_cases hfits : (Frame.encode n.body).length ≤ size
  · rw [emit_fitting hn hroom hfits]
    by_cases hflush : w.sink.flushes + 1 ∈ w.sink.failingFlushes
    · simp only [hflush, ↓reduceIte, reduceCtorEq, exists_false, not_true_eq_false, and_false]
    · simp only [hflush, ↓reduceIte, hfits, not_false_eq_true, and_self, iff_true]
      exact ⟨_, rfl⟩
  · rw [emit_cut hn hroom hfits]
    simp only [reduceCtorEq, exists_false, hfits, false_and]

theorem emitAll_concat (past : List Notification) (n : Notification) (w : FrameWriter) :
    emitAll (past ++ [n]) w = endState (Notifier.emit n) (emitAll past w) := by
  rw [emitAll, List.foldl_append]
  rfl

/-- One more frame fits into what is left if all of them fit together. -/
theorem fits_iff (past : List Notification) (n : Notification) :
    (Frame.encode n.body).length ≤ size - (frames past).length ↔
      (frames (past ++ [n])).length ≤ size := by
  have hpos := Frame.length_encode n.body
  rw [frames_append, frames_singleton, List.length_append]
  omega

/-- What is in a sink with so much room after some notifications, what came of each of them, and
what the bytes are read back as. -/
structure Delivery (ns : List Notification) (size : Nat) (w : FrameWriter) : Prop where
  contents : (emitAll ns w).sink.contents =
    w.sink.contents ++ (frames ns).take (min size (frames ns).length)
  ok_iff : ∀ {past n}, past ++ [n] <+: ns →
    ((∃ v, Notifier.emit n (emitAll past w) = .ok () v) ↔
      (frames (past ++ [n])).length ≤ size ∧
        w.sink.flushes + past.length + 1 ∉ w.sink.failingFlushes)
  flushes : ∀ {past n}, past ++ [n] <+: ns →
    (emitAll (past ++ [n]) w).sink.flushes =
      (emitAll past w).sink.flushes + if (frames (past ++ [n])).length ≤ size then 1 else 0
  inTurn : ∀ {past n left t}, past ++ [n] <+: ns →
    Sink.TakesInTurn (Frame.encode n.body) (emitAll past w).sink left t →
      t.contents = (emitAll (past ++ [n]) w).sink.contents ∧
        (left = [] ↔ (frames (past ++ [n])).length ≤ size)
  parses : ∃ written whole tail, (emitAll ns w).sink.contents = w.sink.contents ++ written ∧
    Cut Frame.encode (ns.map Notification.body) written whole tail ∧ Frame.split written = (whole, tail)

/-- Whatever room there is in the sink and whichever flushes fail, it takes the frames up to where
it is full, and no failure disturbs what follows. -/
theorem frames_survive_failures (ns : List Notification) (hns : ∀ n ∈ ns, n.body.length < 2 ^ 32)
    (hroom : w.sink.room = some size) : Delivery ns size w := by
  have hmax : ∀ n ∈ ns, n.body.length ≤ Frame.maxLength := fun n hn => Nat.le_of_lt_succ (hns n hn)
  have hlast : ∀ {past n}, past ++ [n] <+: ns → n.body.length ≤ Frame.maxLength := fun h =>
    hmax _ (h.subset (List.mem_append_right _ (List.mem_singleton_self _)))
  have hpast : ∀ {past n}, past ++ [n] <+: ns → Wrote past size w (emitAll past w) := fun h =>
    wrote_emitAll (fun k hk => hmax k (h.subset (List.mem_append_left _ hk))) hroom
  constructor
  case contents =>
    rw [(wrote_emitAll hmax hroom).contents, ← List.take_eq_take_min]
  case ok_iff =>
    intro past n h
    have hwrote := hpast h
    rw [emit_eq_ok_iff (hlast h) hwrote.room, fits_iff, hwrote.failingFlushes]
    refine and_congr_right fun hfits => ?_
    rw [frames_append, List.length_append] at hfits
    rw [hwrote.flushes (Nat.le_of_add_right_le hfits)]
  case flushes =>
    intro past n h
    rw [emitAll_concat, (wrote_emit (hlast h) (hpast h).room).2]
    simp only [fits_iff]
  case inTurn =>
    intro past n left t h hturns
    have hone := (wrote_emit (hlast h) (hpast h).room).1
    obtain ⟨hcontents, hleft⟩ := hturns.contents (hpast h).room
    rw [hcontents, emitAll_concat, hone.contents, frames_singleton, hleft, List.drop_eq_nil_iff,
      fits_iff]
    exact ⟨rfl, Iff.rfl⟩
  case parses =>
    obtain ⟨whole, tail, hcut⟩ := exists_cut Frame.encode (ns.map Notification.body) size
    refine ⟨_, whole, tail, (wrote_emitAll hmax hroom).contents, hcut,
      Frame.split_cut hcut fun body hbody => ?_⟩
    obtain ⟨n, hn, rfl⟩ := List.mem_map.1 hbody
    exact hmax n hn

theorem frames_survive_failures_of_two :
    let ns : List Notification := [.consuming, .assigned [⟨"é", 0⟩], .caughtUp, .consuming]
    let w : FrameWriter := ⟨{ room := some 100, failingFlushes := [1] }⟩
    (∀ n ∈ ns, n.body.length < 2 ^ 32) ∧ w.sink.room = some 100 ∧ Delivery ns 100 w ∧
      (frames (ns.take 2)).length = 91 ∧ (emitAll ns w).sink.flushes = 2 := by
  intro ns w
  have hns : ∀ n ∈ ns, n.body.length < 2 ^ 32 := by decide +kernel
  exact ⟨hns, rfl, frames_survive_failures ns hns rfl, by decide +kernel, by decide +kernel⟩

end FrameWriter

end AckRelay
