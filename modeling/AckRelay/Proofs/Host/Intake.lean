import AckRelay.Proofs.Host.Frame
import AckRelay.Session.Run
import Mathlib.Data.List.Basic

/-!
The commands of a stream, however it is cut into chunks: those of its complete frames in order, and
a last one that depends only on the bytes that are left over (`commands_of_stream`).
-/

namespace AckRelay

/-- The stream consists of frames with these bodies, none of them longer than the limit, and of what
does not begin with one more of such frames. -/
structure Framed (limit : Nat) (stream : List UInt8) (bodies : List (List UInt8))
    (rest : List UInt8) : Prop where
  eq : stream = (bodies.map Frame.encode).flatten ++ rest
  permitted : ∀ body ∈ bodies, body.length ≤ limit ∧ body.length ≤ Frame.maxLength
  complete : ∀ body more, body.length ≤ Frame.maxLength → rest = Frame.encode body ++ more →
    limit < body.length

namespace Framed

variable {limit : Nat} {stream rest more : List UInt8} {bodies : List (List UInt8)}

theorem append {bodies' : List (List UInt8)} {stream' : List UInt8}
    (h : Framed limit (more ++ stream') bodies' rest)
    (heq : stream = (bodies.map Frame.encode).flatten ++ more)
    (hpermitted : ∀ body ∈ bodies, body.length ≤ limit ∧ body.length ≤ Frame.maxLength) :
    Framed limit (stream ++ stream') (bodies ++ bodies') rest where
  eq := by
    rw [heq, List.append_assoc, h.eq, List.map_append, List.flatten_append, List.append_assoc]
  permitted b hb := (List.mem_append.1 hb).elim (hpermitted b) (h.permitted b)
  complete := h.complete

/-- A stream is of one such form only. -/
theorem unique {bodies' : List (List UInt8)} {rest' : List UInt8}
    (h : Framed limit stream bodies rest) (h' : Framed limit stream bodies' rest') :
    bodies = bodies' ∧ rest = rest' := by
  -- by induction on the frames of the one form: the other one has the same first frame
  induction bodies generalizing stream bodies' with
  | nil =>
    cases bodies' with
    | nil => exact ⟨rfl, h.eq.symm.trans h'.eq⟩
    | cons body bodies' =>
      obtain ⟨hlimit, hmax⟩ := h'.permitted body List.mem_cons_self
      have heq := h.eq.symm.trans h'.eq
      rw [List.map_cons, List.flatten_cons, List.append_assoc] at heq
      exact absurd hlimit (Nat.not_le.2 (h.complete body _ hmax heq))
  | cons body bodies ih =>
    obtain ⟨hlimit, hmax⟩ := h.permitted body List.mem_cons_self
    have heq := h.eq.symm.trans h'.eq
    rw [List.map_cons, List.flatten_cons, List.append_assoc] at heq
    cases bodies' with
    | nil => exact absurd hlimit (Nat.not_le.2 (h'.complete body _ hmax heq.symm))
    | cons body' bodies' =>
      have hmax' := (h'.permitted body' List.mem_cons_self).2
      rw [List.map_cons, List.flatten_cons, List.append_assoc] at heq
      have hnext := congrArg Frame.next? heq
      rw [Frame.next?_encode hmax, Frame.next?_encode hmax'] at hnext
      obtain ⟨rfl, hstream⟩ := Prod.mk.inj (Option.some.inj hnext)
      have hrest := ih
        ⟨rfl, fun b hb => h.permitted b (List.mem_cons_of_mem _ hb), h.complete⟩
        ⟨hstream, fun b hb => h'.permitted b (List.mem_cons_of_mem _ hb), h'.complete⟩
      exact ⟨congrArg _ hrest.1, hrest.2⟩

/-- A length that is announced and not there yet, or too short for one. -/
theorem of_incomplete (hshort : ∀ n tail, Frame.readLength? stream = some (n, tail) →
    limit < n ∨ tail.length < n) : Framed limit stream [] stream where
  eq := rfl
  permitted b hb := by cases hb
  complete body more hmax heq := by
    rw [Frame.encode, List.append_assoc] at heq
    have hread := Frame.readLength?_lengthBytes hmax (body ++ more)
    rw [← heq] at hread
    rcases hshort _ _ hread with hlong | hshort
    · exact hlong
    · rw [List.length_append] at hshort
      omega

end Framed

namespace Intake

variable {s t : Intake} {limit : Nat} {stream rest : List UInt8} {bodies : List (List UInt8)}

/-- The bytes that are read and not yet part of a command, with the length that was taken out. -/
def pending (s : Intake) : List UInt8 :=
  s.announced.elim s.buffer fun n => Frame.lengthBytes n ++ s.buffer

def Permits (s : Intake) : Prop := ∀ n, s.announced = some n → n ≤ s.limit ∧ n ≤ Frame.maxLength

def Waits (s : Intake) : Prop :=
  match s.announced with
  | none => Frame.readLength? s.buffer = none
  | some n => s.buffer.length < n

def lastOf (limit : Nat) (rest : List UInt8) : Command :=
  match Frame.readLength? rest with
  | some (n, tail) =>
    if limit < n then refusal .tooBig else if tail = [] then .stop else refusal .cutOff
  | none => if rest = [] then .stop else refusal .cutOff

theorem readLength?_pending (hs : s.Permits) {n : Nat} (hn : s.announced = some n) :
    Frame.readLength? s.pending = some (n, s.buffer) := by
  rw [pending, hn]
  exact Frame.readLength?_lengthBytes (hs n hn).2 s.buffer

theorem framed_of_waits (hs : s.Permits) (hw : s.Waits) :
    Framed s.limit s.pending [] s.pending := by
  refine Framed.of_incomplete fun n tail hread => ?_
  cases hn : s.announced with
  | none =>
    rw [Waits, hn] at hw
    rw [pending, hn] at hread
    exact absurd (hw.symm.trans hread) (by simp)
  | some m =>
    rw [Waits, hn] at hw
    rw [readLength?_pending hs hn] at hread
    cases hread
    exact Or.inr hw

theorem finish_eq (hs : s.Permits) (hw : s.Waits) : s.finish = lastOf s.limit s.pending := by
  rw [finish, lastOf]
  cases hn : s.announced with
  | none =>
    rw [Waits, hn] at hw
    have hpending : s.pending = s.buffer := by rw [pending, hn]; rfl
    rw [hpending, hw]
  | some n =>
    have hlimit : ¬s.limit < n := Nat.not_lt.2 (hs n hn).1
    rw [readLength?_pending hs hn]
    simp only [hlimit, ↓reduceIte]

structure Drained (s : Intake) (commands : List Command) (fault : Option Fault) (t : Intake)
    (bodies : List (List UInt8)) (rest : List UInt8) : Prop where
  commands : commands = bodies.map Command.decode
  pending : s.pending = (bodies.map Frame.encode).flatten ++ rest
  permitted : ∀ body ∈ bodies, body.length ≤ s.limit ∧ body.length ≤ Frame.maxLength
  goes : fault = none → t.limit = s.limit ∧ t.Permits ∧ t.Waits ∧ rest = t.pending
  stops : ∀ f, fault = some f → f = .tooBig ∧ ∃ n tail, Frame.readLength? rest = some (n, tail) ∧
    s.limit < n

theorem drained_of_waits (hs : s.Permits) (hw : s.Waits) : Drained s [] none s [] s.pending where
  commands := rfl
  pending := rfl
  permitted b hb := by cases hb
  goes _ := ⟨rfl, hs, hw, rfl⟩
  stops f hf := by cases hf

/-- Only the pending bytes and the limit matter. -/
theorem Drained.of_pending {u : Intake} {commands : List Command} {fault : Option Fault}
    {bodies : List (List UInt8)} {rest : List UInt8} (h : Drained u commands fault t bodies rest)
    (hpending : u.pending = s.pending) (hlimit : u.limit = s.limit) :
    Drained s commands fault t bodies rest where
  commands := h.commands
  pending := hpending.symm.trans h.pending
  permitted := hlimit ▸ h.permitted
  goes := hlimit ▸ h.goes
  stops := hlimit ▸ h.stops

def afterFrame (n : Nat) (s : Intake) : Intake :=
  { s with buffer := s.buffer.drop n, announced := none }

/-- The frame of an announced length, in front of what follows it. -/
theorem Drained.cons {n : Nat} {commands : List Command} {fault : Option Fault}
    {bodies : List (List UInt8)} {rest : List UInt8} (hs : s.Permits) (hn : s.announced = some n)
    (hlength : n ≤ s.buffer.length)
    (h : Drained (s.afterFrame n) commands fault t bodies rest) :
    Drained s (Command.decode (s.buffer.take n) :: commands) fault t
      (s.buffer.take n :: bodies) rest where
  commands := by rw [h.commands, List.map_cons]
  pending := by
    have hbody : (s.buffer.take n).length = n := List.length_take_of_le hlength
    have hnext : s.buffer.drop n = (bodies.map Frame.encode).flatten ++ rest := h.pending
    have hhere : s.pending = Frame.lengthBytes n ++ s.buffer := by rw [Intake.pending, hn]; rfl
    rw [List.map_cons, List.flatten_cons, List.append_assoc, ← hnext, Frame.encode, hbody,
      List.append_assoc, List.take_append_drop, hhere]
  permitted := by
    refine List.forall_mem_cons.2 ⟨?_, h.permitted⟩
    rw [List.length_take_of_le hlength]
    exact hs n hn
  goes := h.goes
  stops := h.stops

/-- A length that is taken out of the buffer still counts as pending. -/
theorem announce_ok (hs : s.Permits) (h : announce s = .ok t) :
    t.limit = s.limit ∧ t.Permits ∧ t.pending = s.pending ∧
      t.buffer.length + t.announced.toList.length ≤
        s.buffer.length + s.announced.toList.length ∧
      (t.announced = none → Frame.readLength? t.buffer = none) := by
  rw [announce] at h
  split at h
  next n tail hn hread =>
    split at h
    next hle =>
      cases h
      obtain ⟨hmax, heq⟩ := Frame.eq_of_readLength? hread
      have hlength := Frame.length_of_readLength? hread
      refine ⟨rfl, fun m hm => ?_, ?_, ?_, nofun⟩
      · cases hm
        exact ⟨hle, hmax⟩
      · rw [pending, pending, hn]
        exact heq.symm
      · simp only [hn, Option.toList_some, Option.toList_none, List.length_cons, List.length_nil]
        omega
    next => cases h
  next hnone =>
    cases h
    refine ⟨rfl, hs, rfl, Nat.le_refl _, fun hn => ?_⟩
    cases hread : Frame.readLength? s.buffer with
    | none => rfl
    | some read => exact (hnone read.1 read.2 hn hread).elim

/-- Only a length above the limit is refused. -/
theorem announce_error {f : Fault} (h : announce s = .error f) :
    f = .tooBig ∧ ∃ n tail, Frame.readLength? s.pending = some (n, tail) ∧ s.limit < n := by
  rw [announce] at h
  split at h
  next n tail hn hread =>
    split at h
    next => cases h
    next hlong =>
      cases h
      refine ⟨rfl, n, tail, ?_, Nat.not_le.1 hlong⟩
      rw [pending, hn]
      exact hread
  next => cases h

theorem drain_of_complete {u : Intake} {n : Nat} (h : announce s = .ok u)
    (hn : u.announced = some n) (hlength : n ≤ u.buffer.length) (fuel : Nat) :
    drain (fuel + 1) s =
      (Command.decode (u.buffer.take n) :: (drain fuel (u.afterFrame n)).1,
        (drain fuel (u.afterFrame n)).2) := by
  simp only [drain, h, body?, hn, hlength, ↓reduceIte, afterFrame]

theorem drain_of_short {u : Intake} (h : announce s = .ok u)
    (hshort : ∀ n, u.announced = some n → u.buffer.length < n) (fuel : Nat) :
    drain (fuel + 1) s = ([], none, u) := by
  have hbody : body? u = none := by
    rw [body?]
    cases hn : u.announced with
    | none => rfl
    | some n => exact if_neg (Nat.not_le.2 (hshort n hn))
  simp only [drain, h, hbody]

/-- The pending bytes are drained, if there is fuel for each of them and for an announced frame. -/
theorem exists_drained {fuel : Nat} (hs : s.Permits)
    (hfuel : s.buffer.length + s.announced.toList.length ≤ fuel) :
    ∃ bodies rest,
      Drained s (drain fuel s).1 (drain fuel s).2.1 (drain fuel s).2.2 bodies rest := by
  induction fuel generalizing s with
  | zero =>
    have hbuffer : s.buffer = [] := List.length_eq_zero_iff.1 (by omega)
    have hnone : s.announced = none := by
      cases hn : s.announced with
      | none => rfl
      | some n =>
        rw [hn] at hfuel
        cases hfuel
    refine ⟨[], s.pending, drained_of_waits hs ?_⟩
    rw [Waits, hnone, hbuffer]
    rfl
  | succ fuel ih =>
    cases hannounce : announce s with
    | error f =>
      refine ⟨[], s.pending, ?_⟩
      simp only [drain, hannounce]
      exact ⟨rfl, rfl, nofun, nofun, fun _ hf => Option.some.inj hf ▸ announce_error hannounce⟩
    | ok u =>
      obtain ⟨hlimit, hpermits, hpending, hlength, hnone⟩ := announce_ok hs hannounce
      by_cases hcomplete : ∃ n, u.announced = some n ∧ n ≤ u.buffer.length
      · obtain ⟨n, hn, hn'⟩ := hcomplete
        have hless : (u.afterFrame n).buffer.length + 0 ≤ fuel := by
          simp only [hn, Option.toList_some, List.length_cons, List.length_nil] at hlength
          rw [afterFrame, List.length_drop]
          omega
        obtain ⟨bodies, rest, h⟩ := ih (s := u.afterFrame n) nofun hless
        rw [drain_of_complete hannounce hn hn']
        exact ⟨_, rest, (h.cons hpermits hn hn').of_pending hpending hlimit⟩
      · have hshort : ∀ n, u.announced = some n → u.buffer.length < n := fun n hn =>
          Nat.not_le.1 fun hle => hcomplete ⟨n, hn, hle⟩
        have hwaits : u.Waits := by
          rw [Waits]
          split
          next hn => exact hnone hn
          next n hn => exact hshort n hn
        rw [drain_of_short hannounce hshort]
        exact ⟨[], u.pending, (drained_of_waits hpermits hwaits).of_pending hpending hlimit⟩

/-- A chunk is put behind the bytes that are pending. -/
theorem exists_drained_feed (hs : s.Permits) (chunk : List UInt8) :
    ∃ bodies rest, Drained { s with buffer := s.buffer ++ chunk } (s.feed chunk).1
      (s.feed chunk).2.1 (s.feed chunk).2.2 bodies rest := by
  refine exists_drained hs (Nat.add_le_add_left ?_ _)
  cases s.announced with
  | none => exact Nat.zero_le 1
  | some n => exact Nat.le_refl 1

theorem pending_extended (s : Intake) (chunk : List UInt8) :
    ({ s with buffer := s.buffer ++ chunk } : Intake).pending = s.pending ++ chunk := by
  cases hn : s.announced with
  | none => simp only [pending, hn, Option.elim_none]
  | some n => simp only [pending, hn, Option.elim_some, List.append_assoc]

/-- The commands are those of the complete frames, and one for what is left over. -/
theorem exists_framed (hs : s.Permits) (hw : s.Waits) (chunks : List (List UInt8)) :
    ∃ bodies rest, Framed s.limit (s.pending ++ chunks.flatten) bodies rest ∧
      commands chunks s = bodies.map Command.decode ++ [lastOf s.limit rest] := by
  induction chunks generalizing s with
  | nil =>
    refine ⟨[], s.pending, ?_, ?_⟩
    · rw [List.flatten_nil, List.append_nil]
      exact framed_of_waits hs hw
    · rw [commands, finish_eq hs hw]
      rfl
  | cons chunk chunks ih =>
    obtain ⟨bodies, rest, h⟩ := exists_drained_feed hs chunk
    have hpending := (pending_extended s chunk).symm.trans h.pending
    rw [commands, List.flatten_cons, ← List.append_assoc]
    generalize s.feed chunk = fed at h
    obtain ⟨cs, fault, t⟩ := fed
    cases fault with
    | none =>
      obtain ⟨hlimit, ht, hwt, rfl⟩ := h.goes rfl
      obtain ⟨bodies', rest', hframed, hcommands⟩ := ih ht hwt
      rw [hlimit] at hframed hcommands
      have hcs : cs = bodies.map Command.decode := h.commands
      refine ⟨bodies ++ bodies', rest', hframed.append hpending h.permitted, ?_⟩
      simp only [hcommands, hcs, List.map_append, List.append_assoc]
    | some f =>
      obtain ⟨rfl, n, tail, hread, hlong⟩ := h.stops f rfl
      have hstill := Frame.readLength?_append hread chunks.flatten
      have hrest : Framed s.limit (rest ++ chunks.flatten) [] (rest ++ chunks.flatten) := by
        refine Framed.of_incomplete fun m tail' hm => ?_
        rw [hstill] at hm
        cases hm
        exact Or.inl hlong
      have hcs : cs = bodies.map Command.decode := h.commands
      refine ⟨bodies ++ [], _, hrest.append hpending h.permitted, ?_⟩
      simp only [hcs, List.append_nil, lastOf, hstill, hlong, ↓reduceIte]

/-- Beside the end of a frame, also the end of an announced length passes for the end of the
stream. -/
theorem lastOf_eq_stop_iff (h : Framed limit stream bodies rest) :
    lastOf limit rest = .stop ↔
      rest = [] ∨ ∃ n, 0 < n ∧ n ≤ limit ∧ n ≤ Frame.maxLength ∧ rest = Frame.lengthBytes n := by
  constructor
  · intro hstop
    rw [lastOf] at hstop
    cases hread : Frame.readLength? rest with
    | none =>
      rw [hread] at hstop
      by_cases hrest : rest = []
      · exact Or.inl hrest
      · simp only [hrest, ↓reduceIte] at hstop
        cases hstop
    | some read =>
      obtain ⟨n, tail⟩ := read
      obtain ⟨hmax, heq⟩ := Frame.eq_of_readLength? hread
      simp only [hread] at hstop
      by_cases hlong : limit < n
      · simp only [hlong, ↓reduceIte] at hstop
        cases hstop
      · by_cases htail : tail = []
        · rw [htail, List.append_nil] at heq
          refine Or.inr ⟨n, Nat.pos_of_ne_zero fun hzero => ?_, Nat.not_lt.1 hlong, hmax, heq⟩
          have hempty := h.complete [] [] (Nat.zero_le _) (by rw [heq, hzero]; rfl)
          exact absurd hempty (Nat.not_lt_zero _)
        · simp only [hlong, htail, ↓reduceIte] at hstop
          cases hstop
  · rintro (rfl | ⟨n, -, hlimit, hmax, rfl⟩)
    · rfl
    · have hread := Frame.readLength?_lengthBytes hmax []
      rw [List.append_nil] at hread
      simp only [lastOf, hread, Nat.not_lt.2 hlimit, ↓reduceIte]

theorem lastOf_eq_tooBig_iff :
    lastOf limit rest = refusal .tooBig ↔
      ∃ n tail, limit < n ∧ n ≤ Frame.maxLength ∧ rest = Frame.lengthBytes n ++ tail := by
  constructor
  · intro hlast
    rw [lastOf] at hlast
    cases hread : Frame.readLength? rest with
    | none =>
      simp only [hread] at hlast
      split at hlast
      · cases hlast
      · exact absurd hlast (by decide)
    | some read =>
      obtain ⟨n, tail⟩ := read
      obtain ⟨hmax, heq⟩ := Frame.eq_of_readLength? hread
      simp only [hread] at hlast
      by_cases hlong : limit < n
      · exact ⟨n, tail, hlong, hmax, heq⟩
      · simp only [hlong, ↓reduceIte] at hlast
        split at hlast
        · cases hlast
        · exact absurd hlast (by decide)
  · rintro ⟨n, tail, hlong, hmax, rfl⟩
    simp only [lastOf, Frame.readLength?_lengthBytes hmax, hlong, ↓reduceIte]

theorem lastOf_cases (limit : Nat) (rest : List UInt8) :
    lastOf limit rest = .stop ∨ lastOf limit rest = refusal .tooBig ∨
      lastOf limit rest = refusal .cutOff := by
  rw [lastOf]
  split
  · split
    · exact Or.inr (Or.inl rfl)
    · split
      · exact Or.inl rfl
      · exact Or.inr (Or.inr rfl)
  · split
    · exact Or.inl rfl
    · exact Or.inr (Or.inr rfl)

end Intake

namespace Session

variable {κ : Type}

def receiveStream : List (List UInt8) → Session κ → Session κ
  | [], s => receive .endOfInput s
  | chunk :: chunks, s => receiveStream chunks (receive (.bytes chunk) s)

/-- Once nothing is read on, more bytes make no command. -/
theorem queue_receiveStream_of_none {s : Session κ} (hs : s.intake = none)
    (chunks : List (List UInt8)) : (receiveStream chunks s).relay.queue = s.relay.queue := by
  induction chunks generalizing s with
  | nil => simp only [receiveStream, receive, commandsOf, hs, Relay.await, List.append_nil]
  | cons chunk chunks ih =>
    have hnext : (receive (.bytes chunk) s).intake = none := by
      simp only [receive, commandsOf, hs]
    rw [receiveStream, ih hnext]
    simp only [receive, commandsOf, hs, Relay.await, List.append_nil]

/-- The commands of a stream wait for the relay, in order. -/
theorem queue_receiveStream {s : Session κ} {intake : Intake} (hs : s.intake = some intake)
    (chunks : List (List UInt8)) :
    (receiveStream chunks s).relay.queue = s.relay.queue ++ intake.commands chunks := by
  induction chunks generalizing s intake with
  | nil => simp only [receiveStream, receive, commandsOf, hs, Relay.await, Intake.commands]
  | cons chunk chunks ih =>
    rw [receiveStream, Intake.commands]
    rcases hfeed : intake.feed chunk with ⟨cs, _ | fault, t⟩
    · have hnext : (receive (.bytes chunk) s).intake = some t := by
        simp only [receive, commandsOf, hs, hfeed]
      rw [ih hnext]
      simp only [receive, commandsOf, hs, hfeed, Relay.await, List.append_assoc]
    · have hnext : (receive (.bytes chunk) s).intake = none := by
        simp only [receive, commandsOf, hs, hfeed]
      rw [queue_receiveStream_of_none hnext]
      simp only [receive, commandsOf, hs, hfeed, Relay.await]

/-- Of a stream, however it is cut into chunks, the relay gets the commands of its complete frames
and one more. That is to stop at the end of a frame, but also where just the length of a body is
there. -/
theorem commands_of_stream (s : Session κ) (limit : Nat) (chunks : List (List UInt8)) :
    ∃ bodies rest last, Framed limit chunks.flatten bodies rest ∧
      (∀ bodies' rest', Framed limit chunks.flatten bodies' rest' →
        bodies = bodies' ∧ rest = rest') ∧
      (receiveStream chunks { s with intake := some { limit } }).relay.queue =
        s.relay.queue ++ (bodies.map Command.decode ++ [last]) ∧
      (last = .stop ∨ last = Intake.refusal .tooBig ∨ last = Intake.refusal .cutOff) ∧
      (last = .stop ↔ rest = [] ∨
        ∃ n, 0 < n ∧ n ≤ limit ∧ n ≤ Frame.maxLength ∧ rest = Frame.lengthBytes n) ∧
      (last = Intake.refusal .tooBig ↔
        ∃ n tail, limit < n ∧ n ≤ Frame.maxLength ∧ rest = Frame.lengthBytes n ++ tail) := by
  obtain ⟨bodies, rest, hframed, hcommands⟩ :=
    Intake.exists_framed (s := { limit }) nofun rfl chunks
  refine ⟨bodies, rest, Intake.lastOf limit rest, hframed, fun _ _ => hframed.unique, ?_,
    Intake.lastOf_cases limit rest, Intake.lastOf_eq_stop_iff hframed, Intake.lastOf_eq_tooBig_iff⟩
  rw [queue_receiveStream rfl, hcommands]

/-- The length of a body that never comes passes for the end. -/
theorem missing_body_passes_for_the_end :
    Framed 8 [0, 0, 0, 1] [] [0, 0, 0, 1] ∧
      Intake.commands [[0, 0, 0, 1]] { limit := 8 } = [.stop] := by
  refine ⟨Framed.of_incomplete fun n tail hread => ?_, by decide⟩
  have hfour : Frame.readLength? [0, 0, 0, 1] = some (1, []) := rfl
  rw [hfour] at hread
  cases hread
  exact Or.inr Nat.zero_lt_one

end Session

end AckRelay
