import AckRelay.Host.Frame
import AckRelay.Proofs.Cut

namespace AckRelay.Frame

variable {body bs rest tail : List UInt8} {bodies whole : List (List UInt8)} {n : Nat}

theorem length_encode (body : List UInt8) : (encode body).length = body.length + 4 := by
  rw [encode, List.length_append, Nat.add_comm]
  rfl

theorem readLength?_lengthBytes (hn : n ≤ maxLength) (bs : List UInt8) :
    readLength? (lengthBytes n ++ bs) = some (n, bs) := by
  have hmax : n < 4294967296 := Nat.lt_succ_of_le hn
  have hvalue : ((n / 16777216 % 256 * 256 + n / 65536 % 256) * 256 + n / 256 % 256) * 256 +
      n % 256 = n := by omega
  have hbyte : ∀ m, (UInt8.ofNat (m % 256)).toNat = m % 256 := fun m => by
    rw [UInt8.toNat_ofNat', Nat.mod_mod]
  simp only [lengthBytes, List.cons_append, List.nil_append, readLength?, hbyte, hvalue]

theorem eq_of_readLength? (h : readLength? bs = some (n, tail)) :
    n ≤ maxLength ∧ bs = lengthBytes n ++ tail := by
  match bs, h with
  | a :: b :: c :: d :: rest, h =>
    simp only [readLength?, Option.some.injEq, Prod.mk.injEq] at h
    obtain ⟨rfl, rfl⟩ := h
    have ha := a.toNat_lt
    have hb := b.toNat_lt
    have hc := c.toNat_lt
    have hd := d.toNat_lt
    have hmax : maxLength = 4294967295 := rfl
    refine ⟨by omega, ?_⟩
    have hbytes : ∀ (x : UInt8) (m : Nat), m % 256 = x.toNat → UInt8.ofNat (m % 256) = x := by
      intro x m hm
      rw [hm, UInt8.ofNat_toNat]
    simp only [lengthBytes, List.cons_append, List.nil_append, List.cons.injEq, and_true]
    exact ⟨(hbytes a _ (by omega)).symm, (hbytes b _ (by omega)).symm, (hbytes c _ (by omega)).symm,
      (hbytes d _ (by omega)).symm⟩

theorem readLength?_append (h : readLength? bs = some (n, tail)) (more : List UInt8) :
    readLength? (bs ++ more) = some (n, tail ++ more) := by
  obtain ⟨hn, rfl⟩ := eq_of_readLength? h
  rw [List.append_assoc, readLength?_lengthBytes hn]

theorem length_of_readLength? (h : readLength? bs = some (n, tail)) :
    bs.length = tail.length + 4 := by
  obtain ⟨-, rfl⟩ := eq_of_readLength? h
  rw [List.length_append, Nat.add_comm]
  rfl

theorem next?_encode (h : body.length ≤ maxLength) (bs : List UInt8) :
    next? (encode body ++ bs) = some (body, bs) := by
  have hlength : body.length ≤ (body ++ bs).length := by
    rw [List.length_append]
    omega
  rw [next?, encode, List.append_assoc, readLength?_lengthBytes h]
  simp only [Option.bind_eq_bind, Option.bind_some, hlength, ↓reduceIte, List.take_left,
    List.drop_left]

/-- The frames of some bodies are split into these, given as many steps as there are frames. -/
theorem splitUpTo_encode (h : ∀ body ∈ bodies, body.length ≤ maxLength) (hrest : next? rest = none)
    {fuel : Nat} (hfuel : bodies.length ≤ fuel) :
    splitUpTo fuel ((bodies.map encode).flatten ++ rest) = (bodies, rest) := by
  induction bodies generalizing fuel with
  | nil =>
    cases fuel with
    | zero => rfl
    | succ fuel => simp [splitUpTo, hrest]
  | cons body bodies ih =>
    cases fuel with
    | zero => cases hfuel
    | succ fuel =>
      have hbody := h body List.mem_cons_self
      have hbodies := ih (fun b hb => h b (List.mem_cons_of_mem _ hb))
        (Nat.le_of_succ_le_succ hfuel)
      rw [List.map_cons, List.flatten_cons, List.append_assoc, splitUpTo, next?_encode hbody]
      simp only [hbodies]

/-- There are no more frames than bytes. -/
theorem length_le_frames (bodies : List (List UInt8)) :
    bodies.length ≤ (bodies.map encode).flatten.length := by
  induction bodies with
  | nil => exact Nat.le_refl _
  | cons body bodies ih =>
    have hlength := length_encode body
    rw [List.map_cons, List.flatten_cons, List.length_append, List.length_cons]
    omega

/-- Complete frames are split with nothing left over. -/
theorem split_encode (h : ∀ body ∈ bodies, body.length ≤ maxLength) :
    split (bodies.map encode).flatten = (bodies, []) := by
  have hnone : next? [] = none := rfl
  have hsplit := splitUpTo_encode h hnone (length_le_frames bodies)
  rwa [List.append_nil] at hsplit

/-- There is no frame at the front of bytes that are only the beginning of one. -/
theorem next?_eq_none (hbody : body.length ≤ maxLength) (hbs : bs <+: encode body)
    (hne : bs ≠ encode body) : next? bs = none := by
  obtain ⟨more, hmore⟩ := hbs
  rw [next?]
  cases hread : readLength? bs with
  | none => rfl
  | some p =>
    obtain ⟨n, rest⟩ := p
    have hwhole := readLength?_append hread more
    rw [hmore, encode, readLength?_lengthBytes hbody] at hwhole
    obtain ⟨rfl, rfl⟩ := Prod.mk.inj (Option.some.inj hwhole)
    have hmissing : more ≠ [] := by
      rintro rfl
      exact hne ((List.append_nil bs).symm.trans hmore)
    have hshort : ¬(rest ++ more).length ≤ rest.length := by
      have hpos := List.length_pos_iff.2 hmissing
      rw [List.length_append]
      omega
    simp only [Option.bind_eq_bind, Option.bind_some, hshort, ↓reduceIte]

/-- Frames of which the last one is torn are split where that one begins. -/
theorem split_cut (h : Cut encode bodies bs whole tail)
    (hbodies : ∀ body ∈ bodies, body.length ≤ maxLength) : split bs = (whole, tail) := by
  have hwhole : ∀ body ∈ whole, body.length ≤ maxLength :=
    fun body hbody => hbodies body (h.isPrefix.subset hbody)
  have htail : next? tail = none := by
    obtain rfl | ⟨body, hfirst, htail, hne⟩ := h.torn
    · rfl
    · have hmem : body ∈ whole ++ [body] := List.mem_append_right _ (List.mem_singleton_self body)
      exact next?_eq_none (hbodies body (hfirst.subset hmem)) htail hne
  have hfuel : whole.length ≤ bs.length := by
    have hframes : whole.length ≤ (whole.flatMap encode).length := length_le_frames whole
    rw [h.eq_append, List.length_append]
    omega
  have hsplit := splitUpTo_encode hwhole htail hfuel
  rwa [← List.flatMap_def, ← h.eq_append] at hsplit

end AckRelay.Frame
