import AckRelay.Json.Tagged
import AckRelay.Proofs.Json.Values

namespace AckRelay.Json

open Grammar

variable {α : Type} {known : String → Option α} {a : α} {bs cs ds rest : List UInt8} {levels : Nat}
  {first : Bool}

theorem readTag_of_letters {tag : String} (hb : Blanks bs (Ascii.quote :: cs))
    (h : Letters cs tag.toList rest) (hknown : known tag = some a) :
    readTag known bs = .ok (a, rest) := by
  have htext : readText bs = .ok (tag, rest) := by
    rw [readText, skipBlank_of_blanks hb (free_cons rfl)]
    exact (if_pos rfl).trans (string_eq_ok.2 h)
  refine bind_eq_ok.2 ⟨(tag, rest), htext, ?_⟩
  simp only [hknown]

/-- After the tag the members are read as they are, if none of them is a tag again. -/
theorem taggedMembers_of_members {ms : List (String × Json)} {read : List (String × Json)}
    (fuel : Nat) (h : Members Numeral.Fits first levels bs ms rest)
    (hkeys : ∀ m ∈ ms, m.1 ≠ tagKey) (hfuel : bs.length < fuel) :
    taggedMembers known levels fuel first (some a) read bs =
      .ok (a, .members (read.reverse ++ ms), rest) := by
  induction ms generalizing fuel first read bs with
  | nil =>
    obtain ⟨n, rfl⟩ := Nat.exists_eq_add_of_lt (Nat.lt_of_le_of_lt (Nat.zero_le _) hfuel)
    cases h with
    | closed hb =>
      rw [Nat.zero_add, taggedMembers]
      refine bind_eq_ok.2 ⟨_, nextKey_closed.2 hb, ?_⟩
      rw [List.append_nil]
  | cons m ms ih =>
    obtain ⟨n, rfl⟩ := Nat.exists_eq_add_of_lt (Nat.lt_of_le_of_lt (Nat.zero_le _) hfuel)
    cases h with
    | @member _ _ _ _ _ _ _ _ _ key v _ hl hk hc hb hv h =>
      have hlead := hl.length_le
      have hkey := hk.length_lt
      have hcolon := hc.length_le
      have hblanks := hb.length_le
      have hvalue := hv.length_lt
      rw [List.length_cons] at hlead hcolon
      have hne : key ≠ tagKey := hkeys (key, v) List.mem_cons_self
      rw [Nat.zero_add, taggedMembers]
      refine bind_eq_ok.2 ⟨_, nextKey_more.2 hl, ?_⟩
      refine bind_eq_ok.2 ⟨_, string_eq_ok.2 hk, ?_⟩
      simp only [hne, ↓reduceIte]
      refine bind_eq_ok.2 ⟨_, colon_eq_ok.2 hc, ?_⟩
      refine bind_eq_ok.2 ⟨_, next_of_grammar hb hv (free_of_members h), ?_⟩
      simp only
      rw [ih n h (fun k hk => hkeys k (List.mem_cons_of_mem _ hk)) (by omega), List.reverse_cons,
        List.append_assoc, List.singleton_append]

/-- A document of an object that begins with its only tag is read as a tagged message. -/
theorem parseTagged_of_document {β : Type} {build : α → Body → Option β} {b : β} {tag : String}
    {ms : List (String × Json)}
    (h : Document Numeral.Fits bs (.object ((tagKey, .text tag) :: ms)))
    (hkeys : ∀ m ∈ ms, m.1 ≠ tagKey) (hknown : known tag = some a)
    (hbuild : build a (.members ms) = some b) : parseTagged known build bs = .ok b := by
  obtain ⟨cs, ds, hb, hv, he⟩ := h
  obtain ⟨n, inner, hlevels, rfl, hms⟩ := members_of_value hv
  have htagged : readTagged known bs = .ok (a, .members ms, ds) := by
    rw [readTagged, skipBlank_of_blanks hb (free_cons rfl)]
    simp only [↓reduceIte]
    rw [taggedMembers]
    cases hms with
    | @member _ _ _ _ _ _ _ _ _ _ _ _ hl hk hc hb' hv' h =>
      obtain ⟨text, rfl, htext⟩ := letters_of_value hv'
      have hlead := hl.length_le
      have hkey := hk.length_lt
      have hcolon := hc.length_le
      have hblanks := hb'.length_le
      have hvalue := hv'.length_lt
      rw [List.length_cons] at hlead hcolon
      refine bind_eq_ok.2 ⟨_, nextKey_more.2 hl, ?_⟩
      refine bind_eq_ok.2 ⟨_, string_eq_ok.2 hk, ?_⟩
      simp only [↓reduceIte, Option.isSome_none, Bool.false_eq_true]
      refine bind_eq_ok.2 ⟨_, colon_eq_ok.2 hc, ?_⟩
      refine bind_eq_ok.2 ⟨_, readTag_of_letters hb' htext hknown, ?_⟩
      simp only
      have hn : n = maxLevels - 1 := by rw [hlevels, Nat.add_sub_cancel]
      rw [← hn, taggedMembers_of_members _ h hkeys (by omega)]
      rfl
  refine bind_eq_ok.2 ⟨_, htagged, ?_⟩
  simp only [hbuild]
  exact bind_eq_ok.2 ⟨(), finish_eq_ok.2 he, rfl⟩

end AckRelay.Json
