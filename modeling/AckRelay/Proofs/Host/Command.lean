import AckRelay.Host.Command
import AckRelay.Proofs.Json.Fields
import AckRelay.Proofs.Json.Render

namespace AckRelay.Command

open Json (tagKey only? asText?_eq_some asInt32?_eq_some asInt64?_eq_some)
open Json.Grammar (Document)

def ackMembers (p : Position) : List (String × Json) :=
  [(tagKey, .text "ack"), ("topic", .text p.partition.topic),
    ("partition", .integer p.partition.number.toInt), ("offset", .integer p.offset.toInt)]

def ackKeys : List String := [tagKey, "topic", "partition", "offset"]

/-- A value that acknowledges a position: an object that has the members of an acknowledgement once
each, in any order and among any others, or the list of their values. -/
inductive Acknowledges : Json → Position → Prop
  | object {ms : List (String × Json)} {p : Position}
      (h : (ms.filter (fun m => m.1 ∈ ackKeys)).Perm (ackMembers p)) : Acknowledges (.object ms) p
  | list {p : Position} : Acknowledges (.list ((ackMembers p).map Prod.snd)) p

variable {ms : List (String × Json)} {p : Position} {v : Json}

/-- The four members occur once each just if each of the names finds its value. -/
theorem ackMembers_perm_iff : (ms.filter (fun m => m.1 ∈ ackKeys)).Perm (ackMembers p) ↔
    only? tagKey ms = some (.text "ack") ∧ only? "topic" ms = some (.text p.partition.topic) ∧
      only? "partition" ms = some (.integer p.partition.number.toInt) ∧
      only? "offset" ms = some (.integer p.offset.toInt) := by
  have hnodup : ((ackMembers p).map Prod.fst).Nodup := by
    have hkeys : (ackMembers p).map Prod.fst = ackKeys := rfl
    rw [hkeys]
    decide
  have hiff := @Json.filter_mem_perm_iff ms _ hnodup
  simpa [ackMembers, ackKeys] using hiff

def ofFields? (t n o : Json) : Option Command := do
  let position : Position := ⟨⟨← t.asText?, ← n.asInt32?⟩, ← o.asInt64?⟩
  if isCommittable position.offset then some (.ack position) else none

theorem ofFields?_eq_some {t n o : Json} {c : Command} : ofFields? t n o = some c ↔
    ∃ p : Position, t = .text p.partition.topic ∧ n = .integer p.partition.number.toInt ∧
      o = .integer p.offset.toInt ∧ isCommittable p.offset = true ∧ c = .ack p := by
  simp only [ofFields?, Option.bind_eq_bind, Option.bind_eq_some_iff, asText?_eq_some,
    asInt32?_eq_some, asInt64?_eq_some]
  constructor
  · rintro ⟨topic, rfl, number, rfl, offset, rfl, h⟩
    split at h
    · next hc =>
      cases h
      exact ⟨⟨⟨topic, number⟩, offset⟩, rfl, rfl, rfl, hc, rfl⟩
    · cases h
  · rintro ⟨p, rfl, rfl, rfl, hc, rfl⟩
    exact ⟨_, rfl, _, rfl, _, rfl, if_pos hc⟩

theorem ofJson?_of_ack {body : Json.Body} (h : v.tagged? = some ("ack", body)) :
    ofJson? v = (body.fields? ["topic", "partition", "offset"]).bind fun
      | [t, n, o] => ofFields? t n o
      | _ => none := by
  rw [ofJson?, h]
  rfl

/-- An acknowledgement has the tag of one. -/
theorem tagged?_of_ack (h : ofJson? v = some (.ack p)) :
    ∃ body, v.tagged? = some ("ack", body) := by
  rw [ofJson?] at h
  obtain ⟨⟨tag, body⟩, htag, h⟩ := Option.bind_eq_some_iff.1 h
  simp only at h
  split at h
  · next hack =>
    rw [hack] at htag
    exact ⟨body, htag⟩
  · split at h
    · simp at h
    · split at h
      · simp at h
      · cases h

theorem fields?_of_members {t n o : Json} :
    (Json.Body.members ms).fields? ["topic", "partition", "offset"] = some [t, n, o] ↔
      only? "topic" ms = some t ∧ only? "partition" ms = some n ∧ only? "offset" ms = some o := by
  simp only [Json.Body.fields?, List.mapM_cons, List.mapM_nil, Option.bind_eq_bind, Option.pure_def,
    Option.bind_eq_some_iff]
  constructor
  · rintro ⟨a, ha, l, ⟨b, hb, l', ⟨c, hc, l'', hl'', hl'⟩, hl⟩, h⟩
    cases hl''
    cases hl'
    cases hl
    cases h
    exact ⟨ha, hb, hc⟩
  · rintro ⟨ha, hb, hc⟩
    exact ⟨t, ha, _, ⟨n, hb, _, ⟨o, hc, _, rfl, rfl⟩, rfl⟩, rfl⟩

/-- A value that acknowledges a position is read as such, unless the offset cannot be committed. -/
theorem ofJson?_of_acknowledges (h : Acknowledges v p) :
    ofJson? v = if isCommittable p.offset then some (.ack p) else none := by
  have hfields : ofFields? (.text p.partition.topic) (.integer p.partition.number.toInt)
      (.integer p.offset.toInt) = if isCommittable p.offset then some (.ack p) else none := by
    simp only [ofFields?, asText?_eq_some.2 rfl, asInt32?_eq_some.2 rfl, asInt64?_eq_some.2 rfl]
    rfl
  cases h with
  | @object ms p h =>
    obtain ⟨htag, htopic, hpartition, hoffset⟩ := ackMembers_perm_iff.1 h
    have htagged : (Json.object ms).tagged? = some ("ack", .members ms) := by
      rw [Json.tagged?, htag]
      rfl
    rw [ofJson?_of_ack htagged, fields?_of_members.2 ⟨htopic, hpartition, hoffset⟩]
    exact hfields
  | list =>
    rw [ofJson?_of_ack rfl]
    exact hfields

/-- A value that is read as an acknowledgement is one. -/
theorem acknowledges_of_ofJson? (h : ofJson? v = some (.ack p)) : Acknowledges v p := by
  obtain ⟨body, htagged⟩ := tagged?_of_ack h
  rw [ofJson?_of_ack htagged] at h
  obtain ⟨fields, hfields, h⟩ := Option.bind_eq_some_iff.1 h
  split at h
  · next t n o =>
    obtain ⟨q, rfl, rfl, rfl, -, hq⟩ := ofFields?_eq_some.1 h
    cases hq
    cases v with
    | object ms =>
      obtain ⟨tag, htag, hbody⟩ := Option.bind_eq_some_iff.1 htagged
      cases hbody
      obtain ⟨w, honly, hw⟩ := Option.bind_eq_some_iff.1 htag
      rw [asText?_eq_some] at hw
      subst hw
      exact .object (ackMembers_perm_iff.2 ⟨honly, fields?_of_members.1 hfields⟩)
    | list xs =>
      match xs, htagged with
      | .text tag :: xs, htagged =>
        cases htagged
        simp only [Json.Body.fields?] at hfields
        split at hfields
        · cases hfields
          exact .list
        · cases hfields
    | _ => cases htagged
  · cases h

theorem isCommittable_iff {o : Int64} :
    isCommittable o = true ↔ 0 ≤ o ∧ o < Int64.maxValue := by
  rw [isCommittable, Bool.and_eq_true, decide_eq_true_eq, decide_eq_true_eq]

theorem committable_of_ofJson? (h : ofJson? v = some (.ack p)) : isCommittable p.offset = true := by
  have hread := ofJson?_of_acknowledges (acknowledges_of_ofJson? h)
  rw [h] at hread
  split at hread
  · assumption
  · cases hread

/-- The body of an acknowledgement is read as one, if its offset has one after it. -/
theorem decode_of_document {body : List UInt8} (hdocument : Document Json.Numeral.Fits body v)
    (hack : Acknowledges v p) : decode body =
      if 0 ≤ p.offset ∧ p.offset < Int64.maxValue then .ack p
      else .unrecognized (Text.lossy body) := by
  rw [decode, Json.parse_eq_ok.2 hdocument]
  simp only [ofJson?_of_acknowledges hack, isCommittable_iff]
  split <;> rfl

/-- A body that is read as an acknowledgement is a JSON text. -/
theorem document_of_decode {body : List UInt8} (h : decode body = .ack p) :
    ∃ v, Document Json.Numeral.Fits body v ∧ ofJson? v = some (.ack p) := by
  rw [decode] at h
  split at h
  · next v hparse =>
    refine ⟨v, Json.parse_eq_ok.1 hparse, ?_⟩
    cases hread : ofJson? v with
    | none =>
      rw [hread] at h
      cases h
    | some c =>
      rw [hread] at h
      cases h
      rfl
  · cases h

/-- A text of a value that acknowledges a position is read as this acknowledgement if the offset can
be committed, and is refused otherwise; and nothing else is read as an acknowledgement. The numbers
in it have to fit, as every number does that is eight units in the last place or more below the
limit of doubles. -/
theorem acknowledgements_are_read_exactly :
    (∀ (text : String) (v : Json) (p : Position),
      Document Json.Numeral.Fits (Text.toUtf8 text) v → Acknowledges v p →
        decode (Text.toUtf8 text) =
          if 0 ≤ p.offset ∧ p.offset < Int64.maxValue then .ack p else .unrecognized text) ∧
    (∀ (body : List UInt8) (p : Position), decode body = .ack p →
      (0 ≤ p.offset ∧ p.offset < Int64.maxValue) ∧
        ∃ v, Document Json.Numeral.Fits body v ∧ Acknowledges v p) ∧
    ∀ (body : List UInt8) (v : Json),
      Document (Json.Numeral.Below (2 ^ 1024 - 2 ^ 974)) body v →
        Document Json.Numeral.Fits body v := by
  refine ⟨fun text v p hdocument hack => ?_, fun body p h => ?_, fun body v hdocument => ?_⟩
  · rw [decode_of_document hdocument hack, Text.lossy_toUtf8]
  · obtain ⟨v, hdocument, hread⟩ := document_of_decode h
    refine ⟨isCommittable_iff.1 (committable_of_ofJson? hread), v, hdocument, ?_⟩
    exact acknowledges_of_ofJson? hread
  · exact hdocument.mono fun x hx => x.fits_of_below hx

section

open Json (Numeral blanks_refl lead_comma letters_flatMap numeral_of_ok)
open Json.Grammar (Blanks Letters FourHex)

/-- Members in another order, with another one among them, white space and an escaped key. -/
theorem acknowledgement_is_read_in_other_order :
    let text := "\x7b \"offset\":7,\"x\":[1e300],\"t\\u0079pe\":\"ack\"," ++
      "\"topic\":\"é\",\"partition\":-1\x7d\n"
    let v : Json := .object [("offset", .integer 7), ("x", .list [.real]), (tagKey, .text "ack"),
      ("topic", .text "é"), ("partition", .integer (-1))]
    let p : Position := ⟨⟨"é", -1⟩, 7⟩
    Document (Numeral.Below (2 ^ 1024 - 2 ^ 974)) (Text.toUtf8 text) v ∧ Acknowledges v p ∧
      decode (Text.toUtf8 text) = .ack p ∧
      ∃ w, Document Numeral.Fits (Text.toUtf8 text) w ∧ Acknowledges w p := by
  intro text v p
  obtain ⟨hread, hconverse, hfits⟩ := acknowledgements_are_read_exactly
  have hseven : Numeral.Below (2 ^ 1024 - 2 ^ 974) ⟨false, [7], none, none⟩ := by decide +kernel
  have hgreat : Numeral.Below (2 ^ 1024 - 2 ^ 974) ⟨false, [1], none, some 300⟩ := by
    decide +kernel
  have hminus : Numeral.Below (2 ^ 1024 - 2 ^ 974) ⟨true, [1], none, none⟩ := by decide +kernel
  have hspace : ∀ bs, Blanks (0x20 :: bs) bs := fun bs =>
    ⟨[0x20], List.forall_mem_singleton.2 rfl, rfl⟩
  have hnewline : Blanks [0x0A] [] := ⟨[0x0A], List.forall_mem_singleton.2 rfl, rfl⟩
  have hkey : ∀ bs, Letters (0x74 :: 0x5C :: 0x75 :: 0x30 :: 0x30 :: 0x37 :: 0x39 :: 0x70 :: 0x65 ::
      0x22 :: bs) tagKey.toList bs := by
    intro bs
    have hhex : FourHex (0x30 :: 0x30 :: 0x37 :: 0x39 :: 0x70 :: 0x65 :: 0x22 :: bs)
        (((0 * 16 + 0) * 16 + 7) * 16 + 9) (0x70 :: 0x65 :: 0x22 :: bs) := .mk rfl rfl rfl rfl
    have hletters := Letters.escaped (.unit hhex (.inl (by decide))) (letters_flatMap ['p', 'e'])
    exact @Letters.plain _ bs 't' _ (by decide) (by decide) (by decide) hletters
  have hdocument : Document (Numeral.Below (2 ^ 1024 - 2 ^ 974)) (Text.toUtf8 text) v := by
    refine ⟨_, [0x0A], blanks_refl _, .object ?_, hnewline⟩
    refine .member (.first (hspace _)) (letters_flatMap "offset".toList)
      (blanks_refl _) (blanks_refl _) (.number (numeral_of_ok rfl) hseven) ?_
    refine .member (lead_comma _) (letters_flatMap "x".toList) (blanks_refl _) (blanks_refl _)
      (.list (.item (.first (blanks_refl _)) (.number (numeral_of_ok rfl) hgreat)
        (.closed (blanks_refl _)))) ?_
    refine .member (lead_comma _) (hkey _) (blanks_refl _) (blanks_refl _)
      (.text (letters_flatMap "ack".toList)) ?_
    refine .member (lead_comma _) (letters_flatMap "topic".toList) (blanks_refl _) (blanks_refl _)
      (.text (letters_flatMap "é".toList)) ?_
    refine .member (lead_comma _) (letters_flatMap "partition".toList) (blanks_refl _)
      (blanks_refl _) (.number (numeral_of_ok rfl) hminus) ?_
    exact .closed (blanks_refl _)
  have hack : Acknowledges v p := .object (ackMembers_perm_iff.2 ⟨rfl, rfl, rfl, rfl⟩)
  have hdecode : decode (Text.toUtf8 text) = .ack p := by
    rw [hread text v p (hfits _ v hdocument) hack]
    exact if_pos (by decide)
  exact ⟨hdocument, hack, hdecode, (hconverse _ p hdecode).2⟩

/-- A number just below the limit of doubles makes an acknowledgement beside it unreadable. -/
theorem acknowledgement_beside_great_number_is_refused :
    let text := "\x7b\"type\":\"ack\",\"topic\":\"t\",\"partition\":0," ++
      "\"offset\":7,\"x\":17976931348623158e292\x7d"
    let p : Position := ⟨⟨"t", 0⟩, 7⟩
    ∃ v, Document (Numeral.Below Json.leastHuge) (Text.toUtf8 text) v ∧ Acknowledges v p ∧
      (0 ≤ p.offset ∧ p.offset < Int64.maxValue) ∧
      decode (Text.toUtf8 text) = .unrecognized text := by
  intro text p
  have hzero : Numeral.Below Json.leastHuge ⟨false, [0], none, none⟩ := by decide +kernel
  have hseven : Numeral.Below Json.leastHuge ⟨false, [7], none, none⟩ := by decide +kernel
  have hgreat : Numeral.Below Json.leastHuge
      ⟨false, [1, 7, 9, 7, 6, 9, 3, 1, 3, 4, 8, 6, 2, 3, 1, 5, 8], none, some 292⟩ := by decide +kernel
  have hdocument : Document (Numeral.Below Json.leastHuge) (Text.toUtf8 text)
      (.object (ackMembers p ++ [("x", .real)])) := by
    refine ⟨_, [], blanks_refl _, .object ?_, blanks_refl _⟩
    refine .member (.first (blanks_refl _)) (letters_flatMap tagKey.toList) (blanks_refl _)
      (blanks_refl _) (.text (letters_flatMap "ack".toList)) ?_
    refine .member (lead_comma _) (letters_flatMap "topic".toList) (blanks_refl _) (blanks_refl _)
      (.text (letters_flatMap "t".toList)) ?_
    refine .member (lead_comma _) (letters_flatMap "partition".toList) (blanks_refl _)
      (blanks_refl _) (.number (numeral_of_ok rfl) hzero) ?_
    refine .member (lead_comma _) (letters_flatMap "offset".toList) (blanks_refl _) (blanks_refl _)
      (.number (numeral_of_ok rfl) hseven) ?_
    refine .member (lead_comma _) (letters_flatMap "x".toList) (blanks_refl _) (blanks_refl _)
      (.number (numeral_of_ok rfl) hgreat) ?_
    exact .closed (blanks_refl _)
  exact ⟨_, hdocument, .object (.of_eq rfl), by decide, by decide +kernel⟩

end

end AckRelay.Command
