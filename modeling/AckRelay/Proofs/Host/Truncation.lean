import AckRelay.Host.Command
import AckRelay.Proofs.Json.Phrases

namespace AckRelay.Command

open Json (isBlank)
open Json.Grammar (Document)
open String (utf8EncodeChar)

variable {body : List UInt8} {v : Json} {c : Command}

theorem nested_of_ofJson? (h : ofJson? v = some c) : v.isNested = true := by
  rw [ofJson?] at h
  obtain ⟨_, htagged, -⟩ := Option.bind_eq_some_iff.1 h
  cases v with
  | list xs => rfl
  | object ms => rfl
  | _ => cases htagged

/-- A body is kept as text, or it is the text of a list or an object. -/
theorem decode_cases (body : List UInt8) :
    decode body = .unrecognized (Text.lossy body) ∨
      ∃ v, Document Json.Numeral.Fits body v ∧ v.isNested = true := by
  rw [decode]
  cases hparse : Json.parse body with
  | error f => exact Or.inl rfl
  | ok v =>
    simp only
    cases hread : ofJson? v with
    | none => exact Or.inl rfl
    | some c => exact Or.inr ⟨v, Json.parse_eq_ok.1 hparse, nested_of_ofJson? hread⟩

theorem document_of_command (h : ∀ raw, decode body ≠ .unrecognized raw) :
    ∃ v, Document Json.Numeral.Fits body v ∧ v.isNested = true := by
  obtain hraw | hdocument := decode_cases body
  · exact absurd hraw (h _)
  · exact hdocument

/-- The body of a command without some of what it ends with, or with something else after it, is no
command, unless that is white space only. Of a body that is cut off the text is kept, with one
replacement for the character in which the cut is. -/
theorem truncated_commands_are_refused (hcommand : ∀ raw, decode body ≠ .unrecognized raw) :
    (∃ text : String, body = Text.toUtf8 text ∧
      ∀ front missing, body = front ++ missing → (∃ b ∈ missing, isBlank b = false) →
        decode front = .unrecognized (Text.lossy front) ∧
        ∃ whole torn, Cut utf8EncodeChar text.toList front whole torn ∧
          Text.lossy front = String.ofList (whole ++ if torn = [] then [] else ['\uFFFD'])) ∧
    ∀ more, (∃ b ∈ more, isBlank b = false) →
      decode (body ++ more) = .unrecognized (Text.lossy (body ++ more)) := by
  obtain ⟨v, hdocument, hv⟩ := document_of_command hcommand
  obtain ⟨text, htext⟩ := hdocument.utf8
  refine ⟨⟨text, htext, fun front missing hbody hmissing => ⟨?_, ?_⟩⟩, fun more hmore => ?_⟩
  · -- what is left would have to be a list or an object, and the rest of the body white space
    obtain hraw | ⟨w, hfront, hw⟩ := decode_cases front
    · exact hraw
    · obtain ⟨b, hb, hblank⟩ := hmissing
      have hall := Json.blanks_after_document hfront hw (hbody ▸ hdocument)
      rw [hall b hb] at hblank
      cases hblank
  · -- the body is written character by character, and the cut is in one of them or between two
    obtain ⟨whole, torn, hcut⟩ := exists_cut utf8EncodeChar text.toList front.length
    have hfront : (text.toList.flatMap utf8EncodeChar).take front.length = front := by
      have hbytes : text.toList.flatMap utf8EncodeChar = front ++ missing := by
        rw [← hbody, htext, Text.toUtf8_eq_encode]
        rfl
      rw [hbytes, List.take_left]
    rw [hfront] at hcut
    exact ⟨whole, torn, hcut, Text.lossy_cut hcut⟩
  · obtain hraw | ⟨w, hlonger, -⟩ := decode_cases (body ++ more)
    · exact hraw
    · obtain ⟨b, hb, hblank⟩ := hmore
      rw [Json.blanks_after_document hdocument hv hlonger b hb] at hblank
      cases hblank

/-- An acknowledgement that is cut off within a character of its topic, and one with a brace too
many. -/
theorem truncated_acknowledgement_is_refused :
    let body := Text.toUtf8 ("\x7b\"type\":\"ack\",\"topic\":\"é\"," ++
      "\"partition\":0,\"offset\":7,\"x\":[1.5]\x7d\n")
    (∀ raw, decode body ≠ .unrecognized raw) ∧
      decode (body.take 24) = .unrecognized "\x7b\"type\":\"ack\",\"topic\":\"\uFFFD" ∧
      decode (body ++ [0x20, 0x7D]) = .unrecognized (Text.lossy (body ++ [0x20, 0x7D])) := by
  intro body
  have hcommand : ∀ raw, decode body ≠ .unrecognized raw := by
    have hack : decode body = .ack ⟨⟨"é", 0⟩, 7⟩ := by decide +kernel
    intro raw hraw
    rw [hack] at hraw
    cases hraw
  obtain ⟨⟨_, -, hfront⟩, hmore⟩ := truncated_commands_are_refused hcommand
  refine ⟨hcommand, ?_, hmore _ ⟨0x7D, by decide, by decide⟩⟩
  have hcut := (hfront (body.take 24) (body.drop 24) (List.take_append_drop 24 body).symm
    ⟨0x22, by decide +kernel, by decide⟩).1
  have htext : Text.lossy (body.take 24) = "\x7b\"type\":\"ack\",\"topic\":\"\uFFFD" := by
    decide +kernel
  rw [hcut, htext]

end AckRelay.Command
