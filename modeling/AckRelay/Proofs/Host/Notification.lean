import AckRelay.Host.Notification
import AckRelay.Proofs.Json.Fields
import AckRelay.Proofs.Json.Render
import AckRelay.Proofs.Json.Tagged
import AckRelay.Proofs.Text.Base64

namespace AckRelay

open Json (Spelled spelled_text spelled_integer spelled_list spelled_object asText?_eq_some
  asInt32?_eq_some asInt64?_eq_some)
open Json.Grammar (Document)

variable {levels : Nat}

theorem spelled_int32 (n : Int32) : Spelled levels (.integer n.toInt) := by
  apply spelled_integer
  have hlow := Int32.le_toInt n
  have hhigh := Int32.toInt_lt n
  have hsize : UInt64.size = 18446744073709551616 := rfl
  omega

theorem spelled_int64 (n : Int64) : Spelled levels (.integer n.toInt) := by
  apply spelled_integer
  have hlow := Int64.le_toInt n
  have hhigh := Int64.toInt_lt n
  have hsize : UInt64.size = 18446744073709551616 := rfl
  omega

namespace Partition

theorem spelled (p : Partition) : Spelled (levels + 1) p.toJson := by
  apply spelled_object
  intro m hm
  simp only [List.mem_cons, List.not_mem_nil, or_false] at hm
  rcases hm with rfl | rfl
  · exact spelled_text _
  · exact spelled_int32 _

theorem ofJson?_toJson (p : Partition) : ofJson? p.toJson = some p := by
  simp [ofJson?, toJson, fieldNames, Json.fields?, Json.Body.fields?, Json.only?,
    asText?_eq_some.2 rfl, asInt32?_eq_some.2 rfl]

end Partition

namespace Position

theorem spelled (p : Position) : Spelled (levels + 1) p.toJson := by
  apply spelled_object
  intro m hm
  simp only [List.mem_cons, List.not_mem_nil, or_false] at hm
  rcases hm with rfl | rfl | rfl
  · exact spelled_text _
  · exact spelled_int32 _
  · exact spelled_int64 _

theorem ofJson?_toJson (p : Position) : ofJson? p.toJson = some p := by
  simp [ofJson?, toJson, Json.fields?, Json.Body.fields?, Json.only?,
    asText?_eq_some.2 rfl, asInt32?_eq_some.2 rfl, asInt64?_eq_some.2 rfl]

end Position

namespace Notification

theorem Kind.ofName?_name (k : Kind) : ofName? k.name = some k := by
  cases k <;> decide

theorem listOf?_map {α : Type} {f : α → Json} {g : Json → Option α} (h : ∀ a, g (f a) = some a)
    (xs : List α) : listOf? g (.list (xs.map f)) = some xs := by
  induction xs with
  | nil => rfl
  | cons x xs ih =>
    rw [listOf?] at ih ⊢
    rw [List.map_cons, List.mapM_cons, h x, ih]
    rfl

/-- The members of a notification make the same notification again. -/
theorem build?_members (n : Notification) : build? n.kind (.members n.members) = some n := by
  cases n with
  | record r =>
    simp [build?, kind, members, Json.Body.fields?, Json.only?,
      asText?_eq_some.2 rfl, asInt32?_eq_some.2 rfl, asInt64?_eq_some.2 rfl,
      Text.Base64.decode?_encode]
  | consuming => rfl
  | caughtUp => rfl
  | assigned ps =>
    simp [build?, kind, members, Json.Body.fields?, Json.only?,
      listOf?_map Partition.ofJson?_toJson]
  | unassigned ps =>
    simp [build?, kind, members, Json.Body.fields?, Json.only?,
      listOf?_map Partition.ofJson?_toJson]
  | committed os =>
    simp [build?, kind, members, Json.Body.fields?, Json.only?,
      listOf?_map Position.ofJson?_toJson]

/-- No member but the tag has the name of the tag. -/
theorem key_ne_tagKey {n : Notification} : ∀ m ∈ n.members, m.1 ≠ Json.tagKey := by
  cases n <;> simp [members, Json.tagKey]

/-- Each member is spelled two levels below that of the whole, as lists hold objects. -/
theorem spelled_members {n : Notification} :
    ∀ m ∈ n.members, Spelled (levels + 2) m.2 := by
  cases n with
  | record r =>
    intro m hm
    simp only [members, List.mem_cons, List.not_mem_nil, or_false] at hm
    rcases hm with rfl | rfl | rfl | rfl | rfl
    · exact spelled_text _
    · exact spelled_int32 _
    · exact spelled_int64 _
    · exact spelled_int64 _
    · exact spelled_text _
  | consuming | caughtUp =>
    intro m hm
    cases hm
  | assigned ps | unassigned ps =>
    intro m hm
    rw [List.mem_singleton.1 hm]
    apply spelled_list
    intro v hv
    obtain ⟨p, -, rfl⟩ := List.mem_map.1 hv
    exact p.spelled
  | committed os =>
    intro m hm
    rw [List.mem_singleton.1 hm]
    apply spelled_list
    intro v hv
    obtain ⟨p, -, rfl⟩ := List.mem_map.1 hv
    exact p.spelled

/-- The body of a notification is a JSON text that holds it. -/
theorem document_body (n : Notification) : Document Json.Numeral.Fits n.body n.toJson := by
  apply Json.document_of_spelled
  have hlevels : Json.maxLevels = Json.maxLevels - 3 + 3 := rfl
  rw [hlevels]
  apply spelled_object
  intro m hm
  rcases List.mem_cons.1 hm with rfl | hm
  · exact spelled_text _
  · exact spelled_members m hm

/-- A notification is read back from its body. -/
theorem parse_body (n : Notification) : parse n.body = .ok n :=
  Json.parseTagged_of_document n.document_body key_ne_tagKey n.kind.ofName?_name n.build?_members

end Notification

end AckRelay
