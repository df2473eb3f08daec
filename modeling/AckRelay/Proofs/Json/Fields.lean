import AckRelay.Json.Tagged
import Mathlib.Data.List.Perm.Basic

namespace AckRelay.Json

theorem asText?_eq_some {v : Json} {s : String} : v.asText? = some s ↔ v = .text s := by
  cases v <;> simp [asText?]

theorem asInt32?_eq_some {v : Json} {n : Int32} : v.asInt32? = some n ↔ v = .integer n.toInt := by
  constructor
  · intro h
    cases v with
    | integer i =>
      rw [asInt32?] at h
      split at h
      · next hi =>
        cases h
        rw [Int32.toInt_ofInt_of_le]
        · exact hi.1
        · exact Int.lt_of_le_of_lt hi.2 (by decide)
      · cases h
    | _ => cases h
  · rintro rfl
    rw [asInt32?, if_pos ⟨Int32.minValue_le_toInt n, Int32.toInt_le n⟩, Int32.ofInt_toInt]

theorem asInt64?_eq_some {v : Json} {n : Int64} : v.asInt64? = some n ↔ v = .integer n.toInt := by
  constructor
  · intro h
    cases v with
    | integer i =>
      rw [asInt64?] at h
      split at h
      · next hi =>
        cases h
        rw [Int64.toInt_ofInt_of_le]
        · exact hi.1
        · exact Int.lt_of_le_of_lt hi.2 (by decide)
      · cases h
    | _ => cases h
  · rintro rfl
    rw [asInt64?, if_pos ⟨Int64.minValue_le_toInt n, Int64.toInt_le n⟩, Int64.ofInt_toInt]

variable {ms : List (String × Json)}

theorem only?_eq_some {key : String} {v : Json} :
    only? key ms = some v ↔ ms.filter (fun m => m.1 = key) = [(key, v)] := by
  rw [only?]
  constructor
  · intro h
    split at h
    · next m hm =>
      cases h
      have hmem : m ∈ ms.filter (fun m => m.1 = key) := by
        rw [hm]
        exact List.mem_singleton.2 rfl
      have hkey : m.1 = key := of_decide_eq_true (List.mem_filter.1 hmem).2
      rw [hm, ← hkey]
    · cases h
  · intro h
    rw [h]

/-- The members of some keys are those of each key, put together. -/
theorem filter_mem_perm {keys : List String} (hnodup : keys.Nodup) (ms : List (String × Json)) :
    (ms.filter (fun m => m.1 ∈ keys)).Perm
      (keys.flatMap fun key => ms.filter (fun m => m.1 = key)) := by
  induction keys with
  | nil => simp
  | cons key keys ih =>
    obtain ⟨hkey, hkeys⟩ := List.nodup_cons.1 hnodup
    have hsplit := List.filter_append_perm (fun m => decide (m.1 = key))
      (ms.filter (fun m => m.1 ∈ key :: keys))
    have hfirst : (ms.filter (fun m => m.1 ∈ key :: keys)).filter (fun m => decide (m.1 = key)) =
        ms.filter (fun m => m.1 = key) := by
      rw [List.filter_filter]
      refine List.filter_congr fun m _ => ?_
      by_cases hm : m.1 = key <;> simp [hm]
    have hrest : (ms.filter (fun m => m.1 ∈ key :: keys)).filter (fun m => !decide (m.1 = key)) =
        ms.filter (fun m => m.1 ∈ keys) := by
      rw [List.filter_filter]
      refine List.filter_congr fun m _ => ?_
      by_cases hm : m.1 = key
      · simp [hm, hkey]
      · simp [hm]
    rw [hfirst, hrest] at hsplit
    rw [List.flatMap_cons]
    exact hsplit.symm.trans ((ih hkeys).append_left _)

theorem filter_key_of_nodup {fields : List (String × Json)} {f : String × Json}
    (hnodup : (fields.map Prod.fst).Nodup) (hf : f ∈ fields) :
    fields.filter (fun m => m.1 = f.1) = [f] := by
  induction fields with
  | nil => cases hf
  | cons g fields ih =>
    obtain ⟨hkey, hkeys⟩ := List.nodup_cons.1 hnodup
    rcases List.mem_cons.1 hf with rfl | hf
    · have hnone : fields.filter (fun m => m.1 = f.1) = [] := by
        rw [List.filter_eq_nil_iff]
        intro m hm heq
        exact hkey (List.mem_map.2 ⟨m, hm, of_decide_eq_true heq⟩)
      rw [List.filter_cons_of_pos (by simp), hnone]
    · have hne : g.1 ≠ f.1 := fun heq => hkey (heq ▸ List.mem_map_of_mem hf)
      rw [List.filter_cons_of_neg (by simp [hne]), ih hkeys hf]

/-- Some fields are all the members of their keys exactly if each is the only one of its key. -/
theorem filter_mem_perm_iff {fields : List (String × Json)}
    (hnodup : (fields.map Prod.fst).Nodup) :
    (ms.filter (fun m => m.1 ∈ fields.map Prod.fst)).Perm fields ↔
      ∀ f ∈ fields, only? f.1 ms = some f.2 := by
  constructor
  · intro h f hf
    have hkey : (ms.filter (fun m => m.1 ∈ fields.map Prod.fst)).filter (fun m => m.1 = f.1) =
        ms.filter (fun m => m.1 = f.1) := by
      rw [List.filter_filter]
      refine List.filter_congr fun m _ => ?_
      by_cases hm : m.1 = f.1
      · have hmem : m.1 ∈ fields.map Prod.fst := hm ▸ List.mem_map_of_mem hf
        rw [decide_eq_true hm, decide_eq_true hmem]
        rfl
      · rw [decide_eq_false hm]
        rfl
    have hperm := h.filter (fun m => decide (m.1 = f.1))
    rw [hkey, filter_key_of_nodup hnodup hf] at hperm
    rw [only?_eq_some]
    exact List.perm_singleton.1 hperm
  · intro h
    refine (filter_mem_perm hnodup ms).trans (List.Perm.of_eq ?_)
    have hone : ∀ f ∈ fields, ms.filter (fun m => m.1 = f.1) = [f] := fun f hf =>
      only?_eq_some.1 (h f hf)
    rw [List.flatMap_map, List.flatMap_congr hone]
    exact List.flatMap_singleton' fields

end AckRelay.Json
