import AckRelay.Proofs.Outcome
import AckRelay.Proofs.Text.Blank

namespace AckRelay.Text

variable {cs p : List Char} {ps : List (List Char)}

theorem pieces_eq_splitOn (cs : List Char) : pieces cs = cs.splitOn ',' := by
  induction cs with
  | nil => rfl
  | cons c cs ih =>
    rw [List.splitOn_eq_splitOnP, List.splitOnP_cons_eq_if_modifyHead, ← List.splitOn_eq_splitOnP,
      ← ih, pieces]
    by_cases hc : c = ','
    · rw [if_pos hc, if_pos (beq_iff_eq.2 hc)]
    · rw [if_neg hc, if_neg (fun h => hc (beq_iff_eq.1 h))]
      -- there is always a first piece, so that the other case does not arise
      have hsome : pieces cs ≠ [] := ih ▸ List.splitOn_ne_nil ',' cs
      cases hpieces : pieces cs with
      | nil => exact absurd hpieces hsome
      | cons p ps => rfl

theorem comma_not_mem_pieces (h : p ∈ cs.splitOn ',') : ',' ∉ p := by
  induction cs generalizing p with
  | nil =>
    rw [List.splitOn_nil, List.mem_singleton] at h
    rw [h]
    exact List.not_mem_nil
  | cons c cs ih =>
    rw [← pieces_eq_splitOn, pieces, pieces_eq_splitOn] at h
    split at h
    · rcases List.mem_cons.1 h with rfl | h
      · exact List.not_mem_nil
      · exact ih h
    · next hc =>
      have hother : ∀ {q : List Char}, ',' ∉ q → ',' ∉ c :: q := fun hq h =>
        (List.mem_cons.1 h).elim (fun he => hc he.symm) hq
      split at h
      · rw [List.mem_singleton.1 h]
        exact hother List.not_mem_nil
      · next q qs hqs =>
        rw [hqs] at ih
        rcases List.mem_cons.1 h with rfl | h
        · exact hother (ih List.mem_cons_self)
        · exact ih (List.mem_cons_of_mem q h)

def itemsOf (ps : List (List Char)) : List (List Char) := (ps.map trim).filter (· ≠ [])

theorem items_eq (s : String) : items s = itemsOf (s.toList.splitOn ',') := by
  rw [items, pieces_eq_splitOn, itemsOf]

theorem itemsOf_cons_of_blank (h : Blank p) : itemsOf (p :: ps) = itemsOf ps := by
  rw [itemsOf, List.map_cons, trim_of_blank h]
  rfl

theorem itemsOf_cons (h : ¬Blank p) : itemsOf (p :: ps) = trim p :: itemsOf ps := by
  rw [itemsOf, List.map_cons, List.filter_cons_of_pos]
  · rfl
  · exact decide_eq_true fun hnil => h (trim_eq_nil_iff.1 hnil)

theorem itemsOf_eq_nil_iff : itemsOf ps = [] ↔ ∀ p ∈ ps, Blank p := by
  rw [itemsOf, List.filter_eq_nil_iff, List.forall_mem_map]
  refine forall₂_congr fun p _ => ?_
  rw [decide_eq_true_eq, not_not, trim_eq_nil_iff]

/-- The items are the pieces that are not blank, each trimmed. -/
theorem itemsOf_eq_map (ps : List (List Char)) :
    itemsOf ps = (ps.filter fun p => ¬Blank p).map trim := by
  rw [itemsOf, List.filter_map]
  refine congrArg (List.map trim) (List.filter_congr fun p _ => ?_)
  exact decide_eq_decide.2 (not_congr trim_eq_nil_iff)

/-- The pieces list the items: each item is spelled by one of them, in order, and the others are
blank. -/
inductive Lists {α : Type} (spells : α → List Char → Prop) : List α → List (List Char) → Prop
  | nil : Lists spells [] []
  | blank {as : List α} {p : List Char} {ps : List (List Char)} :
    Blank p → Lists spells as ps → Lists spells as (p :: ps)
  | item {a : α} {as : List α} {p : List Char} {ps : List (List Char)} :
    spells a p → Lists spells as ps → Lists spells (a :: as) (p :: ps)

def Written {α : Type} (spells : α → List Char → Prop) (as : List α) (s : String) : Prop :=
  ∃ ps, Lists spells as ps ∧ s.toList = [','].intercalate ps

variable {ε α : Type} {spells : α → List Char → Prop} {read : List Char → Except ε α}
  {as : List α} {s : String}

theorem Lists.forall_mem {P : α → Prop} (h : Lists spells as ps)
    (hspells : ∀ a p, spells a p → P a) : ∀ a ∈ as, P a := by
  induction h with
  | nil => exact List.forall_mem_nil P
  | blank _ _ ih => exact ih
  | item hitem _ ih => exact List.forall_mem_cons.2 ⟨hspells _ _ hitem, ih⟩

theorem Lists.and_left {P : α → Prop} (h : Lists spells as ps) (hall : ∀ a ∈ as, P a) :
    Lists (fun a p => P a ∧ spells a p) as ps := by
  induction h with
  | nil => exact .nil
  | blank hblank _ ih => exact .blank hblank (ih hall)
  | item hitem _ ih =>
    obtain ⟨ha, hrest⟩ := List.forall_mem_cons.1 hall
    exact .item ⟨ha, hitem⟩ (ih hrest)

/-- Items are listed plainly by one piece for each, without blank ones. -/
theorem lists_map {plain : α → List Char} (h : ∀ a ∈ as, spells a (plain a)) :
    Lists spells as (as.map plain) := by
  induction as with
  | nil => exact .nil
  | cons a as ih =>
    obtain ⟨ha, hrest⟩ := List.forall_mem_cons.1 h
    exact .item ha (ih hrest)

structure Reads (spells : α → List Char → Prop) (read : List Char → Except ε α) : Prop where
  free : ∀ {a p}, spells a p → ',' ∉ p
  not_blank : ∀ {a p}, spells a p → ¬Blank p
  read_iff : ∀ {a p}, ',' ∉ p → ¬Blank p → (read (trim p) = .ok a ↔ spells a p)

namespace Reads

theorem free_of_lists (hr : Reads spells read) (h : Lists spells as ps) :
    ∀ p ∈ ps, ',' ∉ p := by
  induction h with
  | nil => exact List.forall_mem_nil _
  | blank hblank _ ih =>
    exact List.forall_mem_cons.2 ⟨fun hc => absurd (hblank ',' hc) (by decide), ih⟩
  | item hitem _ ih => exact List.forall_mem_cons.2 ⟨hr.free hitem, ih⟩

theorem itemsOf_eq_ok_iff (hr : Reads spells read) (hfree : ∀ p ∈ ps, ',' ∉ p) :
    (itemsOf ps).mapM read = .ok as ↔ Lists spells as ps := by
  -- by induction on the pieces; a blank one is passed over, and any other one has to spell an item
  induction ps generalizing as with
  | nil =>
    constructor
    · rintro ⟨⟩
      exact .nil
    · rintro ⟨⟩
      rfl
  | cons p ps ih =>
    obtain ⟨hp, hrest⟩ := List.forall_mem_cons.1 hfree
    by_cases hblank : Blank p
    · rw [itemsOf_cons_of_blank hblank, ih hrest]
      constructor
      · exact .blank hblank
      · intro h
        cases h with
        | blank _ h => exact h
        | item hitem _ => exact absurd hblank (hr.not_blank hitem)
    · rw [itemsOf_cons hblank, List.mapM_cons, Except.bind_eq_ok]
      constructor
      · rintro ⟨a, ha, h⟩
        obtain ⟨as, has, h⟩ := Except.bind_eq_ok.1 h
        cases h
        exact .item ((hr.read_iff hp hblank).1 ha) ((ih hrest).1 has)
      · intro h
        cases h with
        | blank h _ => exact absurd h hblank
        | item hitem h =>
          refine ⟨_, (hr.read_iff hp hblank).2 hitem, ?_⟩
          exact Except.bind_eq_ok.2 ⟨_, (ih hrest).2 h, rfl⟩

/-- A text is read as exactly the items that it lists. -/
theorem items_eq_ok_iff (hr : Reads spells read) :
    (items s).mapM read = .ok as ↔ Written spells as s := by
  rw [items_eq]
  constructor
  · intro h
    refine ⟨s.toList.splitOn ',', ?_, (List.intercalate_splitOn ',').symm⟩
    exact (hr.itemsOf_eq_ok_iff fun _ => comma_not_mem_pieces).1 h
  · rintro ⟨ps, h, hs⟩
    rw [hs]
    cases hps : ps with
    | nil =>
      rw [hps] at h
      cases h
      rfl
    | cons p rest =>
      rw [← hps, List.splitOn_intercalate ',' (hr.free_of_lists h) (by simp [hps])]
      exact (hr.itemsOf_eq_ok_iff (hr.free_of_lists h)).2 h

end Reads

end AckRelay.Text
