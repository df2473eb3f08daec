import AckRelay.Text.Blank
import Mathlib.Data.List.TakeWhile
import Mathlib.Tactic.Push

namespace AckRelay.Text

def Blank (cs : List Char) : Prop := ∀ c ∈ cs, isBlank c = true

instance (cs : List Char) : Decidable (Blank cs) := List.decidableBAll _ cs

structure Trimmed (cs : List Char) : Prop where
  first : ∀ c ∈ cs.head?, isBlank c = false
  last : ∀ c ∈ cs.getLast?, isBlank c = false

def Padded (cs padded : List Char) : Prop :=
  ∃ left right, Blank left ∧ Blank right ∧ padded = left ++ cs ++ right

variable {cs ds left right padded : List Char} {c : Char}

theorem Padded.refl (cs : List Char) : Padded cs cs :=
  ⟨[], [], List.forall_mem_nil _, List.forall_mem_nil _, (List.append_nil cs).symm⟩

theorem Padded.trans (hcs : Padded cs ds) (hds : Padded ds padded) : Padded cs padded := by
  obtain ⟨left, right, hleft, hright, rfl⟩ := hcs
  obtain ⟨left', right', hleft', hright', rfl⟩ := hds
  refine ⟨left' ++ left, right ++ right', fun c hc => ?_, fun c hc => ?_, by simp⟩
  · exact (List.mem_append.1 hc).elim (hleft' c) (hleft c)
  · exact (List.mem_append.1 hc).elim (hright c) (hright' c)

theorem padded_nil_iff : Padded [] padded ↔ Blank padded := by
  constructor
  · rintro ⟨left, right, hleft, hright, rfl⟩ c hc
    rw [List.append_nil, List.mem_append] at hc
    exact hc.elim (hleft c) (hright c)
  · intro h
    exact ⟨padded, [], h, List.forall_mem_nil _, by rw [List.append_nil, List.append_nil]⟩

/-- Only white space is added. -/
theorem Padded.mem (h : Padded cs padded) (hc : c ∈ padded) : c ∈ cs ∨ isBlank c = true := by
  obtain ⟨left, right, hleft, hright, rfl⟩ := h
  rw [List.mem_append, List.mem_append] at hc
  rcases hc with (hc | hc) | hc
  · exact Or.inr (hleft c hc)
  · exact Or.inl hc
  · exact Or.inr (hright c hc)

theorem Padded.subset (h : Padded cs padded) : cs ⊆ padded := by
  obtain ⟨left, right, -, -, rfl⟩ := h
  intro c hc
  exact List.mem_append_left right (List.mem_append_right left hc)

section Trim

theorem trimRight_eq (cs : List Char) : trimRight cs = (trimLeft cs.reverse).reverse := rfl

theorem trimLeft_append_of_blank (h : Blank left) : trimLeft (left ++ cs) = trimLeft cs :=
  List.dropWhile_append_of_pos h

theorem trimLeft_of_blank (h : Blank cs) : trimLeft cs = [] := List.dropWhile_eq_nil_iff.2 h

theorem trimLeft_of_first (h : ∀ c ∈ cs.head?, isBlank c = false) : trimLeft cs = cs := by
  cases cs with
  | nil => rfl
  | cons c cs => rw [trimLeft, List.dropWhile_cons, h c rfl, if_neg Bool.false_ne_true]

theorem trimLeft_append_cons (hc : isBlank c = false) :
    trimLeft (cs ++ c :: ds) = trimLeft cs ++ c :: ds := by
  induction cs with
  | nil => exact trimLeft_of_first (by simpa using hc)
  | cons b cs ih =>
    simp only [trimLeft, List.cons_append, List.dropWhile_cons] at ih ⊢
    split
    · exact ih
    · rfl

theorem trimRight_append_cons (hc : isBlank c = false) :
    trimRight (cs ++ c :: ds) = cs ++ c :: trimRight ds := by
  have hreverse : (cs ++ c :: ds).reverse = ds.reverse ++ c :: cs.reverse := by simp
  rw [trimRight_eq, hreverse, trimLeft_append_cons hc, trimRight_eq]
  simp

theorem trimRight_append_of_blank (h : Blank right) : trimRight (cs ++ right) = trimRight cs := by
  have hreverse : Blank right.reverse := fun c hc => h c (List.mem_reverse.1 hc)
  rw [trimRight_eq, List.reverse_append, trimLeft_append_of_blank hreverse, trimRight_eq]

theorem trimRight_of_last (h : ∀ c ∈ cs.getLast?, isBlank c = false) : trimRight cs = cs := by
  rw [trimRight_eq, trimLeft_of_first, List.reverse_reverse]
  rwa [List.head?_reverse]

/-- A text is white space, or has a character that is none. -/
theorem blank_or_split (cs : List Char) :
    Blank cs ∨ ∃ as c bs, cs = as ++ c :: bs ∧ isBlank c = false := by
  by_cases h : Blank cs
  · exact Or.inl h
  · rw [Blank] at h
    push Not at h
    obtain ⟨c, hc, hblank⟩ := h
    obtain ⟨as, bs, rfl⟩ := List.append_of_mem hc
    exact Or.inr ⟨as, c, bs, rfl, Bool.eq_false_iff.2 hblank⟩

theorem trim_of_blank (h : Blank cs) : trim cs = [] := by
  rw [trim, trimLeft_of_blank h]
  rfl

theorem trim_append_cons (hc : isBlank c = false) :
    trim (cs ++ c :: ds) = trimLeft cs ++ c :: trimRight ds := by
  rw [trim, trimLeft_append_cons hc, trimRight_append_cons hc]

/-- White space around a text makes no difference. -/
theorem trim_of_padded (h : Padded cs padded) : trim padded = trim cs := by
  obtain ⟨left, right, hleft, hright, rfl⟩ := h
  rw [List.append_assoc, trim, trimLeft_append_of_blank hleft, ← trim]
  rcases blank_or_split cs with hblank | ⟨as, c, bs, rfl, hc⟩
  · have hall : Blank (cs ++ right) := fun c hc =>
      (List.mem_append.1 hc).elim (hblank c) (hright c)
    rw [trim_of_blank hall, trim_of_blank hblank]
  · rw [List.append_assoc, List.cons_append, trim_append_cons hc, trim_append_cons hc,
      trimRight_append_of_blank hright]

theorem padded_trimLeft (cs : List Char) : Padded (trimLeft cs) cs := by
  refine ⟨cs.takeWhile isBlank, [], fun c hc => ?_, List.forall_mem_nil _, ?_⟩
  · exact List.mem_takeWhile_imp hc
  · rw [List.append_nil, trimLeft, List.takeWhile_append_dropWhile]

theorem padded_trimRight (cs : List Char) : Padded (trimRight cs) cs := by
  obtain ⟨left, right, hleft, hright, h⟩ := padded_trimLeft cs.reverse
  refine ⟨right.reverse, left.reverse, fun c hc => hright c (List.mem_reverse.1 hc),
    fun c hc => hleft c (List.mem_reverse.1 hc), ?_⟩
  have hreverse := congrArg List.reverse h
  simpa [trimRight_eq] using hreverse

theorem trim_trimLeft (cs : List Char) : trim (trimLeft cs) = trim cs :=
  (trim_of_padded (padded_trimLeft cs)).symm

theorem trim_trimRight (cs : List Char) : trim (trimRight cs) = trim cs :=
  (trim_of_padded (padded_trimRight cs)).symm

theorem trim_of_trimmed (h : Trimmed cs) : trim cs = cs := by
  rw [trim, trimLeft_of_first h.first, trimRight_of_last h.last]

theorem padded_trim (cs : List Char) : Padded (trim cs) cs :=
  (padded_trimRight (trimLeft cs)).trans (padded_trimLeft cs)

theorem first_trimLeft (cs : List Char) : ∀ c ∈ (trimLeft cs).head?, isBlank c = false := by
  intro c hc
  have hfirst := List.head?_dropWhile_not isBlank cs
  rw [← trimLeft, Option.mem_def.1 hc] at hfirst
  exact hfirst

theorem trimmed_trim (cs : List Char) : Trimmed (trim cs) := by
  constructor
  · have hfirst := first_trimLeft cs
    rw [trim]
    cases hleft : trimLeft cs with
    | nil => exact fun c hc => by cases hc
    | cons c ds =>
      rw [hleft] at hfirst
      have hc : isBlank c = false := hfirst c rfl
      -- the first character stays, since it is no white space
      have hkept : trimRight ([] ++ c :: ds) = [] ++ c :: trimRight ds := trimRight_append_cons hc
      rw [← List.nil_append (c :: ds), hkept]
      exact fun d hd => by
        cases hd
        exact hc
  · rw [trim, trimRight_eq, List.getLast?_reverse]
    exact first_trimLeft (trimLeft cs).reverse

theorem trim_eq_iff : trim padded = cs ↔ Padded cs padded ∧ Trimmed cs := by
  constructor
  · rintro rfl
    exact ⟨padded_trim padded, trimmed_trim padded⟩
  · rintro ⟨hpadded, htrimmed⟩
    rw [trim_of_padded hpadded, trim_of_trimmed htrimmed]

theorem trim_eq_self_iff : trim cs = cs ↔ Trimmed cs := by
  rw [trim_eq_iff, and_iff_right (Padded.refl cs)]

instance (cs : List Char) : Decidable (Trimmed cs) := decidable_of_iff _ trim_eq_self_iff

theorem trim_eq_nil_iff : trim cs = [] ↔ Blank cs := by
  rw [trim_eq_iff, padded_nil_iff, and_iff_left]
  exact ⟨fun c hc => (by cases hc), fun c hc => (by cases hc)⟩

end Trim

end AckRelay.Text
