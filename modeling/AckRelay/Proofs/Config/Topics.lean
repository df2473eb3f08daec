import AckRelay.Config.Topics
import AckRelay.Proofs.Text.CommaList
import Mathlib.Data.List.Forall2

/-!
Which texts list which topics: one piece for each topic, with any white space around it, and blank
pieces anywhere (`parse?_eq_some_iff`). A text of blank pieces alone lists none, and it is refused
(`parse?_eq_none_iff`). Among the texts that list the same topics, the one with commas alone between
them is the plainest.
-/

namespace AckRelay.Topics

structure Fit (topic : String) : Prop where
  ne_nil : topic.toList ≠ []
  free : ',' ∉ topic.toList
  trimmed : Text.Trimmed topic.toList

def Spells (topic : String) (piece : List Char) : Prop :=
  Fit topic ∧ Text.Padded topic.toList piece

variable {topic s : String} {topics : List String} {piece : List Char}

theorem fit_iff :
    Fit topic ↔ topic.toList ≠ [] ∧ ',' ∉ topic.toList ∧ Text.Trimmed topic.toList :=
  ⟨fun h => ⟨h.ne_nil, h.free, h.trimmed⟩, fun h => ⟨h.1, h.2.1, h.2.2⟩⟩

instance (topic : String) : Decidable (Fit topic) := decidable_of_iff _ fit_iff.symm

theorem Spells.free (h : Spells topic piece) : ',' ∉ piece := fun hc =>
  (h.2.mem hc).elim h.1.free (by decide)

theorem Spells.trim_eq (h : Spells topic piece) : Text.trim piece = topic.toList :=
  Text.trim_eq_iff.2 ⟨h.2, h.1.trimmed⟩

theorem Spells.not_blank (h : Spells topic piece) : ¬Text.Blank piece := by
  rw [← Text.trim_eq_nil_iff, h.trim_eq]
  exact h.1.ne_nil

theorem spells_trim (hfree : ',' ∉ piece) (hblank : ¬Text.Blank piece) :
    Spells (String.ofList (Text.trim piece)) piece := by
  have hpadded := Text.padded_trim piece
  refine ⟨⟨?_, ?_, ?_⟩, ?_⟩
  all_goals rw [String.toList_ofList]
  · exact fun hnil => hblank (Text.trim_eq_nil_iff.1 hnil)
  · exact fun hc => hfree (hpadded.subset hc)
  · exact Text.trimmed_trim piece
  · exact hpadded

theorem reads_ofList (ε : Type) :
    Text.Reads Spells fun cs => (.ok (String.ofList cs) : Except ε String) where
  free := Spells.free
  not_blank := Spells.not_blank
  read_iff hfree hblank := by
    constructor
    · intro h
      cases h
      exact spells_trim hfree hblank
    · intro h
      rw [h.trim_eq, String.ofList_toList]

theorem map_items_eq_iff :
    (Text.items s).map String.ofList = topics ↔ Text.Written Spells topics s := by
  have hmapM : (Text.items s).mapM (fun cs => (.ok (String.ofList cs) : Except Unit String)) =
      .ok ((Text.items s).map String.ofList) := List.mapM_pure
  rw [← (reads_ofList Unit).items_eq_ok_iff, hmapM, Except.ok.injEq]

theorem parse?_eq_some_iff_items :
    parse? s = some topics ↔ topics ≠ [] ∧ (Text.items s).map String.ofList = topics := by
  rw [parse?]
  cases Text.items s with
  | nil => exact ⟨nofun, fun h => absurd h.2.symm h.1⟩
  | cons item items =>
    rw [Option.some.injEq]
    constructor
    · rintro rfl
      exact ⟨List.cons_ne_nil _ _, rfl⟩
    · exact fun h => h.2

/-- The topics of a list are read exactly as they are written, if there are any. -/
theorem parse?_eq_some_iff :
    parse? s = some topics ↔ topics ≠ [] ∧ Text.Written Spells topics s := by
  rw [parse?_eq_some_iff_items, map_items_eq_iff]

theorem parse?_eq_none_iff :
    parse? s = none ↔ ∀ piece ∈ s.toList.splitOn ',', Text.Blank piece := by
  rw [← Text.itemsOf_eq_nil_iff, ← Text.items_eq, parse?]
  cases Text.items s with
  | nil => exact iff_of_true rfl rfl
  | cons item items => exact ⟨nofun, nofun⟩

example : parse? " , " = none := by decide

theorem eq_ofList_trim_iff :
    topic = String.ofList (Text.trim piece) ↔
      Text.Padded topic.toList piece ∧ Text.Trimmed topic.toList := by
  rw [← Text.trim_eq_iff, ← String.toList_inj, String.toList_ofList, eq_comm]

/-- The topics are the pieces that are not blank, each without the white space around it. -/
theorem map_items_eq_iff_forall₂ :
    (Text.items s).map String.ofList = topics ↔
      List.Forall₂ (fun topic piece => Text.Padded topic.toList piece ∧ Text.Trimmed topic.toList)
        topics ((s.toList.splitOn ',').filter fun piece => ¬Text.Blank piece) := by
  rw [Text.items_eq, Text.itemsOf_eq_map, List.map_map, eq_comm, ← List.forall₂_eq_eq_eq,
    List.forall₂_map_right_iff]
  simp only [Function.comp_apply, eq_ofList_trim_iff]

theorem written_intercalate (h : ∀ topic ∈ topics, Fit topic) :
    Text.Written Spells topics (",".intercalate topics) := by
  refine ⟨topics.map String.toList, Text.lists_map fun topic htopic => ?_,
    String.toList_intercalate⟩
  exact ⟨h topic htopic, .refl _⟩

theorem fit_of_parse? (h : parse? s = some topics) : ∀ topic ∈ topics, Fit topic := by
  obtain ⟨-, pieces, hlists, -⟩ := parse?_eq_some_iff.1 h
  exact hlists.forall_mem fun _ _ hspells => hspells.1

/-- A topic list is brought into normal form. One is refused exactly if all of its pieces are blank.
Otherwise the topics are its other pieces, in order, each without the white space around it, and
joined with commas they are read as the same. A text that lists topics, with any white space around
them and blank pieces anywhere, is read as exactly these. -/
theorem topics_are_read_as_listed (s : String) :
    (parse? s = none ↔ ∀ piece ∈ s.toList.splitOn ',', Text.Blank piece) ∧
      (∀ topics, parse? s = some topics ↔ topics ≠ [] ∧
        List.Forall₂ (fun topic piece => Text.Padded topic.toList piece ∧ Text.Trimmed topic.toList)
          topics ((s.toList.splitOn ',').filter fun piece => ¬Text.Blank piece)) ∧
      (∀ topics, parse? s = some topics →
        (∀ topic ∈ topics, Fit topic) ∧ parse? (",".intercalate topics) = some topics) ∧
      ∀ topics, topics ≠ [] → (∀ topic ∈ topics, Fit topic) →
        Text.Written (fun topic piece => Text.Padded topic.toList piece) topics s →
          parse? s = some topics := by
  refine ⟨parse?_eq_none_iff, fun topics => ?_, fun topics h => ?_, fun topics hne hfit h => ?_⟩
  · rw [parse?_eq_some_iff_items, map_items_eq_iff_forall₂]
  · have hfit := fit_of_parse? h
    have hne : topics ≠ [] := (parse?_eq_some_iff.1 h).1
    exact ⟨hfit, parse?_eq_some_iff.2 ⟨hne, written_intercalate hfit⟩⟩
  · obtain ⟨pieces, hlists, hs⟩ := h
    exact parse?_eq_some_iff.2 ⟨hne, pieces, hlists.and_left hfit, hs⟩

theorem topics_are_read_as_listed_between_blanks :
    let s := " ,\u3000a b ,,\tc\u2003"
    let topics := ["a b", "c"]
    (topics ≠ [] ∧ (∀ topic ∈ topics, Fit topic) ∧
        Text.Written (fun topic piece => Text.Padded topic.toList piece) topics s) ∧
      parse? s = some topics ∧ parse? "a b,c" = some topics := by
  intro s topics
  have hne : topics ≠ [] := by decide
  have hfit : ∀ topic ∈ topics, Fit topic := by decide
  have hfirst : Text.Padded "a b".toList "\u3000a b ".toList :=
    ⟨['\u3000'], [' '], by decide, by decide, by decide⟩
  have hsecond : Text.Padded "c".toList "\tc\u2003".toList :=
    ⟨['\t'], ['\u2003'], by decide, by decide, by decide⟩
  have hwritten : Text.Written (fun topic piece => Text.Padded topic.toList piece) topics s :=
    ⟨[[' '], "\u3000a b ".toList, [], "\tc\u2003".toList],
      .blank (by decide) (.item hfirst (.blank (by decide) (.item hsecond .nil))), by decide⟩
  obtain ⟨-, -, hread, hlisted⟩ := topics_are_read_as_listed s
  have h := hlisted topics hne hfit hwritten
  exact ⟨⟨hne, hfit, hwritten⟩, h, (hread topics h).2⟩

end AckRelay.Topics
