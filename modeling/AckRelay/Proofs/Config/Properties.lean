import AckRelay.Config.Properties
import AckRelay.Proofs.Text.CommaList

/-!
Which texts list which properties. A text is read as exactly the properties that it writes
(`parse_eq_ok_iff`): one piece for each pair, with any white space around key and value, and blank
pieces anywhere. If a text is refused, its first piece without a key is to blame
(`parse_eq_error_iff`).
-/

namespace AckRelay.Properties

structure Fit (p : String × String) : Prop where
  key_ne_nil : p.1.toList ≠ []
  key_free : ',' ∉ p.1.toList ∧ '=' ∉ p.1.toList
  key_trimmed : Text.Trimmed p.1.toList
  value_free : ',' ∉ p.2.toList
  value_trimmed : Text.Trimmed p.2.toList

/-- The piece writes the pair, with any white space around key and value. -/
def Spells (p : String × String) (piece : List Char) : Prop :=
  Fit p ∧ ∃ key value, Text.Padded p.1.toList key ∧ Text.Padded p.2.toList value ∧
    piece = key ++ '=' :: value

def NamesKey (piece : List Char) : Prop :=
  ∃ key value, piece = key ++ '=' :: value ∧ '=' ∉ key ∧ ¬Text.Blank key

def render (ps : Properties) : String :=
  String.ofList ([','].intercalate (ps.map fun p => p.1.toList ++ '=' :: p.2.toList))

section Pair

variable {p : String × String} {piece key value : List Char} {e : PropertyFault}

theorem takeWhile_key (h : '=' ∉ key) :
    (key ++ '=' :: value).takeWhile (· ≠ '=') = key := by
  have hkey : ∀ c ∈ key, decide (c ≠ '=') = true := fun c hc =>
    decide_eq_true fun he => h (he ▸ hc)
  rw [List.takeWhile_append_of_pos hkey]
  simp

theorem dropWhile_key (h : '=' ∉ key) :
    (key ++ '=' :: value).dropWhile (· ≠ '=') = '=' :: value := by
  have hkey : ∀ c ∈ key, decide (c ≠ '=') = true := fun c hc =>
    decide_eq_true fun he => h (he ▸ hc)
  rw [List.dropWhile_append_of_pos hkey]
  simp

theorem namesKey_iff (h : '=' ∉ key) : NamesKey (key ++ '=' :: value) ↔ ¬Text.Blank key := by
  constructor
  · rintro ⟨key', value', heq, hfree, hkey⟩
    have hsame : key = key' := by rw [← takeWhile_key h, heq, takeWhile_key hfree]
    rwa [hsame]
  · intro hkey
    exact ⟨key, value, rfl, h, hkey⟩

theorem not_namesKey (h : '=' ∉ piece) : ¬NamesKey piece := by
  rintro ⟨key, value, rfl, -, -⟩
  exact h (List.mem_append_right key List.mem_cons_self)

theorem pair_of_key (h : '=' ∉ key) :
    pair (key ++ '=' :: value) =
      if Text.trim key = [] then .error ⟨String.ofList (key ++ '=' :: value)⟩
      else .ok (String.ofList (Text.trim key), String.ofList (Text.trim value)) := by
  simp only [pair, takeWhile_key h, dropWhile_key h]

theorem pair_of_no_key (h : '=' ∉ piece) : pair piece = .error ⟨String.ofList piece⟩ := by
  have hdrop : piece.dropWhile (· ≠ '=') = [] :=
    List.dropWhile_eq_nil_iff.2 fun c hc => decide_eq_true fun he => h (he ▸ hc)
  simp only [pair, hdrop]

theorem pair_trim_of_key (h : '=' ∉ key) :
    pair (Text.trim (key ++ '=' :: value)) =
      if Text.Blank key then .error ⟨String.ofList (Text.trim (key ++ '=' :: value))⟩
      else .ok (String.ofList (Text.trim key), String.ofList (Text.trim value)) := by
  have hfree : '=' ∉ Text.trimLeft key := fun hc => h ((Text.padded_trimLeft key).subset hc)
  rw [Text.trim_append_cons (by decide), pair_of_key hfree, Text.trim_trimLeft,
    Text.trim_trimRight]
  simp only [Text.trim_eq_nil_iff]

theorem pair_trim_of_no_key (h : '=' ∉ piece) :
    pair (Text.trim piece) = .error ⟨String.ofList (Text.trim piece)⟩ :=
  pair_of_no_key fun hc => h ((Text.padded_trim piece).subset hc)

/-- A trimmed piece is refused exactly if it has no key. -/
theorem pair_trim_eq_error_iff :
    pair (Text.trim piece) = .error e ↔
      ¬NamesKey piece ∧ e = ⟨String.ofList (Text.trim piece)⟩ := by
  by_cases hequals : '=' ∈ piece
  · obtain ⟨key, value, rfl, hkey⟩ := List.eq_append_cons_of_mem hequals
    rw [pair_trim_of_key hkey, namesKey_iff hkey, not_not]
    split
    · next hblank => simp [hblank, eq_comm]
    · next hblank => simp [hblank]
  · rw [pair_trim_of_no_key hequals]
    simp [not_namesKey hequals, eq_comm]

theorem fit_of_key (hfree : ',' ∉ key ++ '=' :: value) (hkey : '=' ∉ key)
    (hnot : ¬Text.Blank key) :
    Fit (String.ofList (Text.trim key), String.ofList (Text.trim value)) := by
  have hsubset : ∀ cs : List Char, Text.trim cs ⊆ cs := fun cs => (Text.padded_trim cs).subset
  rw [List.mem_append, List.mem_cons, not_or, not_or] at hfree
  constructor <;> simp only [String.toList_ofList]
  · exact fun hnil => hnot (Text.trim_eq_nil_iff.1 hnil)
  · exact ⟨fun hc => hfree.1 (hsubset key hc), fun hc => hkey (hsubset key hc)⟩
  · exact Text.trimmed_trim key
  · exact fun hc => hfree.2.2 (hsubset value hc)
  · exact Text.trimmed_trim value

theorem Spells.free (h : Spells p piece) : ',' ∉ piece := by
  obtain ⟨hfit, key, value, hkey, hvalue, rfl⟩ := h
  intro hc
  rcases List.mem_append.1 hc with hc | hc
  · exact (hkey.mem hc).elim hfit.key_free.1 (by decide)
  · rcases List.mem_cons.1 hc with hc | hc
    · exact absurd hc (by decide)
    · exact (hvalue.mem hc).elim hfit.value_free (by decide)

theorem Spells.not_blank (h : Spells p piece) : ¬Text.Blank piece := by
  obtain ⟨-, key, value, -, -, rfl⟩ := h
  intro hblank
  exact absurd (hblank '=' (List.mem_append_right key List.mem_cons_self)) (by decide)

theorem pair_trim_of_spells (h : Spells p piece) : pair (Text.trim piece) = .ok p := by
  obtain ⟨hfit, key, value, hkey, hvalue, rfl⟩ := h
  have hequals : '=' ∉ key := fun hc => (hkey.mem hc).elim hfit.key_free.2 (by decide)
  have hkey' : Text.trim key = p.1.toList := Text.trim_eq_iff.2 ⟨hkey, hfit.key_trimmed⟩
  have hvalue' : Text.trim value = p.2.toList := Text.trim_eq_iff.2 ⟨hvalue, hfit.value_trimmed⟩
  have hnot : ¬Text.Blank key := by
    rw [← Text.trim_eq_nil_iff, hkey']
    exact hfit.key_ne_nil
  rw [pair_trim_of_key hequals, if_neg hnot, hkey', hvalue', String.ofList_toList,
    String.ofList_toList]

theorem spells_of_pair_trim (hfree : ',' ∉ piece) (h : pair (Text.trim piece) = .ok p) :
    Spells p piece := by
  by_cases hequals : '=' ∈ piece
  · obtain ⟨key, value, rfl, hkey⟩ := List.eq_append_cons_of_mem hequals
    rw [pair_trim_of_key hkey] at h
    split at h
    · cases h
    · next hnot =>
      cases h
      refine ⟨fit_of_key hfree hkey hnot, key, value, ?_, ?_, rfl⟩
      · rw [String.toList_ofList]
        exact Text.padded_trim key
      · rw [String.toList_ofList]
        exact Text.padded_trim value
  · rw [pair_trim_of_no_key hequals] at h
    cases h

theorem reads_pair : Text.Reads Spells pair where
  free := Spells.free
  not_blank := Spells.not_blank
  read_iff hfree _ := ⟨spells_of_pair_trim hfree, pair_trim_of_spells⟩

end Pair

section Pieces

variable {ps : Properties} {pieces : List (List Char)} {e : PropertyFault} {s : String}

def fault? (piece : List Char) : Option PropertyFault :=
  if Text.Blank piece then none
  else
    match pair (Text.trim piece) with
    | .ok _ => none
    | .error e => some e

theorem fault?_eq_some_iff {piece : List Char} :
    fault? piece = some e ↔ ¬Text.Blank piece ∧ ¬NamesKey piece ∧
      Text.Trimmed e.pair.toList ∧ Text.Padded e.pair.toList piece := by
  have hshown : e = ⟨String.ofList (Text.trim piece)⟩ ↔
      Text.Trimmed e.pair.toList ∧ Text.Padded e.pair.toList piece := by
    rw [and_comm, ← Text.trim_eq_iff]
    constructor
    · rintro rfl
      exact String.toList_ofList.symm
    · intro h
      rw [h, String.ofList_toList]
  rw [← hshown, ← pair_trim_eq_error_iff, fault?]
  split
  · next hblank => simp [hblank]
  · next hblank => cases hpair : pair (Text.trim piece) <;> simp [hblank]

theorem fault?_eq_none_iff {piece : List Char} :
    fault? piece = none ↔ (¬Text.Blank piece → NamesKey piece) := by
  constructor
  · intro h hblank
    by_contra hkey
    have hfault := (fault?_eq_some_iff (e := ⟨String.ofList (Text.trim piece)⟩)).2
      ⟨hblank, hkey, by simpa using Text.trimmed_trim piece, by simpa using Text.padded_trim piece⟩
    rw [h] at hfault
    cases hfault
  · intro h
    by_contra hsome
    obtain ⟨e, he⟩ := Option.ne_none_iff_exists'.1 hsome
    obtain ⟨hblank, hkey, -⟩ := fault?_eq_some_iff.1 he
    exact hkey (h hblank)

theorem mapM_pair_eq_error_iff :
    (Text.itemsOf pieces).mapM pair = .error e ↔ pieces.findSome? fault? = some e := by
  induction pieces with
  | nil => exact ⟨nofun, nofun⟩
  | cons piece pieces ih =>
    rw [List.findSome?_cons, fault?]
    by_cases hblank : Text.Blank piece
    · rw [Text.itemsOf_cons_of_blank hblank, ih, if_pos hblank]
    · rw [Text.itemsOf_cons hblank, List.mapM_cons, if_neg hblank]
      cases pair (Text.trim piece) with
      | error e' => exact ⟨fun h => by cases h; rfl, fun h => by cases h; rfl⟩
      | ok p =>
        rw [← ih]
        cases (Text.itemsOf pieces).mapM pair with
        | error e' => exact ⟨fun h => by cases h; rfl, fun h => by cases h; rfl⟩
        | ok qs => exact ⟨nofun, nofun⟩

end Pieces

section Parse

variable {ps : Properties} {e : PropertyFault} {s : String}

theorem parse_eq (s : String) : parse s = (Text.itemsOf (s.toList.splitOn ',')).mapM pair := by
  rw [parse, Text.items_eq]

theorem parse_eq_ok_iff : parse s = .ok ps ↔ Text.Written Spells ps s := reads_pair.items_eq_ok_iff

theorem parse_eq_error_iff :
    parse s = .error e ↔ (s.toList.splitOn ',').findSome? fault? = some e := by
  rw [parse_eq, mapM_pair_eq_error_iff]

/-- Properties are read exactly if each piece that is not blank has a key. -/
theorem exists_parse_iff :
    (∃ ps, parse s = .ok ps) ↔
      ∀ piece ∈ s.toList.splitOn ',', ¬Text.Blank piece → NamesKey piece := by
  have hfine : (∀ piece ∈ s.toList.splitOn ',', ¬Text.Blank piece → NamesKey piece) ↔
      (s.toList.splitOn ',').findSome? fault? = none := by
    simp only [List.findSome?_eq_none_iff, fault?_eq_none_iff]
  rw [hfine]
  cases hparse : parse s with
  | ok ps =>
    have hnone : (s.toList.splitOn ',').findSome? fault? = none := by
      by_contra hsome
      obtain ⟨e, he⟩ := Option.ne_none_iff_exists'.1 hsome
      rw [parse_eq_error_iff.2 he] at hparse
      cases hparse
    simp [hnone]
  | error e => simp [parse_eq_error_iff.1 hparse]

theorem written_render (h : ∀ p ∈ ps, Fit p) : Text.Written Spells ps (render ps) := by
  refine ⟨ps.map fun p => p.1.toList ++ '=' :: p.2.toList, Text.lists_map fun p hp => ?_, by
    rw [render, String.toList_ofList]⟩
  exact ⟨h p hp, _, _, .refl _, .refl _, rfl⟩

/-- A text is read as exactly the properties that it writes. One is read exactly if every piece that
is not blank has a key; otherwise the first piece without one is told, without the white space
around it. What is read can be written again and is then read as the same. -/
theorem properties_are_read_as_written (s : String) :
    (∀ ps, parse s = .ok ps ↔ Text.Written Spells ps s) ∧
      ((∃ ps, parse s = .ok ps) ↔
        ∀ piece ∈ s.toList.splitOn ',', ¬Text.Blank piece → NamesKey piece) ∧
      (∀ e, parse s = .error e ↔ ∃ before piece after,
        s.toList.splitOn ',' = before ++ piece :: after ∧
          (∀ q ∈ before, ¬Text.Blank q → NamesKey q) ∧
          ¬Text.Blank piece ∧ ¬NamesKey piece ∧
          Text.Trimmed e.pair.toList ∧ Text.Padded e.pair.toList piece) ∧
      ∀ ps, parse s = .ok ps → parse (render ps) = .ok ps := by
  refine ⟨fun ps => parse_eq_ok_iff, exists_parse_iff, fun e => ?_, fun ps h => ?_⟩
  · rw [parse_eq_error_iff, List.findSome?_eq_some_iff]
    constructor
    · rintro ⟨before, piece, after, hsplit, hpiece, hbefore⟩
      obtain ⟨hblank, hkey, htrimmed, hpadded⟩ := fault?_eq_some_iff.1 hpiece
      exact ⟨before, piece, after, hsplit, fun q hq => fault?_eq_none_iff.1 (hbefore q hq), hblank,
        hkey, htrimmed, hpadded⟩
    · rintro ⟨before, piece, after, hsplit, hbefore, hpiece⟩
      exact ⟨before, piece, after, hsplit, fault?_eq_some_iff.2 hpiece,
        fun q hq => fault?_eq_none_iff.2 (hbefore q hq)⟩
  · obtain ⟨pieces, hpieces, -⟩ := parse_eq_ok_iff.1 h
    exact parse_eq_ok_iff.2 (written_render (hpieces.forall_mem fun _ _ hspells => hspells.1))

theorem properties_are_read_as_written_with_blanks :
    let ps : Properties := [("a", "1"), ("b", "=x"), ("a", "")]
    (Text.Written Spells ps " a = 1 ,,\tb==x , a=" ∧ parse (render ps) = .ok ps) ∧
      ∃ before piece after, "a=1, b ,=c".toList.splitOn ',' = before ++ piece :: after ∧
        (∀ q ∈ before, ¬Text.Blank q → NamesKey q) ∧ ¬Text.Blank piece ∧ ¬NamesKey piece ∧
        Text.Trimmed "b".toList ∧ Text.Padded "b".toList piece := by
  have hread : parse " a = 1 ,,\tb==x , a=" = .ok [("a", "1"), ("b", "=x"), ("a", "")] := by decide
  have hrefused : parse "a=1, b ,=c" = .error ⟨"b"⟩ := by decide
  have h := properties_are_read_as_written " a = 1 ,,\tb==x , a="
  have h' := properties_are_read_as_written "a=1, b ,=c"
  exact ⟨⟨(h.1 _).1 hread, h.2.2.2 _ hread⟩, (h'.2.2.1 ⟨"b"⟩).1 hrefused⟩

end Parse

end AckRelay.Properties
