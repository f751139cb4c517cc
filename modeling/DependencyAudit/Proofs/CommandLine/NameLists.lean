import DependencyAudit.CommandLine.CommaList

/-!
# Names in comma lists

A comma list denotes the set of the names between its commas, whatever their order and
however often each stands there: two lists with a comma between them denote the union.  A
name can stand in such a list when it is not empty, holds no comma, and no blank at its ends
would be taken off.  Every name of the set is such a name, and every such name is given back,
with any blanks around it and any blank entries beside it.
-/

namespace DependencyAudit.CommandLine

/-- A name that a comma list gives back. -/
structure IsEntry (name : String) : Prop where
  ne_empty : name ≠ ""
  not_separated : ',' ∉ name.toList
  first : ∀ c, name.toList.head? = some c → Text.isBlank c = false
  last : ∀ c, name.toList.getLast? = some c → Text.isBlank c = false

theorem isEntry_iff {name : String} :
    IsEntry name ↔ name ≠ "" ∧ ',' ∉ name.toList ∧
      name.toList.head?.all (fun c => !Text.isBlank c) = true ∧
      name.toList.getLast?.all (fun c => !Text.isBlank c) = true := by
  simp only [Option.all_eq_true, Bool.not_eq_true']
  constructor
  · intro h
    exact ⟨h.ne_empty, h.not_separated, h.first, h.last⟩
  · intro h
    exact ⟨h.1, h.2.1, h.2.2.1, h.2.2.2⟩

instance (name : String) : Decidable (IsEntry name) :=
  decidable_of_iff _ isEntry_iff.symm

/-! ## The entries of a text -/

theorem mem_nameSet {name text : String} :
    name ∈ nameSet text ↔ name.toList ∈ entries text.toList := by
  rw [nameSet, Ascending.mem_ofList, List.mem_map]
  constructor
  · rintro ⟨entry, hentry, rfl⟩
    rwa [String.toList_ofList]
  · intro h
    exact ⟨name.toList, h, String.ofList_toList⟩

theorem trim_subset {text : List Char} : Text.trim text ⊆ text := by
  intro c hc
  rw [Text.trim, Text.trimBy, List.mem_reverse] at hc
  have hinner := (List.dropWhile_sublist _).subset hc
  rw [List.mem_reverse] at hinner
  exact (List.dropWhile_sublist _).subset hinner

theorem isEntry_of_mem_entries {entry text : List Char} (h : entry ∈ entries text) :
    IsEntry (String.ofList entry) := by
  rw [entries, List.mem_filter, List.mem_map] at h
  obtain ⟨⟨part, hpart, rfl⟩, hsome⟩ := h
  constructor
  · intro hempty
    simp [← String.toList_inj] at hempty
    simp [hempty] at hsome
  · rw [String.toList_ofList]
    exact fun hcomma => Text.not_mem_of_mem_parts hpart (trim_subset hcomma)
  · intro c hc
    rw [String.toList_ofList] at hc
    exact Text.head?_trimBy hc
  · intro c hc
    rw [String.toList_ofList] at hc
    exact Text.getLast?_trimBy hc

theorem isEntry_of_mem_nameSet {name text : String} (h : name ∈ nameSet text) : IsEntry name := by
  have hentry := isEntry_of_mem_entries (mem_nameSet.mp h)
  rwa [String.ofList_toList] at hentry

/-- The entries of joined texts are those of each text. -/
theorem entries_intercalate (texts : List (List Char)) :
    entries ([','].intercalate texts) = texts.flatMap entries := by
  induction texts with
  | nil => rfl
  | cons text rest ih =>
      cases rest with
      | nil => simp [List.intercalate]
      | cons next more =>
          rw [List.intercalate_cons_cons, List.append_assoc, List.singleton_append,
            entries_append_comma, ih]
          exact List.flatMap_cons.symm

/-! ## Spellings of names -/

def IsBlankText (text : String) : Prop := ∀ c ∈ text.toList, Text.isBlank c = true

instance (text : String) : Decidable (IsBlankText text) :=
  decidable_of_iff (text.toList.all Text.isBlank = true) List.all_eq_true

/-- Fields between commas and the names they hold, in order.  A blank field holds none, and a
name may have blanks on both sides. -/
inductive Spells : List String → List String → Prop
  | nil : Spells [] []
  | blank {field : String} {fields names : List String} (hfield : IsBlankText field)
      (h : Spells fields names) : Spells (field :: fields) names
  | entry {before name after : String} {fields names : List String}
      (hbefore : IsBlankText before) (hname : IsEntry name) (hafter : IsBlankText after)
      (h : Spells fields names) : Spells ((before ++ name ++ after) :: fields) (name :: names)

theorem IsBlankText.not_separated {text : String} (h : IsBlankText text) : ',' ∉ text.toList := by
  intro hcomma
  exact absurd (h ',' hcomma) (by decide)

theorem entries_of_isBlankText {field : String} (h : IsBlankText field) :
    entries field.toList = [] := by
  have htrim : Text.trim field.toList = [] := by
    exact Text.trimBy_append_of_skip h []
  rw [entries, Text.parts_of_not_mem h.not_separated, List.map_singleton, htrim]
  rfl

theorem entries_of_padded {before name after : String} (hbefore : IsBlankText before)
    (hname : IsEntry name) (hafter : IsBlankText after) :
    entries (before ++ name ++ after).toList = [name.toList] := by
  have htrim : Text.trim (before.toList ++ name.toList ++ after.toList) = name.toList := by
    rw [Text.trim, Text.trimBy_padded hbefore hafter]
    exact Text.trimBy_eq_self hname.first hname.last
  have hcomma : ',' ∉ before.toList ++ name.toList ++ after.toList := by
    simp [hbefore.not_separated, hname.not_separated, hafter.not_separated]
  have hsome : name.toList ≠ [] := fun hnil => hname.ne_empty (String.toList_inj.mp hnil)
  rw [String.toList_append, String.toList_append, entries, Text.parts_of_not_mem hcomma,
    List.map_singleton, htrim]
  simp [hsome]

theorem Spells.flatMap_entries {fields names : List String} (h : Spells fields names) :
    (fields.map String.toList).flatMap entries = names.map String.toList := by
  induction h with
  | nil => rfl
  | blank hfield h ih =>
      rw [List.map_cons, List.flatMap_cons, entries_of_isBlankText hfield, List.nil_append, ih]
  | entry hbefore hname hafter h ih =>
      rw [List.map_cons, List.flatMap_cons, entries_of_padded hbefore hname hafter, ih]
      rfl

theorem Spells.nameSet_intercalate {fields names : List String} (h : Spells fields names) :
    nameSet (",".intercalate fields) = Ascending.ofList names := by
  have hcomma : ",".toList = [','] := rfl
  rw [nameSet, String.toList_intercalate, hcomma, entries_intercalate, h.flatMap_entries,
    List.map_map]
  congr 1
  exact List.map_id'' (fun name => String.ofList_toList) names

theorem spells_self {names : List String} (h : ∀ name ∈ names, IsEntry name) :
    Spells names names := by
  have hempty : IsBlankText "" := by simp [IsBlankText]
  induction names with
  | nil => exact .nil
  | cons name rest ih =>
      rw [List.forall_mem_cons] at h
      have hentry := Spells.entry hempty h.1 hempty (ih h.2)
      rwa [String.append_empty, String.empty_append] at hentry

theorem nameSet_intercalate {names : List String} (h : ∀ name ∈ names, IsEntry name) :
    nameSet (",".intercalate names) = Ascending.ofList names :=
  (spells_self h).nameSet_intercalate

/-- A comma list denotes a set of names.  Joining two lists unites their sets, each set is
given by its strictly ascending list, each member can itself stand in a list, and the set of
a spelling is that of the spelled names. -/
theorem comma_lists_denote_sets :
    (∀ left right name, name ∈ nameSet (left ++ "," ++ right) ↔
        name ∈ nameSet left ∨ name ∈ nameSet right) ∧
      (∀ text, (nameSet text).Pairwise (· < ·) ∧ ∀ name ∈ nameSet text, IsEntry name) ∧
      ∀ fields names, Spells fields names →
        ∀ name, name ∈ nameSet (",".intercalate fields) ↔ name ∈ names := by
  refine ⟨?_, ?_, ?_⟩
  · intro left right name
    have hcomma : (left ++ "," ++ right).toList = left.toList ++ ',' :: right.toList := by simp
    rw [mem_nameSet, hcomma, entries_append_comma, List.mem_append, ← mem_nameSet, ← mem_nameSet]
  · intro text
    exact ⟨Ascending.pairwise_ofList _, fun name => isEntry_of_mem_nameSet⟩
  · intro fields names h name
    rw [h.nameSet_intercalate, Ascending.mem_ofList]

/-- Names out of order and one twice, one with a blank inside it, with a wide space, a line end
and other blanks around them, and with blank entries between them. -/
theorem nameSet_of_padded_names :
    Spells ["\u3000" ++ "b c" ++ "\n", " ", "", "" ++ "a" ++ "\u00A0", "\x1f" ++ "b c" ++ ""]
        ["b c", "a", "b c"] ∧
      ∀ name, name ∈ nameSet "\u3000b c\n, ,,a\u00A0,\x1fb c" ↔ name ∈ ["b c", "a", "b c"] := by
  have hentries : IsEntry "b c" ∧ IsEntry "a" := by decide
  have hblanks : ∀ text ∈ ["\u3000", "\n", " ", "", "\u00A0", "\x1f"], IsBlankText text := by
    decide
  simp only [List.forall_mem_cons] at hblanks
  obtain ⟨hwide, hline, hspace, hempty, hfixed, hunit, -⟩ := hblanks
  have hspells : Spells
      ["\u3000" ++ "b c" ++ "\n", " ", "", "" ++ "a" ++ "\u00A0", "\x1f" ++ "b c" ++ ""]
      ["b c", "a", "b c"] :=
    .entry hwide hentries.1 hline <| .blank hspace <| .blank hempty <|
      .entry hempty hentries.2 hfixed <| .entry hunit hentries.1 hempty .nil
  have htext : ",".intercalate
      ["\u3000" ++ "b c" ++ "\n", " ", "", "" ++ "a" ++ "\u00A0", "\x1f" ++ "b c" ++ ""] =
        "\u3000b c\n, ,,a\u00A0,\x1fb c" := by cbv
  rw [← htext]
  exact ⟨hspells, comma_lists_denote_sets.2.2 _ _ hspells⟩

end DependencyAudit.CommandLine
