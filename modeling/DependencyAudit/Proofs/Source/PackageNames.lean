import DependencyAudit.Proofs.Source.UsedPackages

/-!
# What resolves to a package

A package name is a specifier from which nothing is cut off: one part, or two when its first
character begins a scope.  The main statement is that a specifier resolves to a name exactly
when the name is one of a package and the specifier is the name, or the name, a slash and a
path.  So the names are the fixed points of resolution and nothing else comes out of it.
-/

namespace DependencyAudit.Text

variable {text first : String} {others : List String}

theorem stringParts_of_not_mem (h : '/' ∉ text.toList) : stringParts '/' text = [text] := by
  rw [stringParts, parts_of_not_mem h, List.map_singleton, String.ofList_toList]

theorem stringParts_append_slash (h : '/' ∉ first.toList) (rest : String) :
    stringParts '/' (first ++ "/" ++ rest) = first :: stringParts '/' rest := by
  have htext : (first ++ "/" ++ rest).toList = first.toList ++ '/' :: rest.toList := by
    simp
  rw [stringParts, htext, parts_append_separator, parts_of_not_mem h, List.singleton_append,
    List.map_cons, String.ofList_toList, stringParts]

theorem exists_first_slash (h : '/' ∈ text.toList) :
    ∃ first rest, text = first ++ "/" ++ rest ∧ '/' ∉ first.toList := by
  obtain ⟨front, behind, htext, hfront⟩ := List.eq_append_cons_of_mem h
  refine ⟨String.ofList front, String.ofList behind, ?_, by simpa using hfront⟩
  rw [← String.toList_inj, htext]
  simp

/-- The first part ends at the first slash, and the others are the parts of what follows. -/
theorem stringParts_eq_cons_iff :
    stringParts '/' text = first :: others ↔
      '/' ∉ first.toList ∧ ((text = first ∧ others = []) ∨
        ∃ rest, text = first ++ "/" ++ rest ∧ others = stringParts '/' rest) := by
  constructor
  · intro h
    by_cases hslash : '/' ∈ text.toList
    · obtain ⟨front, rest, rfl, hfront⟩ := exists_first_slash hslash
      rw [stringParts_append_slash hfront, List.cons.injEq] at h
      rw [← h.1]
      exact ⟨hfront, Or.inr ⟨rest, rfl, h.2.symm⟩⟩
    · rw [stringParts_of_not_mem hslash, List.cons.injEq] at h
      rw [← h.1]
      exact ⟨hslash, Or.inl ⟨rfl, h.2.symm⟩⟩
  · rintro ⟨hfirst, ⟨rfl, rfl⟩ | ⟨rest, rfl, rfl⟩⟩
    · exact stringParts_of_not_mem hfirst
    · exact stringParts_append_slash hfirst rest

end DependencyAudit.Text

namespace DependencyAudit.Source

open DependencyAudit.Text

variable {specifier name scope base : String}

/-- The specifier names a package itself or a path within it. -/
def LeadsInto (specifier name : String) : Prop :=
  specifier = name ∨ ∃ path, specifier = name ++ "/" ++ path

/-- A name that begins with no dot and no slash, and has one slash if it has a scope and none
otherwise. -/
structure IsPackageName (name : String) : Prop where
  ne_empty : name ≠ ""
  not_dot : name.toList.head? ≠ some '.'
  not_slash : name.toList.head? ≠ some '/'
  slashes : name.toList.count '/' = if name.toList.head? = some '@' then 1 else 0

/-! ## Parts of a specifier -/

theorem LeadsInto.head? (h : LeadsInto specifier name) (hname : name ≠ "") :
    specifier.toList.head? = name.toList.head? := by
  have hne : name.toList ≠ [] := by simpa using hname
  rcases h with rfl | ⟨path, rfl⟩
  · rfl
  · rw [String.toList_append, String.toList_append, List.append_assoc,
      List.head?_append_of_ne_nil _ hne]

theorem exists_first_part_iff :
    (∃ others, stringParts '/' specifier = name :: others) ↔
      '/' ∉ name.toList ∧ LeadsInto specifier name := by
  simp only [stringParts_eq_cons_iff, LeadsInto]
  constructor
  · rintro ⟨others, hname, ⟨hsame, -⟩ | ⟨rest, hrest, -⟩⟩
    · exact ⟨hname, Or.inl hsame⟩
    · exact ⟨hname, Or.inr ⟨rest, hrest⟩⟩
  · rintro ⟨hname, hsame | ⟨rest, hrest⟩⟩
    · exact ⟨[], hname, Or.inl ⟨hsame, rfl⟩⟩
    · exact ⟨_, hname, Or.inr ⟨rest, hrest, rfl⟩⟩

theorem exists_first_two_parts_iff :
    (∃ others, stringParts '/' specifier = scope :: base :: others) ↔
      ('/' ∉ scope.toList ∧ '/' ∉ base.toList) ∧ LeadsInto specifier (scope ++ "/" ++ base) := by
  constructor
  · rintro ⟨others, h⟩
    obtain ⟨hscope, ⟨-, hnone⟩ | ⟨rest, rfl, hrest⟩⟩ := stringParts_eq_cons_iff.mp h
    · simp at hnone
    · obtain ⟨hbase, hinto⟩ := exists_first_part_iff.mp ⟨others, hrest.symm⟩
      refine ⟨⟨hscope, hbase⟩, ?_⟩
      rcases hinto with rfl | ⟨path, rfl⟩
      · exact Or.inl rfl
      · exact Or.inr ⟨path, by simp only [String.append_assoc]⟩
  · rintro ⟨⟨hscope, hbase⟩, rfl | ⟨path, rfl⟩⟩
    · rw [stringParts_append_slash hscope, stringParts_of_not_mem hbase]
      exact ⟨[], rfl⟩
    · have htext : scope ++ "/" ++ base ++ "/" ++ path = scope ++ "/" ++ (base ++ "/" ++ path) := by
        simp only [String.append_assoc]
      rw [htext, stringParts_append_slash hscope, stringParts_append_slash hbase]
      exact ⟨_, rfl⟩

/-- A specifier without a scope resolves to its first part, and one with a scope to its first
two. -/
theorem packageName?_eq_some_iff_parts :
    packageName? specifier = some name ↔
      ∃ first, specifier.toList.head? = some first ∧ first ≠ '.' ∧ first ≠ '/' ∧
        if first = '@' then
          ∃ scope base, (∃ others, stringParts '/' specifier = scope :: base :: others) ∧
            name = scope ++ "/" ++ base
        else ∃ others, stringParts '/' specifier = name :: others := by
  unfold packageName?
  split
  · next hnil => simp [hnil]
  · next first rest hfirst =>
      simp only [hfirst, List.head?_cons, Option.some.injEq, exists_eq_left']
      by_cases hpath : first = '.' ∨ first = '/'
      · rw [if_pos hpath]
        tauto
      · rw [if_neg hpath]
        rw [not_or] at hpath
        by_cases hscope : first = '@'
        · split
          · next hparts => simp [hparts, hscope]
          · next hparts => simp [hparts, hscope]
          · next hparts => simp [hparts, hscope, eq_comm]
        · split
          · next hparts => simp [hparts, hscope]
          · next hparts => simp [hparts, hscope, hpath]
          · next hparts => simp [hparts, hscope, hpath]

/-! ## Names -/

theorem count_slash_scoped (hscope : '/' ∉ scope.toList) (hbase : '/' ∉ base.toList) :
    (scope ++ "/" ++ base).toList.count '/' = 1 := by
  simp [List.count_eq_zero.mpr hscope, List.count_eq_zero.mpr hbase]

theorem exists_scope_of_count (h : name.toList.count '/' = 1) :
    ∃ scope base, name = scope ++ "/" ++ base ∧ '/' ∉ scope.toList ∧ '/' ∉ base.toList := by
  have hslash : '/' ∈ name.toList := List.count_pos_iff.mp (by omega)
  obtain ⟨scope, base, rfl, hscope⟩ := exists_first_slash hslash
  have hbase : base.toList.count '/' = 0 := by
    simpa [List.count_eq_zero.mpr hscope] using h
  exact ⟨scope, base, rfl, hscope, List.count_eq_zero.mp hbase⟩

theorem isPackageName_iff :
    IsPackageName name ↔ ∃ first, name.toList.head? = some first ∧ first ≠ '.' ∧ first ≠ '/' ∧
      name.toList.count '/' = if first = '@' then 1 else 0 := by
  constructor
  · intro h
    have hne : name.toList ≠ [] := by simpa using h.ne_empty
    have hhead : name.toList.head? = some (name.toList.head hne) :=
      List.head?_eq_some_head hne
    refine ⟨name.toList.head hne, hhead, ?_, ?_, ?_⟩
    · simpa [hhead] using h.not_dot
    · simpa [hhead] using h.not_slash
    · simpa [hhead] using h.slashes
  · rintro ⟨first, hhead, hdot, hslash, hcount⟩
    refine ⟨?_, ?_, ?_, ?_⟩
    · rintro rfl
      simp at hhead
    · simpa [hhead] using hdot
    · simpa [hhead] using hslash
    · simpa [hhead] using hcount

/-- A specifier resolves to a name exactly when the name is one of a package and the specifier
leads into that package. -/
theorem packageName?_eq_some_iff :
    packageName? specifier = some name ↔ IsPackageName name ∧ LeadsInto specifier name := by
  rw [packageName?_eq_some_iff_parts, isPackageName_iff]
  constructor
  · rintro ⟨first, hfirst, hdot, hslash, hparts⟩
    split at hparts
    · next hat =>
        obtain ⟨scope, base, hexists, rfl⟩ := hparts
        obtain ⟨⟨hscope, hbase⟩, hinto⟩ := exists_first_two_parts_iff.mp hexists
        have hhead := hinto.head? (by simp)
        refine ⟨⟨first, hhead.symm.trans hfirst, hdot, hslash, ?_⟩, hinto⟩
        rw [if_pos hat]
        exact count_slash_scoped hscope hbase
    · next hplain =>
        obtain ⟨hname, hinto⟩ := exists_first_part_iff.mp hparts
        -- A first part that is empty stands before a slash, and then the specifier is a path.
        have hne : name ≠ "" := by
          rintro rfl
          rcases hinto with rfl | ⟨path, rfl⟩
          · simp at hfirst
          · simp at hfirst
            exact hslash hfirst.symm
        have hhead := hinto.head? hne
        refine ⟨⟨first, hhead.symm.trans hfirst, hdot, hslash, ?_⟩, hinto⟩
        rw [if_neg hplain]
        exact List.count_eq_zero.mpr hname
  · rintro ⟨⟨first, hfirst, hdot, hslash, hcount⟩, hinto⟩
    have hne : name ≠ "" := by
      rintro rfl
      simp at hfirst
    refine ⟨first, (hinto.head? hne).trans hfirst, hdot, hslash, ?_⟩
    split
    · next hat =>
        rw [if_pos hat] at hcount
        obtain ⟨scope, base, rfl, hscope, hbase⟩ := exists_scope_of_count hcount
        exact ⟨scope, base, exists_first_two_parts_iff.mpr ⟨⟨hscope, hbase⟩, hinto⟩, rfl⟩
    · next hplain =>
        rw [if_neg hplain] at hcount
        exact exists_first_part_iff.mpr ⟨List.count_eq_zero.mp hcount, hinto⟩

/-- The names of packages are the specifiers that resolve to themselves. -/
theorem packageName?_eq_self_iff : packageName? name = some name ↔ IsPackageName name := by
  rw [packageName?_eq_some_iff]
  exact and_iff_left (Or.inl rfl)

theorem packageName?_append_slash (h : packageName? specifier = some name) (path : String) :
    packageName? (name ++ "/" ++ path) = some name := by
  rw [packageName?_eq_some_iff] at h ⊢
  exact ⟨h.1, Or.inr ⟨path, rfl⟩⟩

theorem isPackageName_of_mem_usedPackages {limits : Limits} {tree : Tree} {root : Path}
    {mode : Mode} {used : Logged (List String)}
    (h : usedPackages limits tree root mode = .ok used)
    (hname : name ∈ used.value) : IsPackageName name := by
  rcases ((listsUsed_of_usedPackages h).mem_iff name).mp hname with
    ⟨_, _, _, specifier, -, -, hresolved⟩
  exact (packageName?_eq_some_iff.mp hresolved).1

/-- Resolution is a retraction onto the names of packages: a specifier resolves to a name
exactly when the name resolves to itself and the specifier leads into that package, which holds
of one name at most.  So a name resolves again to itself, and so does every path within its
package; and every name, also in what any scan finds in use, has the form of a name. -/
theorem resolution_retracts_onto_package_names :
    (∀ specifier name, packageName? specifier = some name ↔
      packageName? name = some name ∧ LeadsInto specifier name) ∧
    (∀ specifier name other, packageName? name = some name → LeadsInto specifier name →
      packageName? other = some other → LeadsInto specifier other → name = other) ∧
    (∀ specifier, (packageName? specifier).bind packageName? = packageName? specifier) ∧
    (∀ specifier name path, packageName? specifier = some name →
      packageName? (name ++ "/" ++ path) = some name) ∧
    (∀ specifier name, packageName? specifier = some name → IsPackageName name) ∧
    ∀ limits tree root mode used, usedPackages limits tree root mode = .ok used →
      ∀ name ∈ used.value, IsPackageName name := by
  have hresolves : ∀ specifier name, packageName? specifier = some name ↔
      packageName? name = some name ∧ LeadsInto specifier name := by
    intro specifier name
    rw [packageName?_eq_self_iff, packageName?_eq_some_iff]
  refine ⟨hresolves, ?_, ?_, fun _ _ path h => packageName?_append_slash h path, ?_, ?_⟩
  · intro specifier name other hname hinto hother hintoOther
    have hfirst := (hresolves specifier name).mpr ⟨hname, hinto⟩
    have hsecond := (hresolves specifier other).mpr ⟨hother, hintoOther⟩
    rw [hfirst, Option.some.injEq] at hsecond
    exact hsecond
  · intro specifier
    cases hname : packageName? specifier with
    | none => rfl
    | some name => exact ((hresolves specifier name).mp hname).1
  · intro specifier name h
    exact (packageName?_eq_some_iff.mp h).1
  · intro limits tree root mode used h name hname
    exact isPackageName_of_mem_usedPackages h hname

/-- The name behind a scope may be empty. -/
theorem resolution_of_empty_base :
    packageName? "@a//x" = some "@a/" ∧ LeadsInto "@a//x" "@a/" ∧ IsPackageName "@a/" := by
  have hname : packageName? "@a//x" = some "@a/" := by decide
  obtain ⟨hresolves, -, -, -, hform, -⟩ := resolution_retracts_onto_package_names
  exact ⟨hname, ((hresolves _ _).mp hname).2, hform _ _ hname⟩

end DependencyAudit.Source
