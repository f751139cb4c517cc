import DependencyAudit.Analysis
import DependencyAudit.Proofs.Manifest.DeclaredNames
import Mathlib.Data.List.Sort

/-!
# Unused and misplaced names

The two lists of an analysis come from different sources: unused are the checked names
that nothing imports, misplaced the development names that something imports.  Use alone
tells them apart, so they never share a name, however the classes of a manifest overlap,
and with every class checked each development name is in one of them.  Both lists ascend,
so an analysis is told by their members, and what grows or shrinks does so in place.
-/

namespace DependencyAudit.Analysis

variable {manifest : Manifest} {used more : List CodeText} {checkAll : Bool}

/-- Both lists name each package once and in order. -/
structure IsAscending (analysis : Analysis) : Prop where
  unused : analysis.unused.Pairwise (· < ·)
  misplaced : analysis.misplaced.Pairwise (· < ·)

theorem isAscending_ofManifest (manifest : Manifest) (used : List CodeText) (checkAll : Bool) :
    (ofManifest manifest used checkAll).IsAscending :=
  ⟨Ascending.pairwise_ofList _, Ascending.pairwise_ofList _⟩

/-- The members of its lists tell an ascending analysis. -/
theorem IsAscending.eq_of_mem_iff {left right : Analysis} (hleft : left.IsAscending)
    (hright : right.IsAscending) (hunused : ∀ name, name ∈ left.unused ↔ name ∈ right.unused)
    (hmisplaced : ∀ name, name ∈ left.misplaced ↔ name ∈ right.misplaced) : left = right := by
  have hfirst : left.unused = right.unused :=
    hleft.unused.eq_of_mem_iff hright.unused hunused
  have hsecond : left.misplaced = right.misplaced :=
    hleft.misplaced.eq_of_mem_iff hright.misplaced hmisplaced
  cases left
  cases right
  simp only at hfirst hsecond
  rw [hfirst, hsecond]

theorem mem_unused_ofManifest {name : CodeText} :
    name ∈ (ofManifest manifest used checkAll).unused ↔
      (∃ cls, (cls = .production ∨ checkAll = true) ∧ name ∈ manifest.names cls) ∧
        name ∉ used := by
  rw [ofManifest, mem_unusedNames, Manifest.mem_declared]

theorem mem_misplaced_ofManifest {name : CodeText} :
    name ∈ (ofManifest manifest used checkAll).misplaced ↔
      name ∈ manifest.names .development ∧ name ∈ used :=
  mem_misplacedNames

/-! ## One manifest -/

/-- What the lists of an analysis make of the names that a manifest declares. -/
structure Divides (manifest : Manifest) (used : List CodeText) (checkAll : Bool)
    (analysis : Analysis) : Prop extends analysis.IsAscending where
  disjoint : analysis.unused.Disjoint analysis.misplaced
  checked : ∀ cls, cls = .production ∨ checkAll = true → ∀ name ∈ manifest.names cls,
    (name ∈ analysis.unused ↔ name ∉ used)
  development : checkAll = true → ∀ name ∈ manifest.names .development,
    (name ∈ analysis.unused ↔ name ∉ analysis.misplaced)

theorem divides_ofManifest (manifest : Manifest) (used : List CodeText) (checkAll : Bool) :
    Divides manifest used checkAll (ofManifest manifest used checkAll) := by
  have hchecked : ∀ cls, cls = .production ∨ checkAll = true → ∀ name ∈ manifest.names cls,
      (name ∈ (ofManifest manifest used checkAll).unused ↔ name ∉ used) := by
    intro cls hcls name hname
    rw [mem_unused_ofManifest]
    exact and_iff_right ⟨cls, hcls, hname⟩
  constructor
  · exact isAscending_ofManifest manifest used checkAll
  · intro name hunused hmisplaced
    exact (mem_unused_ofManifest.mp hunused).2 (mem_misplaced_ofManifest.mp hmisplaced).2
  · exact hchecked
  · intro hall name hname
    rw [hchecked .development (Or.inr hall) name hname, mem_misplaced_ofManifest]
    exact not_congr (and_iff_right hname).symm

/-! ## Two analyses -/

theorem sublist_of_subset {left right : List CodeText} (hleft : left.Pairwise (· < ·))
    (hright : right.Pairwise (· < ·)) (h : left ⊆ right) : left.Sublist right :=
  List.sublist_of_subperm_of_pairwise (List.subperm_of_subset hleft.nodup h) hleft hright

theorem unused_sublist_of_checkAll (manifest : Manifest) (used : List CodeText) :
    (ofManifest manifest used false).unused.Sublist (ofManifest manifest used true).unused := by
  refine sublist_of_subset (isAscending_ofManifest ..).unused (isAscending_ofManifest ..).unused ?_
  intro name hname
  rcases mem_unused_ofManifest.mp hname with ⟨⟨cls, -, hdeclared⟩, hunused⟩
  exact mem_unused_ofManifest.mpr ⟨⟨cls, Or.inr rfl, hdeclared⟩, hunused⟩

theorem unused_sublist_of_subset (h : used ⊆ more) (manifest : Manifest) (checkAll : Bool) :
    (ofManifest manifest more checkAll).unused.Sublist
      (ofManifest manifest used checkAll).unused := by
  refine sublist_of_subset (isAscending_ofManifest ..).unused (isAscending_ofManifest ..).unused ?_
  intro name hname
  rcases mem_unused_ofManifest.mp hname with ⟨hdeclared, hunused⟩
  exact mem_unused_ofManifest.mpr ⟨hdeclared, fun hmem => hunused (h hmem)⟩

theorem misplaced_sublist_of_subset (h : used ⊆ more) (manifest : Manifest) (checkAll : Bool) :
    (ofManifest manifest used checkAll).misplaced.Sublist
      (ofManifest manifest more checkAll).misplaced := by
  refine sublist_of_subset (isAscending_ofManifest ..).misplaced
    (isAscending_ofManifest ..).misplaced ?_
  intro name hname
  rcases mem_misplaced_ofManifest.mp hname with ⟨hdeclared, hmem⟩
  exact mem_misplaced_ofManifest.mpr ⟨hdeclared, h hmem⟩

/-- An analysis divides the declared names by their use.  Checking every class adds unused
names and leaves the misplaced ones as they are; more use takes names from the unused and
adds misplaced ones. -/
theorem ofManifest_divides_declared (manifest : Manifest) (checkAll : Bool) (h : used ⊆ more) :
    Divides manifest used checkAll (ofManifest manifest used checkAll) ∧
      (ofManifest manifest used true).misplaced = (ofManifest manifest used false).misplaced ∧
      (ofManifest manifest used false).unused.Sublist (ofManifest manifest used true).unused ∧
      (ofManifest manifest more checkAll).unused.Sublist
        (ofManifest manifest used checkAll).unused ∧
      (ofManifest manifest used checkAll).misplaced.Sublist
        (ofManifest manifest more checkAll).misplaced :=
  ⟨divides_ofManifest manifest used checkAll, rfl, unused_sublist_of_checkAll manifest used,
    unused_sublist_of_subset h manifest checkAll, misplaced_sublist_of_subset h manifest checkAll⟩

/-- A manifest in which every class shares a name with another. -/
def overlappingManifest : Manifest where
  dependencies := some (.ofMembers [("b", .string "1"), ("a", .string "1")])
  devDependencies := some (.ofMembers [("c", .string "2"), ("b", .string "2"), ("a", .string "2")])
  peerDependencies := some (.ofMembers [("c", .string "3"), ("d", .string "3")])

theorem overlappingManifest_divided :
    (["a", "x", "a"] : List CodeText) ⊆ ["c", "x", "a"] ∧
      Divides overlappingManifest ["a", "x", "a"] true ⟨["b", "c", "d"], ["a"]⟩ ∧
      (ofManifest overlappingManifest ["a", "x", "a"] false).unused =
        (["b"] : List CodeText) ∧
      ofManifest overlappingManifest ["c", "x", "a"] true = ⟨["b", "d"], ["a", "c"]⟩ ∧
      (["b", "d"] : List CodeText).Sublist ["b", "c", "d"] ∧
      (["a"] : List CodeText).Sublist ["a", "c"] := by
  have hmore : (["a", "x", "a"] : List CodeText) ⊆ ["c", "x", "a"] := by decide
  have hused : ofManifest overlappingManifest ["a", "x", "a"] true = ⟨["b", "c", "d"], ["a"]⟩ := by
    decide
  have hproduction : (ofManifest overlappingManifest ["a", "x", "a"] false).unused =
      (["b"] : List CodeText) := by
    decide
  have hgrown : ofManifest overlappingManifest ["c", "x", "a"] true = ⟨["b", "d"], ["a", "c"]⟩ := by
    decide
  have hall := ofManifest_divides_declared overlappingManifest true hmore
  rw [hused, hgrown] at hall
  exact ⟨hmore, hall.1, hproduction, hgrown, hall.2.2.2.1, hall.2.2.2.2⟩

end DependencyAudit.Analysis
